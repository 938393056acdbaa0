import Emk.HeapRuns
import Emk.ReferenceAllocator
import Emk.SchedTraces

/-!
# Lock discipline of the scheduler

`sched_spawn`, `sched_tick` and `sched_find_pcb` take and give back each lock
in turn. `sched_terminate` breaks that pattern by a nested `sched_tick`,
`proc_exit` by a release too many.
-/

set_option autoImplicit false

namespace Emk.Sched
open Emk.ByteMemory Emk.PageAllocator Emk.Paging Emk.Vmm Emk.Calls Emk.LockTrace
open Emk.ReferenceAllocator

variable {σ α : Type} {A : Ops σ} {hhdmOffset kernelPagemap kvmCtx cpu : ℕ}

section Requests

variable (A hhdmOffset kernelPagemap kvmCtx cpu)

/-- The calls that other parts of the kernel make into the scheduler. -/
inductive Request where
  | spawn (user : Bool) (entry pagemap vctx : ℕ)
  | tick (ctx : Option RegisterCtx)
  | terminate (dummy : RegisterCtx) (pid : ℕ)
  | exit (dummy : RegisterCtx) (code : ℤ)
  | find (pid : ℕ)

def perform : Request → Call (Kernel σ) Unit
  | .spawn user entry pagemap vctx => do
    let _ ← schedSpawn A hhdmOffset kernelPagemap kvmCtx cpu user entry pagemap vctx
    pure ()
  | .tick ctx => do
    let _ ← schedTick A hhdmOffset kernelPagemap cpu ctx
    pure ()
  | .terminate dummy pid => schedTerminate A hhdmOffset kernelPagemap cpu dummy pid
  | .exit dummy code => procExit A hhdmOffset kernelPagemap cpu dummy code
  | .find pid => do
    let _ ← schedFindPcb pid
    pure ()

/-- The call neither takes a lock twice nor gives back one it does not hold,
and when it returns it holds none. -/
def KeepsDiscipline (m : Call (Kernel σ) α) (k : Kernel σ) : Prop :=
  let r := m { k with locks := [] }
  Disciplined ∅ r.2.locks ∧ (r.1.isSome → held ∅ r.2.locks = ∅)

variable {A hhdmOffset kernelPagemap kvmCtx cpu}

theorem Bracketed.keeps {m : Call (Kernel σ) α} (h : Bracketed cpu m) (k : Kernel σ) :
    KeepsDiscipline m k := by
  have hpair := disciplined_pair cpu
  rcases h { k with locks := [] } with h | ⟨hr, h⟩
  · rw [KeepsDiscipline]
    dsimp only at h ⊢
    rw [h]
    exact ⟨hpair.1, fun _ => hpair.2⟩
  · rw [KeepsDiscipline]
    dsimp only at h ⊢
    rw [h, hr]
    exact ⟨⟨hpair.1.1, trivial⟩, fun h => absurd h (by simp)⟩

theorem Bracketed.then_pure {m : Call (Kernel σ) α} (h : Bracketed cpu m) :
    Bracketed cpu (m >>= fun _ => pure ()) :=
  Meets.bind h (fun _ _ _ _ _ hk hp => by
      obtain ⟨rfl, rfl⟩ := Prod.mk.inj hp
      exact hk.imp_right (fun h => absurd h.1 (by simp)))
    (fun _ _ hk => hk.imp_right (fun h => ⟨rfl, h.2⟩))

theorem Bracketed.then_release {m : Call (Kernel σ) α} (h : Bracketed cpu m) (k : Kernel σ) :
    ∃ rest, ((m >>= fun _ => spinlockRelease cpu) k).2.locks = k.locks ++ .acquire cpu::rest := by
  have hk := h k
  rw [bind_apply]
  rcases hm : m k with ⟨_ | a, k'⟩
  · rw [hm] at hk
    rcases hk with hk | ⟨-, hk⟩
    · exact ⟨_, hk⟩
    · exact ⟨_, hk⟩
  · rw [hm] at hk
    rcases hk with hk | ⟨hk, -⟩
    · refine ⟨[.release cpu, .release cpu], ?_⟩
      change k'.locks ++ [.release cpu] = _
      rw [show k'.locks = _ from hk]
      simp
    · exact absurd hk (by simp)

variable (A hhdmOffset kernelPagemap cpu) in
/-- Either the nested tick takes the lock a second time, or the call is bracketed and returns. -/
theorem schedTerminate_locks (dummy : RegisterCtx) (pid : ℕ) (k : Kernel σ) :
    let r := schedTerminate A hhdmOffset kernelPagemap cpu dummy pid k
    (findPid (k.scheds cpu) k.pcbs pid = some (k.scheds cpu).currentPid →
      ∃ rest, r.2.locks = k.locks ++ [.acquire cpu, .acquire cpu] ++ rest) ∧
    (findPid (k.scheds cpu) k.pcbs pid ≠ some (k.scheds cpu).currentPid →
      r.1 = some () ∧ r.2.locks = k.locks ++ [.acquire cpu, .release cpu]) := by
  intro r
  have hr : r = terminateEntry A hhdmOffset kernelPagemap cpu dummy (k.scheds cpu)
      (findPid (k.scheds cpu) k.pcbs pid) { k with locks := k.locks ++ [.acquire cpu] } := rfl
  cases hf : findPid (k.scheds cpu) k.pcbs pid with
  | none =>
    rw [hf] at hr
    refine ⟨fun h => absurd h (by simp), fun _ => ?_⟩
    rw [hr]
    exact ⟨rfl, List.append_assoc _ _ _⟩
  | some i =>
    rw [hf, terminateEntry, setPcb, update_bind] at hr
    dsimp only at hr
    by_cases hi : i = (k.scheds cpu).currentPid
    · refine ⟨fun _ => ?_, fun h => absurd (congrArg some hi) h⟩
      rw [if_pos hi] at hr
      obtain ⟨rest, hrest⟩ := (schedTick_bracketed dummy).then_release _
      exact ⟨rest, by rw [hr, hrest]; simp⟩
    · refine ⟨fun h => absurd (Option.some.inj h) hi, fun _ => ?_⟩
      rw [hr, if_neg hi]
      exact ⟨rfl, List.append_assoc _ _ _⟩

theorem terminate_iff (dummy : RegisterCtx) (pid : ℕ) (k : Kernel σ) :
    KeepsDiscipline (schedTerminate A hhdmOffset kernelPagemap cpu dummy pid) k ↔
      findPid (k.scheds cpu) k.pcbs pid ≠ some (k.scheds cpu).currentPid := by
  obtain ⟨htwice, honce⟩ := schedTerminate_locks A hhdmOffset
    kernelPagemap cpu dummy pid { k with locks := [] }
  rw [KeepsDiscipline]
  constructor
  · rintro ⟨hd, -⟩ hf
    obtain ⟨rest, hrest⟩ := htwice hf
    rw [hrest, disciplined_append] at hd
    exact hd.1.2.1 (Finset.mem_insert_self cpu ∅)
  · intro hf
    have hpair := disciplined_pair cpu
    obtain ⟨-, hlocks⟩ := honce hf
    rw [hlocks]
    exact ⟨hpair.1, fun _ => hpair.2⟩

variable (A hhdmOffset kernelPagemap cpu) in
/-- The release behind `sched_terminate` comes too late or once too often. -/
theorem terminate_then_release (dummy : RegisterCtx) (pid : ℕ) {k : Kernel σ}
    (hk : held ∅ k.locks = ∅) :
    ¬ Disciplined ∅ ((schedTerminate A hhdmOffset kernelPagemap cpu dummy pid >>=
      fun _ => spinlockRelease cpu) k).2.locks := by
  obtain ⟨htwice, honce⟩ := schedTerminate_locks A hhdmOffset
    kernelPagemap cpu dummy pid k
  intro hd
  by_cases hf : findPid (k.scheds cpu) k.pcbs pid = some (k.scheds cpu).currentPid
  · obtain ⟨rest, hrest⟩ := htwice hf
    have hmore : ∃ rest, ((schedTerminate A hhdmOffset kernelPagemap cpu dummy pid >>=
        fun _ => spinlockRelease cpu) k).2.locks =
          k.locks ++ ([.acquire cpu, .acquire cpu] ++ rest) := by
      rw [bind_apply]
      rcases hm : schedTerminate A hhdmOffset kernelPagemap cpu dummy pid k with ⟨_ | u, k'⟩
      · rw [hm] at hrest
        exact ⟨rest, hrest.trans (List.append_assoc _ _ _)⟩
      · rw [hm] at hrest
        refine ⟨rest ++ [.release cpu], ?_⟩
        change k'.locks ++ [.release cpu] = _
        rw [show k'.locks = _ from hrest]
        simp
    obtain ⟨rest', hrest'⟩ := hmore
    rw [hrest', disciplined_append, disciplined_append, hk] at hd
    exact hd.2.1.2.1 (Finset.mem_insert_self cpu ∅)
  · obtain ⟨hret, hlocks⟩ := honce hf
    rw [bind_of_fst_some hret] at hd
    change Disciplined ∅ ((schedTerminate A hhdmOffset kernelPagemap cpu dummy pid k).2.locks ++
      [.release cpu]) at hd
    rw [hlocks, disciplined_append, held_append, hk, (disciplined_pair cpu).2] at hd
    exact Finset.notMem_empty cpu hd.2.1

theorem exit_iff (dummy : RegisterCtx) (code : ℤ) (k : Kernel σ) :
    KeepsDiscipline (procExit A hhdmOffset kernelPagemap cpu dummy code) k ↔
      (k.scheds cpu).procs (k.scheds cpu).currentPid = 0 := by
  have hpair := disciplined_pair cpu
  rw [KeepsDiscipline, procExit, spinlockAcquire, update_bind, getSched, observe_bind]
  dsimp only
  by_cases h0 : (k.scheds cpu).procs (k.scheds cpu).currentPid = 0
  · rw [if_neg (not_not.mpr h0)]
    exact ⟨fun _ => h0, fun _ => ⟨hpair.1, fun _ => hpair.2⟩⟩
  · rw [if_pos h0]
    refine ⟨fun h => absurd h ?_, fun h => absurd h h0⟩
    rintro ⟨hd, -⟩
    refine terminate_then_release A hhdmOffset kernelPagemap cpu dummy _ ?_ hd
    exact hpair.2

theorem findPcb_locks (pid : ℕ) (cs : List ℕ) (k : Kernel σ) :
    ∃ ds : List ℕ, (findPcb pid cs k).2.locks = k.locks ++ ds.flatMap
      (fun c => [.acquire c, .release c]) := by
  induction cs generalizing k with
  | nil => exact ⟨[], by simp [findPcb, pure_apply]⟩
  | cons c cs ih =>
    rw [findPcb, spinlockAcquire, update_bind, getSched, observe_bind, observe_bind]
    dsimp only
    cases findPid (k.scheds c) k.pcbs pid with
    | some i =>
      refine ⟨[c], ?_⟩
      simp [spinlockRelease, update_bind, pure_apply]
    | none =>
      obtain ⟨ds, hds⟩ := ih { k with locks := k.locks ++ [.acquire c] ++ [.release c] }
      refine ⟨c::ds, ?_⟩
      dsimp only
      rw [spinlockRelease, update_bind, hds]
      simp

/-- The requests that keep the discipline. -/
def LockSafe (cpu : ℕ) (k : Kernel σ) : Request → Prop
  | .terminate _ pid => findPid (k.scheds cpu) k.pcbs pid ≠ some (k.scheds cpu).currentPid
  | .exit _ _ => (k.scheds cpu).procs (k.scheds cpu).currentPid = 0
  | _ => True

/-- A request keeps the lock discipline exactly when it is no termination of
the process that `current_pid` names. -/
theorem scheduler_lock_discipline (k : Kernel σ) (q : Request) :
    KeepsDiscipline (perform A hhdmOffset kernelPagemap kvmCtx cpu q) k ↔ LockSafe cpu k q := by
  cases q with
  | spawn user entry pagemap vctx =>
    exact iff_of_true ((schedSpawn_bracketed user entry pagemap vctx).then_pure.keeps k) trivial
  | tick ctx =>
    refine iff_of_true ?_ trivial
    cases ctx with
    | none => exact ⟨trivial, fun _ => rfl⟩
    | some frame => exact (schedTick_bracketed frame).then_pure.keeps k
  | terminate dummy pid => exact terminate_iff dummy pid k
  | exit dummy code => exact exit_iff dummy code k
  | find pid =>
    refine iff_of_true ?_ trivial
    obtain ⟨ds, hds⟩ := findPcb_locks pid (List.range maxCpus) { k with locks := [] }
    obtain ⟨h1, h2⟩ := disciplined_flatMap (fun c => [Event.acquire c, .release c]) ds
      (fun c _ => disciplined_pair c)
    have hlocks : (perform A hhdmOffset kernelPagemap kvmCtx cpu (.find pid)
        { k with locks := [] }).2.locks = ds.flatMap (fun c => [.acquire c, .release c]) := by
      rw [perform, bind_pure_apply]
      exact hds
    rw [KeepsDiscipline, hlocks]
    exact ⟨h1, fun _ => h2⟩

end Requests

section Boot

def bootContext : ℕ × State (List ℕ) :=
  vinit smallOps smallLayout.hhdmOffset 0x1000
    ⟨smallPhys, fun _ => ⟨0, 0, 0, 0, 0⟩, fun _ => ⟨0, 0, 0⟩⟩

def bootPool (pages : ℕ) : ℕ × State (List ℕ) :=
  (valloc smallOps smallLayout.hhdmOffset bootContext.1 pages (vallocRead ||| vallocWrite)
    bootContext.2).getD (0, bootContext.2)

/-- A kernel with a heap of this many pages, before `sched_init`. -/
def bootKernel (pages : ℕ) : Kernel (List ℕ) where
  vmm := (bootPool pages).2
  heap := FirstFitHeap.heapInit pages (bootPool pages).1 (fun _ => 0)
  pcbs := fun _ => newPcb false 0 0 0 0
  scheds := fun _ => ⟨0, fun _ => 0, 0, 0⟩
  globalPidCounter := 0
  cr3 := fun _ => 0
  locks := []
  copies := []

theorem bootKernel_heap (pages : ℕ) (hpages : 0 < pages) (hpool : 4096 ≤ (bootPool pages).1)
    (hfits : (bootPool pages).1+4096*pages < 2^64) :
    ∃ bs, HeapRuns.Inv (bootPool pages).1 ((bootPool pages).1+4096*pages)
      ⟨(bootKernel pages).heap, []⟩ bs :=
  ⟨_, HeapRuns.start_inv _ hpages hpool hfits⟩

def idleKernel (pages : ℕ) : Kernel (List ℕ) := (schedInit 0 (bootKernel pages)).2

theorem idleKernel_init (pages : ℕ) (h : (schedInit 0 (bootKernel pages)).1 = some ()) :
    schedInit 0 (bootKernel pages) = (some (), idleKernel pages) := Prod.ext h rfl

/-- One kernel process, spawned in the kernel's context and entered by a tick. -/
def runningKernel : Kernel (List ℕ) :=
  (schedTick smallOps smallLayout.hhdmOffset smallLayout.hhdmOffset 0 (some {})
    (schedSpawn smallOps smallLayout.hhdmOffset smallLayout.hhdmOffset bootContext.1 0 false 0x5000
      smallLayout.hhdmOffset bootContext.1 (idleKernel 2)).2).2

/-- The process that exits takes the lock, gives it back, takes it again and
waits for itself. -/
theorem exit_acquires_twice :
    ¬ KeepsDiscipline (perform smallOps smallLayout.hhdmOffset smallLayout.hhdmOffset
      bootContext.1 0
      (.exit {} 0)) runningKernel := by
  rw [perform, exit_iff]
  decide +kernel

end Boot

end Emk.Sched
