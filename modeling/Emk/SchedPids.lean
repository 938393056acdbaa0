import Emk.SchedIntegrity
import Emk.SchedPhases

/-!
# Process identifiers

Any number of CPUs spawn processes, tick and terminate. Each `sched_spawn`
runs in steps between which the other CPUs act. A control block gets its pid
from the one counter before it enters a table, so no two of them share a pid.
-/

set_option autoImplicit false

namespace Emk.SchedPids
open Emk.PageAllocator Emk.Vmm Emk.Calls Emk.Transition Emk.Sched Emk.ReferenceAllocator
open Emk.SchedIntegrity (returned terminated returned_eq)

variable {σ : Type}

inductive Stage where
  | allocated
  | numbered (pid : ℕ)
  | built (pid : ℕ)
  deriving DecidableEq, Repr

/-- A call of `sched_spawn` that has its control block. -/
structure Pending where
  user : Bool
  entry : ℕ
  pagemap : ℕ
  vctx : ℕ
  proc : ℕ
  stage : Stage
  deriving DecidableEq, Repr

structure World (σ : Type) where
  kernel : Kernel σ
  pending : ℕ → Option Pending

inductive Op where
  | init (cpu : ℕ)
  | alloc (cpu : ℕ) (user : Bool) (entry pagemap vctx : ℕ)
  | fetch (cpu : ℕ)
  | build (cpu : ℕ)
  | insert (cpu : ℕ)
  | tick (cpu : ℕ) (ctx : Option RegisterCtx)
  | mark (proc : ℕ)

def World.at (w : World σ) (cpu : ℕ) (q : Option Pending) (k : Kernel σ) : World σ :=
  ⟨k, Function.update w.pending cpu q⟩

section Steps
variable (A : Ops σ) (hhdmOffset kernelPagemap kvmCtx : ℕ)

/-- A call that needs the lock of a CPU. -/
def locked (w : World σ) (cpu : ℕ) (k : Option (Kernel σ)) : Option (World σ) :=
  match w.pending cpu with
  | some _ => none
  | none => k.map fun k => ⟨k, w.pending⟩

def startSpawn (w : World σ) (cpu : ℕ) (user : Bool) (entry pagemap vctx : ℕ) :
    Option (World σ) :=
  match w.pending cpu, spawnAlloc cpu w.kernel with
  | none, (some proc, k) => some (w.at cpu (some ⟨user, entry, pagemap, vctx, proc, .allocated⟩) k)
  | _, _ => none

/-- The next step of the `sched_spawn` that runs on a CPU. -/
def fetchPid (w : World σ) (cpu : ℕ) : Option (World σ) :=
  match w.pending cpu with
  | some ⟨user, entry, pagemap, vctx, proc, .allocated⟩ =>
    match atomicIncFetch w.kernel with
    | (some pid, k) => some (w.at cpu (some ⟨user, entry, pagemap, vctx, proc, .numbered pid⟩) k)
    | (none, _) => none
  | _ => none

def buildPcb (w : World σ) (cpu : ℕ) : Option (World σ) :=
  match w.pending cpu with
  | some ⟨user, entry, pagemap, vctx, proc, .numbered pid⟩ =>
    (returned (spawnBuild A hhdmOffset kernelPagemap kvmCtx cpu user entry pagemap vctx proc pid
      w.kernel)).map (w.at cpu (some ⟨user, entry, pagemap, vctx, proc, .built pid⟩))
  | _ => none

def insertPcb (w : World σ) (cpu : ℕ) : Option (World σ) :=
  match w.pending cpu with
  | some ⟨_, _, _, _, proc, .built pid⟩ =>
    (returned (spawnInsert cpu proc pid w.kernel)).map (w.at cpu none)
  | _ => none

def step (w : World σ) : Op → Option (World σ)
  | .init cpu => locked w cpu (returned (schedInit cpu w.kernel))
  | .alloc cpu user entry pagemap vctx => startSpawn w cpu user entry pagemap vctx
  | .fetch cpu => fetchPid w cpu
  | .build cpu => buildPcb A hhdmOffset kernelPagemap kvmCtx w cpu
  | .insert cpu => insertPcb w cpu
  | .tick cpu ctx => locked w cpu (returned (schedTick A hhdmOffset kernelPagemap cpu ctx w.kernel))
  | .mark proc => some ⟨terminated proc w.kernel, w.pending⟩

end Steps

variable {A : Ops σ} {hhdmOffset kernelPagemap kvmCtx lo hi n cpu : ℕ} {w w' : World σ}
  {live live' : List ℕ} {bs bs' : List HeapBlocks.Blk} {k' : Kernel σ}

section Effects

theorem locked_returned {k : Option (Kernel σ)} (h : locked w cpu k = some w') :
    w.pending cpu = none ∧ ∃ k', k = some k' ∧ w' = ⟨k', w.pending⟩ := by
  rw [locked] at h
  rcases hp : w.pending cpu with _ | q
  · rw [hp] at h
    obtain ⟨k', hk, rfl⟩ := Option.map_eq_some_iff.mp h
    exact ⟨rfl, k', hk, rfl⟩
  · rw [hp] at h
    exact nomatch h

theorem startSpawn_returned {user : Bool} {entry pagemap vctx : ℕ}
    (h : startSpawn w cpu user entry pagemap vctx = some w') :
    w.pending cpu = none ∧ ∃ proc k', spawnAlloc cpu w.kernel = (some proc, k') ∧
      w' = w.at cpu (some ⟨user, entry, pagemap, vctx, proc, .allocated⟩) k' := by
  rw [startSpawn] at h
  rcases hp : w.pending cpu with _ | q
  · rcases hk : spawnAlloc cpu w.kernel with ⟨_ | proc, k'⟩
    · rw [hp, hk] at h
      exact nomatch h
    · rw [hp, hk] at h
      exact ⟨rfl, proc, k', rfl, (Option.some.inj h).symm⟩
  · rw [hp] at h
    exact nomatch h

theorem fetchPid_returned (h : fetchPid w cpu = some w') :
    ∃ q, w.pending cpu = some q ∧ q.stage = .allocated ∧
      w' = w.at cpu (some { q with stage := .numbered w.kernel.globalPidCounter })
        { w.kernel with globalPidCounter := (w.kernel.globalPidCounter+1) % 2^32 } := by
  rw [fetchPid] at h
  split at h
  · rename_i user entry pagemap vctx proc hp
    exact ⟨_, hp, rfl, (Option.some.inj h).symm⟩
  · exact nomatch h

theorem buildPcb_returned (h : buildPcb A hhdmOffset kernelPagemap kvmCtx w cpu = some w') :
    ∃ q pid vmm pcb, w.pending cpu = some q ∧ q.stage = .numbered pid ∧ pcb.pid = pid ∧
      w' = w.at cpu (some { q with stage := .built pid })
        { w.kernel with vmm := vmm, pcbs := Function.update w.kernel.pcbs q.proc pcb } := by
  rw [buildPcb] at h
  split at h
  · rename_i user entry pagemap vctx proc pid hp
    obtain ⟨k', hk, rfl⟩ := Option.map_eq_some_iff.mp h
    obtain ⟨u, hr⟩ := returned_eq hk
    obtain ⟨vmm, pcb, hpid, rfl⟩ := spawnBuild_returned hr
    exact ⟨_, pid, vmm, pcb, hp, rfl, hpid, rfl⟩
  · exact nomatch h

theorem insertPcb_returned (h : insertPcb w cpu = some w') :
    ∃ q pid k', w.pending cpu = some q ∧ q.stage = .built pid ∧ w' = w.at cpu none k' ∧
      k'.scheds cpu = { w.kernel.scheds cpu with
        procs := Function.update (w.kernel.scheds cpu).procs (w.kernel.scheds cpu).count q.proc
        count := (w.kernel.scheds cpu).count+1 } ∧
      (∀ c, c ≠ cpu → k'.scheds c = w.kernel.scheds c) ∧ k'.heap = w.kernel.heap ∧
      k'.pcbs = w.kernel.pcbs ∧ k'.globalPidCounter = w.kernel.globalPidCounter := by
  rw [insertPcb] at h
  split at h
  · rename_i user entry pagemap vctx proc pid hp
    obtain ⟨k', hk, rfl⟩ := Option.map_eq_some_iff.mp h
    obtain ⟨pid', hr⟩ := returned_eq hk
    obtain ⟨-, rfl⟩ := spawnInsert_returned hr
    exact ⟨_, pid, _, hp, rfl, rfl, Function.update_self _ _ _,
      fun c hc => Function.update_of_ne hc _ _, rfl, rfl, rfl⟩
  · exact nomatch h

end Effects

section Invariant

/-- The control block that a call of `sched_spawn` holds has this pid. -/
def Named (q : Pending) (p m : ℕ) : Prop :=
  q.proc = p ∧ (q.stage = .numbered m ∨ q.stage = .built m)

/-- A process of some table, or one that is being spawned, has this pid. -/
def Carries (w : World σ) (p m : ℕ) : Prop :=
  (∃ c, p ∈ entries (w.kernel.scheds c) ∧ (w.kernel.pcbs p).pid = m) ∨
    ∃ c q, w.pending c = some q ∧ Named q p m

/-- Every pid that was given out is below the counter, and given out once. -/
structure Numbers (n : ℕ) (w : World σ) : Prop where
  below : ∀ p m, Carries w p m → m < n
  single : ∀ p q m, Carries w p m → Carries w q m → p = q

/-- The control blocks of unfinished calls are live, in no table, and all different. -/
structure Spawning (live : List ℕ) (w : World σ) : Prop where
  room : ∀ c q, w.pending c = some q → (w.kernel.scheds c).count < procMaxProcsPerCpu
  held : ∀ c q, w.pending c = some q → q.proc ≠ 0 ∧ q.proc ∈ live ∧
    ∀ d, q.proc ∉ entries (w.kernel.scheds d)
  apart : ∀ c d q r, w.pending c = some q → w.pending d = some r → q.proc = r.proc → c = d
  built : ∀ c q m, w.pending c = some q → q.stage = .built m → (w.kernel.pcbs q.proc).pid = m

structure Inv (lo hi n : ℕ) (w : World σ) (live : List ℕ) (bs : List HeapBlocks.Blk) : Prop where
  tables : SchedIntegrity.Inv lo hi w.kernel live bs
  spawning : Spawning live w
  numbers : Numbers n w
  counter : w.kernel.globalPidCounter = n

theorem Numbers.mono (h : Numbers n w) (hsub : ∀ p m, Carries w' p m → Carries w p m) :
    Numbers n w' where
  below := fun p m hp => h.below p m (hsub p m hp)
  single := fun p q m hp hq => h.single p q m (hsub p m hp) (hsub q m hq)

/-- One block gets the number that the counter shows. -/
theorem Numbers.next (h : Numbers n w) {proc : ℕ}
    (hsub : ∀ p m, Carries w' p m → Carries w p m ∨ (p = proc ∧ m = n)) :
    Numbers (n+1) w' := by
  constructor
  · intro p m hp
    rcases hsub p m hp with hp | ⟨-, rfl⟩
    · have := h.below p m hp
      omega
    · omega
  · intro p q m hp hq
    rcases hsub p m hp with hp | ⟨rfl, hm⟩ <;> rcases hsub q m hq with hq | ⟨rfl, hm'⟩
    · exact h.single p q m hp hq
    · have := h.below p m hp
      omega
    · have := h.below q m hq
      omega
    · rfl

theorem at_pending {q : Option Pending} {r : Pending} {c : ℕ}
    (h : (w.at cpu q k').pending c = some r) :
    (c = cpu ∧ q = some r) ∨ (c ≠ cpu ∧ w.pending c = some r) := by
  change Function.update w.pending cpu q c = some r at h
  by_cases hc : c = cpu
  · rw [hc, Function.update_self] at h
    exact .inl ⟨hc, h⟩
  · rw [Function.update_of_ne hc] at h
    exact .inr ⟨hc, h⟩

theorem carries_at {q : Option Pending} {p m : ℕ} (h : Carries (w.at cpu q k') p m) :
    (∃ c, p ∈ entries (k'.scheds c) ∧ (k'.pcbs p).pid = m) ∨ (∃ r, q = some r ∧ Named r p m) ∨
      ∃ c r, c ≠ cpu ∧ w.pending c = some r ∧ Named r p m := by
  rcases h with h | ⟨c, r, hr, hn⟩
  · exact .inl h
  · rcases at_pending hr with ⟨-, hr⟩ | ⟨hc, hr⟩
    · exact .inr (.inl ⟨r, hr, hn⟩)
    · exact .inr (.inr ⟨c, r, hc, hr, hn⟩)

/-- The call on one CPU makes a step that leaves the tables alone. -/
theorem Spawning.at (h : Spawning live w) {q : Pending} (hs : k'.scheds = w.kernel.scheds)
    (hlive : ∀ p ∈ live, p ∈ live')
    (hpcbs : ∀ p, p ≠ q.proc → (k'.pcbs p).pid = (w.kernel.pcbs p).pid)
    (hroom : (w.kernel.scheds cpu).count < procMaxProcsPerCpu)
    (hheld : q.proc ≠ 0 ∧ q.proc ∈ live' ∧ ∀ d, q.proc ∉ entries (w.kernel.scheds d))
    (hother : ∀ c r, c ≠ cpu → w.pending c = some r → r.proc ≠ q.proc)
    (hbuilt : ∀ m, q.stage = .built m → (k'.pcbs q.proc).pid = m) :
    Spawning live' (w.at cpu (some q) k') := by
  constructor
  · intro c r hr
    change (k'.scheds c).count < _
    rw [hs]
    rcases at_pending hr with ⟨rfl, -⟩ | ⟨-, hr⟩
    · exact hroom
    · exact h.room c r hr
  · intro c r hr
    change _ ∧ _ ∧ ∀ d, r.proc ∉ entries (k'.scheds d)
    rw [hs]
    rcases at_pending hr with ⟨-, he⟩ | ⟨-, hr⟩
    · obtain rfl := Option.some.inj he
      exact hheld
    · obtain ⟨h0, hin, hout⟩ := h.held c r hr
      exact ⟨h0, hlive _ hin, hout⟩
  · intro c d r t hr ht he
    rcases at_pending hr with ⟨hc, hr⟩ | ⟨hc, hr⟩ <;>
      rcases at_pending ht with ⟨hd, ht⟩ | ⟨hd, ht⟩
    · rw [hc, hd]
    · obtain rfl := Option.some.inj hr
      exact absurd he.symm (hother d t hd ht)
    · obtain rfl := Option.some.inj ht
      exact absurd he (hother c r hc hr)
    · exact h.apart c d r t hr ht he
  · intro c r m hr hm
    change (k'.pcbs r.proc).pid = m
    rcases at_pending hr with ⟨-, he⟩ | ⟨hc, hr⟩
    · obtain rfl := Option.some.inj he
      exact hbuilt m hm
    · rw [hpcbs _ (hother c r hc hr)]
      exact h.built c r m hr hm

theorem Spawning.other (h : Spawning live w) {q r : Pending} {c : ℕ} (hq : w.pending cpu = some q)
    (hc : c ≠ cpu) (hr : w.pending c = some r) : r.proc ≠ q.proc :=
  fun he => hc (h.apart c cpu r q hr hq he)

end Invariant

section Preserved

/-- A step that touches no unfinished call and no pid. -/
theorem Inv.frame (hinv : Inv lo hi n w live bs)
    (htables : SchedIntegrity.Inv lo hi k' live' bs')
    (hkeep : ∀ c q, w.pending c = some q → k'.scheds c = w.kernel.scheds c)
    (hsub : ∀ c, ∀ p ∈ entries (k'.scheds c), p ∈ entries (w.kernel.scheds c))
    (hlive : ∀ c q, w.pending c = some q → q.proc ∈ live')
    (hpid : ∀ p, (k'.pcbs p).pid = (w.kernel.pcbs p).pid)
    (hcounter : k'.globalPidCounter = w.kernel.globalPidCounter) :
    Inv lo hi n ⟨k', w.pending⟩ live' bs' := by
  refine ⟨htables, ⟨?_, ?_, hinv.spawning.apart, ?_⟩, ?_, hcounter.trans hinv.counter⟩
  · intro c q hq
    change (k'.scheds c).count < _
    rw [hkeep c q hq]
    exact hinv.spawning.room c q hq
  · intro c q hq
    obtain ⟨h0, -, hout⟩ := hinv.spawning.held c q hq
    exact ⟨h0, hlive c q hq, fun d hin => hout d (hsub d _ hin)⟩
  · intro c q m hq hm
    exact (hpid _).trans (hinv.spawning.built c q m hq hm)
  · refine hinv.numbers.mono fun p m hp => ?_
    rcases hp with ⟨c, hin, hm⟩ | hp
    · exact .inl ⟨c, hsub c p hin, (hpid p).symm.trans hm⟩
    · exact .inr hp

/-- The pid counter stands still during a tick. -/
theorem schedTick_counter (ctx : Option RegisterCtx) :
    Silent Kernel.globalPidCounter (schedTick A hhdmOffset kernelPagemap cpu ctx) := by
  have hlock : Silent Kernel.globalPidCounter (spinlockAcquire cpu : Call (Kernel σ) Unit) :=
    fun _ => rfl
  have hunlock : Silent Kernel.globalPidCounter (spinlockRelease cpu : Call (Kernel σ) Unit) :=
    fun _ => rfl
  have hcopy : ∀ c, Silent Kernel.globalPidCounter (logCopy c : Call (Kernel σ) Unit) :=
    fun _ _ => rfl
  cases ctx with
  | none => exact silent_pure _
  | some frame =>
    refine hlock.bind fun _ => silent_getSched.bind fun _ => Silent.ite ?_ ?_
    · exact hunlock.bind fun _ => (silent_pmset _).bind fun _ => silent_pure _
    · refine Silent.bind ?_ fun _ => (silent_nextProc _ _).bind fun _ =>
        (silent_orFirst _).bind fun _ => Silent.bind ?_ fun _ => silent_pure _
      · exact (silent_getPcb _).bind fun _ =>
          Silent.ite ((hcopy _).bind fun _ => silent_setPcb _ _) (silent_pure _)
      · refine silent_getSched.bind fun _ => (silent_getPcb _).bind fun _ => Silent.ite ?_
          (Silent.ite ?_ ?_)
        · exact (silent_setPcb _ _).bind fun _ => (silent_pmset _).bind fun _ =>
            (hcopy _).bind fun _ => hunlock.bind fun _ => silent_pure _
        · exact hunlock.bind fun _ => (silent_pmset _).bind fun _ => silent_never
        · exact hunlock.bind fun _ => silent_pure _

theorem saved_pid (frame : RegisterCtx) (k : Kernel σ) (p : ℕ) :
    (saved cpu frame k p).pid = (k.pcbs p).pid := by
  rw [saved]
  split_ifs
  · by_cases hp : p = (k.scheds cpu).procs (k.scheds cpu).currentPid
    · rw [hp, Function.update_self, savedPcb]
      split_ifs
      · rfl
      · rfl
    · rw [Function.update_of_ne hp]
  · rfl

theorem entered_pid (next : ℕ) (pcbs : ℕ → Pcb) (p : ℕ) :
    (entered next pcbs p).pid = (pcbs p).pid := by
  rw [entered]
  split_ifs
  · by_cases hp : p = next
    · rw [hp, Function.update_self]
    · rw [Function.update_of_ne hp]
  · rfl

theorem schedTick_pid {k : Kernel σ} (ht : ∀ cpu, Table (k.scheds cpu))
    {ctx r : Option RegisterCtx}
    (hr : schedTick A hhdmOffset kernelPagemap cpu ctx k = (some r, k')) (p : ℕ) :
    (k'.pcbs p).pid = (k.pcbs p).pid := by
  rcases SchedIntegrity.tick_cases ht hr with ⟨-, -, hp⟩ | ⟨frame, out, next, gone, -, -, -, h⟩
  · rw [hp]
  · rw [h.pcbs, entered_pid, saved_pid]

theorem Inv.tick (hinv : Inv lo hi n w live bs) {ctx r : Option RegisterCtx}
    (hidle : w.pending cpu = none)
    (hr : schedTick A hhdmOffset kernelPagemap cpu ctx w.kernel = (some r, k')) :
    ∃ live' bs', Inv lo hi n ⟨k', w.pending⟩ live' bs' := by
  obtain ⟨⟨live', bs', htables, hlive⟩, hkeep⟩ := hinv.tables.tick hr
  have hcounter : (schedTick A hhdmOffset kernelPagemap cpu ctx w.kernel).2.globalPidCounter =
      w.kernel.globalPidCounter := schedTick_counter ctx w.kernel
  rw [hr] at hcounter
  refine ⟨live', bs', hinv.frame htables ?_ ?_ ?_ (schedTick_pid hinv.tables.table hr) hcounter⟩
  · intro c q hq
    exact hkeep.others c (fun hc => by rw [hc, hidle] at hq; exact nomatch hq)
  · intro c p hp
    by_cases hc : c = cpu
    · exact hc ▸ hkeep.deletes.subset (hc ▸ hp)
    · rwa [hkeep.others c hc] at hp
  · intro c q hq
    obtain ⟨-, hin, hout⟩ := hinv.spawning.held c q hq
    exact hlive _ hin (hout cpu)

theorem Inv.init (hinv : Inv lo hi n w live bs) {u : Unit} (hidle : w.pending cpu = none)
    (hr : schedInit cpu w.kernel = (some u, k')) :
    ∃ live' bs', Inv lo hi n ⟨k', w.pending⟩ live' bs' := by
  obtain ⟨live', bs', htables, hlive⟩ := hinv.tables.init hr
  obtain ⟨table, heap, -, -, rfl⟩ := schedInit_returned hr
  refine ⟨live', bs', hinv.frame htables ?_ ?_ ?_ (fun _ => rfl) rfl⟩
  · intro c q hq
    exact Function.update_of_ne (fun hc => by rw [hc, hidle] at hq; exact nomatch hq) _ _
  · intro c p hp
    dsimp only at hp
    by_cases hc : c = cpu
    · rw [hc, Function.update_self] at hp
      simp [entries] at hp
    · rwa [Function.update_of_ne hc] at hp
  · exact fun c q hq => hlive _ (hinv.spawning.held c q hq).2.1

theorem Inv.mark (hinv : Inv lo hi n w live bs) (proc : ℕ) :
    Inv lo hi n ⟨terminated proc w.kernel, w.pending⟩ live bs := by
  have h := hinv.tables
  refine hinv.frame ⟨h.heap, h.table, h.onHeap, h.apart⟩ (fun _ _ _ => rfl) (fun _ _ hp => hp)
    (fun c q hq => (hinv.spawning.held c q hq).2.1) (fun p => ?_) rfl
  by_cases hp : p = proc
  · rw [hp, SchedIntegrity.terminated_self]
  · rw [SchedIntegrity.terminated_other hp]

theorem Inv.startSpawn (hinv : Inv lo hi n w live bs) {user : Bool} {entry pagemap vctx : ℕ}
    (hr : startSpawn w cpu user entry pagemap vctx = some w') :
    ∃ live' bs', Inv lo hi n w' live' bs' := by
  obtain ⟨hidle, proc, k', hk, rfl⟩ := startSpawn_returned hr
  obtain ⟨hroom, h0, heap, hmalloc, rfl⟩ := spawnAlloc_returned hk
  have h := hinv.tables
  obtain ⟨hfresh, -, -, bs', _, hheap, -⟩ := h.heap.kmalloc_fresh hmalloc h0
  refine ⟨proc::live, bs', ⟨hheap, h.table, fun c p hp => List.mem_cons_of_mem _ (h.onHeap c p hp),
    h.apart⟩, ?_, ?_, hinv.counter⟩
  · refine hinv.spawning.at rfl (fun p hp => List.mem_cons_of_mem _ hp) (fun _ _ => rfl) hroom
      ⟨h0, List.mem_cons_self, fun d hin => hfresh (h.onHeap d _ hin)⟩ ?_ ?_
    · intro c r _ hr he
      have hin := (hinv.spawning.held c r hr).2.1
      rw [he] at hin
      exact hfresh hin
    · exact fun m hm => nomatch hm
  · refine hinv.numbers.mono fun p m hp => ?_
    rcases carries_at hp with hp | ⟨r, hr, -, hm⟩ | ⟨c, r, -, hr, hn⟩
    · exact .inl hp
    · obtain rfl := Option.some.inj hr
      simp at hm
    · exact .inr ⟨c, r, hr, hn⟩

theorem Inv.fetchPid (hinv : Inv lo hi n w live bs) (hn : n < 2^32-1)
    (hr : fetchPid w cpu = some w') : Inv lo hi (n+1) w' live bs := by
  obtain ⟨q, hq, -, rfl⟩ := fetchPid_returned hr
  have h := hinv.tables
  refine ⟨⟨h.heap, h.table, h.onHeap, h.apart⟩, ?_, ?_, ?_⟩
  · exact hinv.spawning.at rfl (fun p hp => hp) (fun _ _ => rfl) (hinv.spawning.room cpu q hq)
      (hinv.spawning.held cpu q hq) (fun c r hc hr => hinv.spawning.other (q := q) hq hc hr)
      (fun m hm => nomatch hm)
  · refine hinv.numbers.next fun p m hp => (?_ : Carries w p m ∨ (p = q.proc ∧ m = n))
    rcases carries_at hp with hp | ⟨r, hr, rfl, hm⟩ | ⟨c, r, -, hr, hn⟩
    · exact .inl (.inl hp)
    · obtain rfl := Option.some.inj hr
      simp only [Stage.numbered.injEq, reduceCtorEq, or_false] at hm
      exact .inr ⟨rfl, hm.symm.trans hinv.counter⟩
    · exact .inl (.inr ⟨c, r, hr, hn⟩)
  · change (w.kernel.globalPidCounter+1) % 2^32 = n+1
    rw [hinv.counter, Nat.mod_eq_of_lt (by omega)]

theorem Inv.buildPcb (hinv : Inv lo hi n w live bs)
    (hr : buildPcb A hhdmOffset kernelPagemap kvmCtx w cpu = some w') :
    Inv lo hi n w' live bs := by
  obtain ⟨q, pid, vmm, pcb, hq, hstage, hpid, rfl⟩ := buildPcb_returned hr
  have h := hinv.tables
  have hself : (Function.update w.kernel.pcbs q.proc pcb q.proc).pid = pid := by
    rw [Function.update_self, hpid]
  have hother : ∀ p, p ≠ q.proc →
      (Function.update w.kernel.pcbs q.proc pcb p).pid = (w.kernel.pcbs p).pid := by
    intro p hp
    rw [Function.update_of_ne hp]
  obtain ⟨h0, hin, hout⟩ := hinv.spawning.held cpu q hq
  refine ⟨⟨h.heap, h.table, h.onHeap, h.apart⟩, ?_, ?_, hinv.counter⟩
  · refine hinv.spawning.at rfl (fun p hp => hp) hother (hinv.spawning.room cpu q hq)
      ⟨h0, hin, hout⟩ (fun c r hc hr => hinv.spawning.other (q := q) hq hc hr) (fun m hm => ?_)
    rw [← Stage.built.inj hm]
    exact hself
  · refine hinv.numbers.mono fun p m hp => ?_
    rcases carries_at hp with ⟨c, hin, hm⟩ | ⟨r, hr, rfl, hm⟩ | ⟨c, r, -, hr, hn⟩
    · refine .inl ⟨c, hin, ?_⟩
      rwa [hother p (fun he => hout c (he ▸ hin))] at hm
    · obtain rfl := Option.some.inj hr
      simp only [Stage.built.injEq, reduceCtorEq, false_or] at hm
      exact .inr ⟨cpu, q, hq, rfl, .inl (hm ▸ hstage)⟩
    · exact .inr ⟨c, r, hr, hn⟩

theorem Inv.insertPcb (hinv : Inv lo hi n w live bs) (hr : insertPcb w cpu = some w') :
    Inv lo hi n w' live bs := by
  obtain ⟨q, pid, k', hq, hstage, rfl, hs, hothers, hheap, hpcbs, hcounter⟩ :=
    insertPcb_returned hr
  have h := hinv.tables
  obtain ⟨h0, hin, hout⟩ := hinv.spawning.held cpu q hq
  obtain ⟨ht, he⟩ := (h.table cpu).append (hinv.spawning.room cpu q hq) h0 (hout cpu)
  rw [← hs] at ht he
  have hmem : ∀ c p, p ∈ entries (k'.scheds c) →
      p ∈ entries (w.kernel.scheds c) ∨ p = q.proc := by
    intro c p hp
    by_cases hc : c = cpu
    · rw [hc, he, List.mem_append, List.mem_singleton] at hp
      exact hc ▸ hp
    · rw [hothers c hc] at hp
      exact .inl hp
  have hrest : ∀ c r, (w.at cpu none k').pending c = some r → c ≠ cpu ∧ w.pending c = some r := by
    intro c r hr
    rcases at_pending hr with ⟨-, hr⟩ | h
    · exact nomatch hr
    · exact h
  refine ⟨h.grow cpu (by rw [World.at, hheap]; exact h.heap) ht he hothers (fun p hp => hp) hin
    hout, ⟨?_, ?_, ?_, ?_⟩, ?_, hcounter.trans hinv.counter⟩
  · intro c r hr
    obtain ⟨hc, hr⟩ := hrest c r hr
    change (k'.scheds c).count < _
    rw [hothers c hc]
    exact hinv.spawning.room c r hr
  · intro c r hr
    obtain ⟨hc, hr⟩ := hrest c r hr
    obtain ⟨hr0, hrin, hrout⟩ := hinv.spawning.held c r hr
    exact ⟨hr0, hrin, fun d hd => (hmem d _ hd).elim (hrout d) (hinv.spawning.other hq hc hr)⟩
  · intro c d r t hr ht he
    exact hinv.spawning.apart c d r t (hrest c r hr).2 (hrest d t ht).2 he
  · intro c r m hr hm
    change (k'.pcbs r.proc).pid = m
    rw [hpcbs]
    exact hinv.spawning.built c r m (hrest c r hr).2 hm
  · refine hinv.numbers.mono fun p m hp => ?_
    rcases carries_at hp with ⟨c, hin, hm⟩ | ⟨r, hr, -⟩ | ⟨c, r, -, hr, hn⟩
    · rw [hpcbs] at hm
      rcases hmem c p hin with hin | rfl
      · exact .inl ⟨c, hin, hm⟩
      · refine .inr ⟨cpu, q, hq, rfl, .inr ?_⟩
        rw [hstage, ← hm, hinv.spawning.built cpu q pid hq hstage]
    · exact nomatch hr
    · exact .inr ⟨c, r, hr, hn⟩

/-- How many pids an operation takes from the counter. -/
def Op.fetches : Op → ℕ
  | .fetch _ => 1
  | _ => 0

theorem step_inv (hinv : Inv lo hi n w live bs) {o : Op} (hn : n+o.fetches < 2^32)
    (hr : step A hhdmOffset kernelPagemap kvmCtx w o = some w') :
    ∃ live' bs', Inv lo hi (n+o.fetches) w' live' bs' := by
  cases o with
  | init cpu =>
    obtain ⟨hidle, k', hk, rfl⟩ := locked_returned hr
    obtain ⟨u, h⟩ := returned_eq hk
    exact hinv.init hidle h
  | alloc cpu user entry pagemap vctx => exact hinv.startSpawn hr
  | fetch cpu => exact ⟨live, bs, hinv.fetchPid (by simp only [Op.fetches] at hn; omega) hr⟩
  | build cpu => exact ⟨live, bs, hinv.buildPcb hr⟩
  | insert cpu => exact ⟨live, bs, hinv.insertPcb hr⟩
  | tick cpu ctx =>
    obtain ⟨hidle, k', hk, rfl⟩ := locked_returned hr
    obtain ⟨r, h⟩ := returned_eq hk
    exact hinv.tick hidle h
  | mark proc =>
    obtain rfl := Option.some.inj hr
    exact ⟨live, bs, hinv.mark proc⟩

/-- The pids that a run takes from the counter. -/
def fetches (ops : List Op) : ℕ := (ops.map Op.fetches).sum

theorem run_inv {ops : List Op} (hinv : Inv lo hi n w live bs) (hn : n+fetches ops < 2^32)
    (hrun : run (lift (step A hhdmOffset kernelPagemap kvmCtx)) (some w) ops = some w') :
    ∃ live' bs', Inv lo hi (n+fetches ops) w' live' bs' := by
  induction ops generalizing n w live bs with
  | nil =>
    obtain rfl := Option.some.inj hrun
    exact ⟨live, bs, hinv⟩
  | cons o ops ih =>
    rw [fetches, List.map_cons, List.sum_cons, ← fetches] at hn ⊢
    obtain ⟨w₁, hw, hrun⟩ := run_lift_cons hrun
    obtain ⟨live₁, bs₁, hinv₁⟩ := step_inv hinv (by omega) hw
    rw [← Nat.add_assoc] at hn ⊢
    exact ih hinv₁ hn hrun

end Preserved

section Search

end Search

theorem boot_inv {boot : Kernel σ} (hheap : HeapRuns.Inv lo hi ⟨boot.heap, live⟩ bs)
    (hboot : ∀ cpu, boot.scheds cpu = ⟨0, fun _ => 0, 0, 0⟩)
    (hcounter : boot.globalPidCounter = 0) : Inv lo hi 0 ⟨boot, fun _ => none⟩ live bs := by
  have hnone : ∀ p m, ¬ Carries ⟨boot, fun _ => none⟩ p m := by
    rintro p m (⟨c, hin, -⟩ | ⟨c, q, hq, -⟩)
    · rw [hboot] at hin
      simp [entries] at hin
    · exact absurd hq.symm (Option.some_ne_none q)
  refine ⟨SchedIntegrity.boot_inv hheap hboot, ⟨?_, ?_, ?_, ?_⟩,
    ⟨fun p m hp => absurd hp (hnone p m), fun p _ m hp => absurd hp (hnone p m)⟩, hcounter⟩
  · intro c q hq
    exact absurd hq.symm (Option.some_ne_none q)
  · intro c q hq
    exact absurd hq.symm (Option.some_ne_none q)
  · intro c d q r hq
    exact absurd hq.symm (Option.some_ne_none q)
  · intro c q m hq
    exact absurd hq.symm (Option.some_ne_none q)

def smallRun (pages : ℕ) (ops : List Op) : Option (World (List ℕ)) :=
  run (lift (step smallOps smallLayout.hhdmOffset smallLayout.hhdmOffset bootContext.1))
    (some ⟨bootKernel pages, fun _ => none⟩) ops

def allocTest (cpu : ℕ) : Op := .alloc cpu false 0x5000 smallLayout.hhdmOffset bootContext.1

/-- Two CPUs spawn at the same time; later the first process of CPU 0 is reaped. -/
def twoCpus : List Op :=
  [.init 0, .init 1, allocTest 0, allocTest 1, .fetch 1, .fetch 0, .build 0, .build 1, .insert 1,
    .tick 1 (some {}), .insert 0, allocTest 0, .fetch 0, .build 0, .insert 0, .mark 12336,
    .tick 0 (some {}), .tick 0 (some {})]

end Emk.SchedPids
