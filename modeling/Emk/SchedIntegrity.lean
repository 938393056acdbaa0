import Emk.SchedTable
import Emk.Transition

/-!
# The process tables of all CPUs

Processes are spawned, marked as terminated and scheduled on any number of
CPUs. In every state that such a run reaches, the entries in use are the first
ones of each table, and no control block stands in two places.
-/

set_option autoImplicit false

namespace Emk.SchedIntegrity
open Emk.PageAllocator Emk.Vmm Emk.Calls Emk.Transition Emk.Sched Emk.ReferenceAllocator

variable {σ : Type}

inductive Op where
  | init (cpu : ℕ)
  | spawn (cpu : ℕ) (user : Bool) (entry pagemap vctx : ℕ)
  | tick (cpu : ℕ) (ctx : Option RegisterCtx)
  | mark (proc : ℕ)

/-- The state after a call that returns. -/
def returned {α : Type} (r : Option α × Kernel σ) : Option (Kernel σ) := r.1.map fun _ => r.2

def terminated (proc : ℕ) (k : Kernel σ) : Kernel σ :=
  { k with pcbs := Function.update k.pcbs proc { k.pcbs proc with state := .terminated } }

def step (A : Ops σ) (hhdmOffset kernelPagemap kvmCtx : ℕ) (k : Kernel σ) : Op → Option (Kernel σ)
  | .init cpu => returned (schedInit cpu k)
  | .spawn cpu user entry pagemap vctx =>
      returned (schedSpawn A hhdmOffset kernelPagemap kvmCtx cpu user entry pagemap vctx k)
  | .tick cpu ctx => returned (schedTick A hhdmOffset kernelPagemap cpu ctx k)
  | .mark proc => some (terminated proc k)

/-- A tick deletes terminated processes from its own table and nothing else. -/
structure KeepsAlive (cpu : ℕ) (k k' : Kernel σ) : Prop where
  deletes : (entries (k'.scheds cpu)).Sublist (entries (k.scheds cpu))
  alive : (entries (k'.scheds cpu)).filter (fun p => ¬ Gone k p) =
    (entries (k.scheds cpu)).filter (fun p => ¬ Gone k p)
  others : ∀ c, c ≠ cpu → k'.scheds c = k.scheds c

/-- The control blocks of the tables are live blocks of the heap, each in one table. -/
structure Inv (lo hi : ℕ) (k : Kernel σ) (live : List ℕ) (bs : List HeapBlocks.Blk) : Prop where
  heap : HeapRuns.Inv lo hi ⟨k.heap, live⟩ bs
  table : ∀ cpu, Table (k.scheds cpu)
  onHeap : ∀ cpu, ∀ p ∈ entries (k.scheds cpu), p ∈ live
  apart : ∀ c d, c ≠ d → ∀ p ∈ entries (k.scheds c), p ∉ entries (k.scheds d)

variable {A : Ops σ} {hhdmOffset kernelPagemap kvmCtx lo hi : ℕ} {k k' : Kernel σ} {live : List ℕ}
  {bs : List HeapBlocks.Blk}

theorem terminated_self (proc : ℕ) :
    (terminated proc k).pcbs proc = { k.pcbs proc with state := .terminated } :=
  Function.update_self _ _ _

theorem terminated_other {proc p : ℕ} (hp : p ≠ proc) :
    (terminated proc k).pcbs p = k.pcbs p := Function.update_of_ne hp _ _

theorem returned_eq {α : Type} {r : Option α × Kernel σ} (h : returned r = some k') :
    ∃ a, r = (some a, k') := by
  obtain ⟨a, ha, rfl⟩ := Option.map_eq_some_iff.mp h
  exact ⟨a, Prod.ext ha rfl⟩

/-- Only the table of `cpu` changes, and it only loses entries. -/
theorem Inv.shrink (hinv : Inv lo hi k live bs) {live' : List ℕ} {bs' : List HeapBlocks.Blk}
    (cpu : ℕ)
    (hheap : HeapRuns.Inv lo hi ⟨k'.heap, live'⟩ bs') (ht : Table (k'.scheds cpu))
    (hsub : ∀ p ∈ entries (k'.scheds cpu), p ∈ entries (k.scheds cpu) ∧ p ∈ live')
    (hothers : ∀ c, c ≠ cpu → k'.scheds c = k.scheds c)
    (hlive : ∀ c, c ≠ cpu → ∀ p ∈ entries (k.scheds c), p ∈ live') : Inv lo hi k' live' bs' := by
  have hmem : ∀ c, ∀ p ∈ entries (k'.scheds c), p ∈ entries (k.scheds c) := by
    intro c p hp
    by_cases hc : c = cpu
    · exact hc ▸ (hsub p (hc ▸ hp)).1
    · rwa [hothers c hc] at hp
  refine ⟨hheap, fun c => ?_, fun c p hp => ?_, fun c d hcd p hp hin => ?_⟩
  · by_cases hc : c = cpu
    · exact hc ▸ ht
    · rw [hothers c hc]
      exact hinv.table c
  · by_cases hc : c = cpu
    · exact (hsub p (hc ▸ hp)).2
    · exact hlive c hc p (hmem c p hp)
  · exact hinv.apart c d hcd p (hmem c p hp) (hmem d p hin)

/-- Only the table of `cpu` changes, and a new process goes behind its entries. -/
theorem Inv.grow (hinv : Inv lo hi k live bs) {live' : List ℕ} {bs' : List HeapBlocks.Blk}
    (cpu : ℕ) {proc : ℕ} (hheap : HeapRuns.Inv lo hi ⟨k'.heap, live'⟩ bs')
    (ht : Table (k'.scheds cpu)) (he : entries (k'.scheds cpu) = entries (k.scheds cpu) ++ [proc])
    (hothers : ∀ c, c ≠ cpu → k'.scheds c = k.scheds c) (hlive : ∀ p ∈ live, p ∈ live')
    (hproc : proc ∈ live') (hnew : ∀ c, proc ∉ entries (k.scheds c)) : Inv lo hi k' live' bs' := by
  have hmem : ∀ c, ∀ p ∈ entries (k'.scheds c), p ∈ entries (k.scheds c) ∨
    (p = proc ∧ c = cpu) := by
    intro c p hp
    by_cases hc : c = cpu
    · subst hc
      rw [he, List.mem_append, List.mem_singleton] at hp
      exact hp.imp_right (fun h => ⟨h, rfl⟩)
    · rw [hothers c hc] at hp
      exact .inl hp
  refine ⟨hheap, fun c => ?_, fun c p hp => ?_, fun c d hcd p hp hin => ?_⟩
  · by_cases hc : c = cpu
    · exact hc ▸ ht
    · rw [hothers c hc]
      exact hinv.table c
  · rcases hmem c p hp with hp | ⟨rfl, -⟩
    · exact hlive p (hinv.onHeap c p hp)
    · exact hproc
  · rcases hmem c p hp with hp | ⟨rfl, rfl⟩ <;> rcases hmem d _ hin with hin | ⟨h1, h2⟩
    · exact hinv.apart c d hcd p hp hin
    · exact hnew c (h1 ▸ hp)
    · exact hnew d hin
    · exact hcd h2.symm

section Steps

theorem Inv.init (hinv : Inv lo hi k live bs) {cpu : ℕ} {u : Unit}
    (hr : schedInit cpu k = (some u, k')) :
    ∃ live' bs', Inv lo hi k' live' bs' ∧ ∀ p ∈ live, p ∈ live' := by
  obtain ⟨table, heap, hmalloc, h0, rfl⟩ := schedInit_returned hr
  obtain ⟨-, -, -, bs', _, hheap, -⟩ := hinv.heap.kmalloc_fresh hmalloc h0
  have hs : Function.update k.scheds cpu ⟨table, fun _ => 0, 0, 0⟩ cpu =
    ⟨table, fun _ => 0, 0, 0⟩ :=
    Function.update_self _ _ _
  refine ⟨_, bs', hinv.shrink cpu hheap ?_ ?_ (fun c hc => Function.update_of_ne hc _ _)
    (fun c _ p hp => List.mem_cons_of_mem _ (hinv.onHeap c p hp)),
    fun p hp => List.mem_cons_of_mem _ hp⟩
  · dsimp only
    rw [hs]
    exact table_empty table
  · dsimp only
    rw [hs]
    simp [entries]

theorem Inv.spawn (hinv : Inv lo hi k live bs) {cpu : ℕ} {user : Bool} {entry pagemap vctx pid : ℕ}
    (hr : schedSpawn A hhdmOffset kernelPagemap kvmCtx cpu user entry pagemap vctx k =
      (some pid, k')) : ∃ live' bs', Inv lo hi k' live' bs' := by
  obtain ⟨proc, ctx, stack, v₁, v₂, hspawn⟩ := schedSpawn_returned hr
  obtain ⟨hfresh, -, -, bs', _, hheap, -⟩ := hinv.heap.kmalloc_fresh hspawn.pcb hspawn.pcb_ne
  have hnew : ∀ c, proc ∉ entries (k.scheds c) := fun c hin => hfresh (hinv.onHeap c proc hin)
  obtain ⟨ht, he⟩ := hspawn.table (hinv.table cpu) (hnew cpu)
  have hothers : ∀ c, c ≠ cpu → k'.scheds c = k.scheds c := by
    intro c hc
    rw [hspawn.scheds, Function.update_of_ne hc]
  exact ⟨_, bs', hinv.grow cpu hheap ht he hothers (fun p hp => List.mem_cons_of_mem _ hp)
    List.mem_cons_self hnew⟩

theorem ticked_keepsAlive {cpu next : ℕ} {frame out : RegisterCtx} {gone : List ℕ}
    (h : Ticked cpu frame out k k' next gone) : KeepsAlive cpu k k' := by
  refine ⟨?_, ?_, h.others⟩
  · rw [h.kept]
    exact List.filter_sublist
  · rw [h.kept, List.filter_filter]
    refine List.filter_congr fun p _ => ?_
    by_cases hp : p ∈ gone
    · simp [(h.dead p hp).2]
    · simp [hp]

theorem tick_cases (ht : ∀ cpu, Table (k.scheds cpu)) {cpu : ℕ} {ctx : Option RegisterCtx}
    {r : Option RegisterCtx}
    (hr : schedTick A hhdmOffset kernelPagemap cpu ctx k = (some r, k')) :
    (k'.scheds = k.scheds ∧ k'.heap = k.heap ∧ k'.pcbs = k.pcbs) ∨
      ∃ frame out next gone, ctx = some frame ∧ r = some out ∧ (k.scheds cpu).count ≠ 0 ∧
        Ticked cpu frame out k k' next gone := by
  cases ctx with
  | none =>
    obtain ⟨-, rfl⟩ := Prod.mk.inj hr
    exact .inl ⟨rfl, rfl, rfl⟩
  | some frame =>
    by_cases hcount : (k.scheds cpu).count = 0
    · rw [schedTick_idle hcount, pmset] at hr
      split_ifs at hr
      · exact (never_returned hr).elim
      · obtain ⟨-, rfl⟩ := Prod.mk.inj hr
        exact .inl ⟨rfl, rfl, rfl⟩
    · obtain ⟨out, next, gone, hout, h⟩ := schedTick_returned (ht cpu) hcount hr
      exact .inr ⟨frame, out, next, gone, rfl, hout, hcount, h⟩

theorem Inv.tick (hinv : Inv lo hi k live bs) {cpu : ℕ} {ctx r : Option RegisterCtx}
    (hr : schedTick A hhdmOffset kernelPagemap cpu ctx k = (some r, k')) :
    (∃ live' bs', Inv lo hi k' live' bs' ∧
      ∀ p ∈ live, p ∉ entries (k.scheds cpu) → p ∈ live') ∧ KeepsAlive cpu k k' := by
  rcases tick_cases hinv.table hr with ⟨hs, hh, -⟩ | ⟨frame, out, next, gone, -, -, -, h⟩
  · refine ⟨⟨live, bs, ⟨hh ▸ hinv.heap, ?_, ?_, ?_⟩, fun p hp _ => hp⟩, ?_, ?_, ?_⟩ <;> rw [hs]
    · exact hinv.table
    · exact hinv.onHeap
    · exact hinv.apart
    · exact fun _ _ => rfl
  · refine ⟨?_, ticked_keepsAlive h⟩
    obtain ⟨live', bs', hheap, hlive⟩ := hinv.heap.kfrees h.once
      (fun p hp => hinv.onHeap cpu p (h.dead p hp).1) h.freed
    refine ⟨live', bs', hinv.shrink cpu hheap h.table ?_ h.others ?_,
      fun p hp hout => hlive p hp (fun hin => hout (h.dead p hin).1)⟩
    · intro p hp
      rw [h.kept] at hp
      obtain ⟨hp, hout⟩ := List.mem_filter.mp hp
      exact ⟨hp, hlive p (hinv.onHeap cpu p hp) (by simpa using hout)⟩
    · intro c hc p hp
      refine hlive p (hinv.onHeap c p hp) (fun hin => ?_)
      exact hinv.apart c cpu hc p hp (h.dead p hin).1

theorem step_inv (hinv : Inv lo hi k live bs) {o : Op}
    (hr : step A hhdmOffset kernelPagemap kvmCtx k o = some k') :
    ∃ live' bs', Inv lo hi k' live' bs' := by
  cases o with
  | init cpu =>
    obtain ⟨u, h⟩ := returned_eq hr
    obtain ⟨live', bs', hinv', -⟩ := hinv.init h
    exact ⟨live', bs', hinv'⟩
  | spawn cpu user entry pagemap vctx =>
    obtain ⟨pid, h⟩ := returned_eq hr
    exact hinv.spawn h
  | tick cpu ctx =>
    obtain ⟨r, h⟩ := returned_eq hr
    obtain ⟨⟨live', bs', hinv', -⟩, -⟩ := hinv.tick h
    exact ⟨live', bs', hinv'⟩
  | mark proc =>
    obtain rfl : terminated proc k = k' := Option.some.inj hr
    exact ⟨live, bs, hinv.heap, hinv.table, hinv.onHeap, hinv.apart⟩

end Steps

theorem boot_inv {boot : Kernel σ} (hheap : HeapRuns.Inv lo hi ⟨boot.heap, live⟩ bs)
    (hboot : ∀ cpu, boot.scheds cpu = ⟨0, fun _ => 0, 0, 0⟩) : Inv lo hi boot live bs := by
  refine ⟨hheap, ?_, ?_, ?_⟩
  · intro cpu
    rw [hboot]
    exact table_empty 0
  · intro cpu
    rw [hboot]
    simp [entries]
  · intro c d _
    rw [hboot c]
    simp [entries]

/-- After boot and any run over any number of CPUs, the entries in use are the
first `count` ones of each table and all different, and a tick deletes nothing
but terminated processes. -/
theorem process_tables_intact (boot k : Kernel σ) (live : List ℕ) (bs : List HeapBlocks.Blk)
    (ops : List Op) (hheap : HeapRuns.Inv lo hi ⟨boot.heap, live⟩ bs)
    (hboot : ∀ cpu, boot.scheds cpu = ⟨0, fun _ => 0, 0, 0⟩)
    (hrun : run (lift (step A hhdmOffset kernelPagemap kvmCtx)) (some boot) ops = some k) :
    (∀ cpu, Table (k.scheds cpu)) ∧
      ∀ cpu ctx k', step A hhdmOffset kernelPagemap kvmCtx k (.tick cpu ctx) = some k' →
        KeepsAlive cpu k k' := by
  obtain ⟨live', bs', hinv⟩ := run_lift_closed
    (I := fun k => ∃ live bs, Inv lo hi k live bs) (fun k o k' ⟨_, _, hi⟩ hr => step_inv hi hr)
    ⟨live, bs, boot_inv hheap hboot⟩ hrun
  refine ⟨hinv.table, fun cpu ctx k' hr => ?_⟩
  obtain ⟨r, h⟩ := returned_eq hr
  exact (hinv.tick h).2

/-- A kernel process in the kernel's context. -/
def spawnTest (cpu : ℕ) : Op := .spawn cpu false 0x5000 smallLayout.hhdmOffset bootContext.1

def smallRun (pages : ℕ) (ops : List Op) : Option (Kernel (List ℕ)) :=
  run (lift (step smallOps smallLayout.hhdmOffset smallLayout.hhdmOffset bootContext.1))
    (some (bootKernel pages)) ops

theorem process_tables_intact_small :
    ∃ k, smallRun 4 [.init 0, .init 1, spawnTest 0, spawnTest 1, spawnTest 0, .tick 0 (some {}),
        .mark 12336, .tick 0 (some { rax := 7 })] = some k ∧
      (∀ cpu, Table (k.scheds cpu)) ∧
      ∀ cpu ctx k', step smallOps smallLayout.hhdmOffset smallLayout.hhdmOffset bootContext.1 k
        (.tick cpu ctx) = some k' → KeepsAlive cpu k k' := by
  obtain ⟨bs, hheap⟩ := bootKernel_heap 4 (by decide) (by decide +kernel)
    (by decide +kernel)
  obtain ⟨k, hk⟩ := Option.isSome_iff_exists.mp (by decide +kernel : (smallRun 4 [.init 0, .init 1,
    spawnTest 0, spawnTest 1, spawnTest 0, .tick 0 (some {}), .mark 12336,
    .tick 0 (some { rax := 7 })]).isSome = true)
  exact ⟨k, hk, process_tables_intact (bootKernel 4) k [] bs _ hheap (fun _ => rfl) hk⟩

end Emk.SchedIntegrity
