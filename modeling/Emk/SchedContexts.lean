import Emk.SchedIntegrity

/-!
# The contexts of terminated processes

`sched_tick` destroys the context of every process that it removes. Nothing
counts who else refers to that context, so it must belong to the terminated
process alone. That is so as long as a process is terminated only while no
other control block and not `kvm_ctx` refers to its context.
-/

set_option autoImplicit false

namespace Emk.SchedContexts
open Emk.PageAllocator Emk.Vmm Emk.Calls Emk.Transition Emk.Sched Emk.ReferenceAllocator
open Emk.SchedIntegrity (Op step returned_eq tick_cases spawnTest smallRun)

variable {σ : Type}

/-- No other process in a table and not the kernel itself uses the context of `p`. -/
def Owns (kvmCtx : ℕ) (k : Kernel σ) (p : ℕ) : Prop :=
  (k.pcbs p).vctx ≠ kvmCtx ∧ ∀ c < maxCpus, ∀ q ∈ entries (k.scheds c), q ≠ p →
    (k.pcbs q).vctx ≠ (k.pcbs p).vctx

instance decidableOwns (kvmCtx : ℕ) (k : Kernel σ) (p : ℕ) : Decidable (Owns kvmCtx k p) :=
  inferInstanceAs (Decidable (_ ∧ ∀ c < maxCpus, ∀ q ∈ entries (k.scheds c), _ → _))

/-- A process of a table is terminated only while it owns its context, and no
process is spawned into the context of one that has terminated. -/
def Permitted (A : Ops σ) (kernelPagemap kvmCtx : ℕ) (k : Kernel σ) : Op → Prop
  | .init cpu => cpu < maxCpus
  | .spawn cpu _ _ pagemap vctx => cpu < maxCpus ∧
      ∀ c < maxCpus, ∀ p ∈ entries (k.scheds c), Gone k p →
        (procContext A (procPagemap kernelPagemap pagemap) vctx k.vmm).1 ≠ (k.pcbs p).vctx
  | .tick cpu _ => cpu < maxCpus
  | .mark proc => (∃ c < maxCpus, proc ∈ entries (k.scheds c)) → Owns kvmCtx k proc

instance decidablePermitted (A : Ops σ) (kernelPagemap kvmCtx : ℕ) (k : Kernel σ) :
    ∀ o, Decidable (Permitted A kernelPagemap kvmCtx k o)
  | .init cpu => inferInstanceAs (Decidable (cpu < maxCpus))
  | .spawn _ _ _ _ _ => inferInstanceAs (Decidable (_ ∧
      ∀ c < maxCpus, ∀ p ∈ entries (k.scheds c), Gone k p → _))
  | .tick cpu _ => inferInstanceAs (Decidable (cpu < maxCpus))
  | .mark proc => inferInstanceAs (Decidable ((∃ c < maxCpus, proc ∈ entries (k.scheds c)) → _))

/-- No context destroyed by a tick of `cpu` is still in use. -/
def NoDangling (kvmCtx cpu : ℕ) (k k' : Kernel σ) : Prop :=
  ∀ p ∈ entries (k.scheds cpu), p ∉ entries (k'.scheds cpu) → (k.pcbs p).vctx ≠ kvmCtx ∧
    ∀ c < maxCpus, ∀ q ∈ entries (k'.scheds c), (k'.pcbs q).vctx ≠ (k.pcbs p).vctx

instance decidableNoDangling (kvmCtx cpu : ℕ) (k k' : Kernel σ) :
    Decidable (NoDangling kvmCtx cpu k k') :=
  inferInstanceAs (Decidable (∀ p ∈ entries (k.scheds cpu), p ∉ entries (k'.scheds cpu) → _ ∧
    ∀ c < maxCpus, ∀ q ∈ entries (k'.scheds c), _))

structure Inv (lo hi kvmCtx : ℕ) (k : Kernel σ) : Prop where
  tables : ∃ live bs, SchedIntegrity.Inv lo hi k live bs
  owns : ∀ c < maxCpus, ∀ p ∈ entries (k.scheds c), Gone k p → Owns kvmCtx k p

variable {A : Ops σ} {hhdmOffset kernelPagemap kvmCtx lo hi : ℕ} {k k' : Kernel σ}

/-- Tables that only lose entries and control blocks that keep their context. -/
theorem owns_shrink (howns : ∀ c < maxCpus, ∀ p ∈ entries (k.scheds c), Gone k p → Owns kvmCtx k p)
    (hsub : ∀ c, ∀ p ∈ entries (k'.scheds c), p ∈ entries (k.scheds c))
    (hfate : ∀ p, SameFate (k.pcbs p) (k'.pcbs p)) :
    ∀ c < maxCpus, ∀ p ∈ entries (k'.scheds c), Gone k' p → Owns kvmCtx k' p := by
  intro c hc p hp hgone
  obtain ⟨hkvm, hother⟩ := howns c hc p (hsub c p hp) ((hfate p).gone.mp hgone)
  refine ⟨by rwa [(hfate p).vctx], fun d hd q hq hne => ?_⟩
  rw [(hfate p).vctx, (hfate q).vctx]
  exact hother d hd q (hsub d q hq) hne

theorem tick_shrinks (ht : ∀ cpu, Table (k.scheds cpu)) {cpu : ℕ} {ctx r : Option RegisterCtx}
    (hr : schedTick A hhdmOffset kernelPagemap cpu ctx k = (some r, k')) :
    (∀ c, ∀ p ∈ entries (k'.scheds c), p ∈ entries (k.scheds c)) ∧
      (∀ p, SameFate (k.pcbs p) (k'.pcbs p)) ∧ (∀ c, c ≠ cpu → k'.scheds c = k.scheds c) ∧
      ∀ p ∈ entries (k.scheds cpu), p ∉ entries (k'.scheds cpu) → Gone k p := by
  rcases tick_cases ht hr with ⟨hs, -, hp⟩ | ⟨frame, out, next, gone, -, -, -, h⟩
  · rw [hs, hp]
    exact ⟨fun _ _ h => h, fun p => SameFate.rfl _, fun _ _ => rfl, fun p hp hout => absurd hp hout⟩
  · refine ⟨fun c p hp => ?_, h.fate, h.others, fun p hp hout => ?_⟩
    · by_cases hc : c = cpu
      · subst hc
        exact h.mem hp
      · rwa [h.others c hc] at hp
    · by_contra hno
      refine hout ?_
      rw [h.kept]
      refine List.mem_filter.mpr ⟨hp, ?_⟩
      simpa using fun hin => hno (h.dead p hin).2

section Steps

theorem Inv.spawn (hi' : Inv lo hi kvmCtx k) {cpu : ℕ} {user : Bool} {entry pagemap vctx pid : ℕ}
    (hperm : Permitted A kernelPagemap kvmCtx k (.spawn cpu user entry pagemap vctx))
    (hr : schedSpawn A hhdmOffset kernelPagemap kvmCtx cpu user entry pagemap vctx k =
      (some pid, k')) : Inv lo hi kvmCtx k' := by
  obtain ⟨live, bs, htab⟩ := hi'.tables
  refine ⟨htab.spawn hr, ?_⟩
  obtain ⟨proc, ctx, stack, v₁, v₂, hspawn⟩ := schedSpawn_returned hr
  obtain ⟨hfresh, -⟩ := htab.heap.kmalloc_fresh hspawn.pcb hspawn.pcb_ne
  have hnew : ∀ c, proc ∉ entries (k.scheds c) := fun c hin => hfresh (htab.onHeap c proc hin)
  have hctx := hperm.2
  rw [hspawn.context] at hctx
  have hself : (k'.pcbs proc).vctx = ctx ∧ ¬ Gone k' proc := by
    rw [Gone, hspawn.pcbs, Function.update_self]
    exact ⟨rfl, by simp [withStack, newPcb]⟩
  have hkeep : ∀ p, p ≠ proc → k'.pcbs p = k.pcbs p := by
    intro p hp
    rw [hspawn.pcbs, Function.update_of_ne hp]
  have hmem : ∀ c, ∀ p ∈ entries (k'.scheds c), p = proc ∨ p ∈ entries (k.scheds c) := by
    intro c p hp
    by_cases hc : c = cpu
    · subst hc
      rw [(hspawn.table (htab.table c) (hnew c)).2, List.mem_append, List.mem_singleton] at hp
      exact hp.symm
    · rw [hspawn.scheds, Function.update_of_ne hc] at hp
      exact .inr hp
  intro c hc p hp hgone
  have hne : p ≠ proc := fun he => hself.2 (he ▸ hgone)
  have hp' := (hmem c p hp).resolve_left hne
  rw [Gone, hkeep p hne] at hgone
  obtain ⟨hkvm, hother⟩ := hi'.owns c hc p hp' hgone
  rw [Owns, hkeep p hne]
  refine ⟨hkvm, fun d hd q hq hqp => ?_⟩
  rcases hmem d q hq with rfl | hq'
  · rw [hself.1]
    exact hctx c hc p hp' hgone
  · rw [hkeep q (fun he => hnew d (he ▸ hq'))]
    exact hother d hd q hq' hqp

theorem Inv.mark (hi' : Inv lo hi kvmCtx k) {proc : ℕ}
    (hperm : Permitted A kernelPagemap kvmCtx k (.mark proc)) :
    Inv lo hi kvmCtx (SchedIntegrity.terminated proc k) := by
  obtain ⟨live, bs, htab⟩ := hi'.tables
  refine ⟨⟨live, bs, htab.heap, htab.table, htab.onHeap, htab.apart⟩, ?_⟩
  have hvctx : ∀ p, ((SchedIntegrity.terminated proc k).pcbs p).vctx = (k.pcbs p).vctx := by
    intro p
    by_cases hp : p = proc
    · rw [hp, SchedIntegrity.terminated_self]
    · rw [SchedIntegrity.terminated_other hp]
  intro c hc p hp hgone
  have howns : Owns kvmCtx k p := by
    by_cases hpp : p = proc
    · exact hpp ▸ hperm ⟨c, hc, hpp ▸ hp⟩
    · rw [Gone, SchedIntegrity.terminated_other hpp] at hgone
      exact hi'.owns c hc p hp hgone
  refine ⟨by rw [hvctx]; exact howns.1, fun d hd q hq hne => ?_⟩
  rw [hvctx, hvctx]
  exact howns.2 d hd q hq hne

theorem step_inv (hi' : Inv lo hi kvmCtx k) {o : Op} (hperm : Permitted A kernelPagemap kvmCtx k o)
    (hr : step A hhdmOffset kernelPagemap kvmCtx k o = some k') : Inv lo hi kvmCtx k' := by
  obtain ⟨live, bs, htab⟩ := hi'.tables
  have htab' := SchedIntegrity.step_inv htab hr
  cases o with
  | init cpu =>
    obtain ⟨u, h⟩ := returned_eq hr
    obtain ⟨table, heap, -, -, rfl⟩ := schedInit_returned h
    refine ⟨htab', owns_shrink hi'.owns (fun c p hp => ?_) (fun p => SameFate.rfl _)⟩
    by_cases hc : c = cpu
    · subst hc
      dsimp only at hp
      rw [Function.update_self] at hp
      exact absurd hp (by simp [entries])
    · dsimp only at hp
      rwa [Function.update_of_ne hc] at hp
  | spawn cpu user entry pagemap vctx =>
    obtain ⟨pid, h⟩ := returned_eq hr
    exact hi'.spawn hperm h
  | tick cpu ctx =>
    obtain ⟨r, h⟩ := returned_eq hr
    obtain ⟨hsub, hfate, -⟩ := tick_shrinks htab.table h
    exact ⟨htab', owns_shrink hi'.owns hsub hfate⟩
  | mark proc =>
    obtain rfl : SchedIntegrity.terminated proc k = k' := Option.some.inj hr
    exact hi'.mark hperm

theorem Inv.tick_noDangling (hi' : Inv lo hi kvmCtx k) {cpu : ℕ} {ctx : Option RegisterCtx}
    (hcpu : cpu < maxCpus)
    (hr : step A hhdmOffset kernelPagemap kvmCtx k (.tick cpu ctx) = some k') :
    NoDangling kvmCtx cpu k k' := by
  obtain ⟨live, bs, htab⟩ := hi'.tables
  obtain ⟨r, h⟩ := returned_eq hr
  obtain ⟨hsub, hfate, hothers, hgone⟩ := tick_shrinks htab.table h
  intro p hp hout
  obtain ⟨hkvm, hother⟩ := hi'.owns cpu hcpu p hp (hgone p hp hout)
  refine ⟨hkvm, fun c hc q hq => ?_⟩
  have hne : q ≠ p := by
    rintro rfl
    by_cases he : c = cpu
    · exact hout (he ▸ hq)
    · exact htab.apart c cpu he q (hsub c q hq) hp
  rw [(hfate q).vctx]
  exact hother c hc q (hsub c q hq) hne

end Steps

/-- From boot on, along every run that terminates only processes which own
their context, no tick destroys a context that is still in use. -/
theorem reaped_contexts_unshared (boot k : Kernel σ) (live : List ℕ) (bs : List HeapBlocks.Blk)
    (ops : List Op) (hheap : HeapRuns.Inv lo hi ⟨boot.heap, live⟩ bs)
    (hboot : ∀ cpu, boot.scheds cpu = ⟨0, fun _ => 0, 0, 0⟩)
    (hops : Along (lift (step A hhdmOffset kernelPagemap kvmCtx))
      (Issued (Permitted A kernelPagemap kvmCtx)) (some boot) ops)
    (hrun : run (lift (step A hhdmOffset kernelPagemap kvmCtx)) (some boot) ops = some k) :
    ∀ cpu < maxCpus, ∀ ctx k', step A hhdmOffset kernelPagemap kvmCtx k (.tick cpu ctx) = some k' →
      NoDangling kvmCtx cpu k k' := by
  have hstart : Inv lo hi kvmCtx boot := by
    refine ⟨⟨live, bs, SchedIntegrity.boot_inv hheap hboot⟩, fun c _ => ?_⟩
    rw [hboot]
    simp [entries]
  have hinv := run_lift_safe (fun _ _ _ hi hp hr => step_inv hi hp hr) hstart hops hrun
  exact fun cpu hcpu ctx k' hr => hinv.tick_noDangling hcpu hr

/-- A kernel process with a context of its own. -/
def spawnOwn : Op := .spawn 0 false 0x5000 0 0

theorem reaped_contexts_unshared_small :
    ∃ k k', smallRun 2 [.init 0, spawnOwn, spawnOwn, .tick 0 (some {}), .mark 8224] = some k ∧
      step smallOps smallLayout.hhdmOffset smallLayout.hhdmOffset bootContext.1 k
        (.tick 0 (some {})) = some k' ∧
      entries (k.scheds 0) = [8224, 8512] ∧ entries (k'.scheds 0) = [8512] ∧
      NoDangling bootContext.1 0 k k' := by
  obtain ⟨bs, hheap⟩ := bootKernel_heap 2 (by decide) (by decide +kernel)
    (by decide +kernel)
  have hall : (smallRun 2 [.init 0, spawnOwn, spawnOwn, .tick 0 (some {}), .mark 8224]).any
    (fun k =>
      (step smallOps smallLayout.hhdmOffset smallLayout.hhdmOffset bootContext.1 k
        (.tick 0 (some {}))).any (fun k' => decide (entries (k.scheds 0) = [8224, 8512] ∧
          entries (k'.scheds 0) = [8512]))) = true := by decide +kernel
  obtain ⟨k, hk, hall⟩ := (Option.any_eq_true _ _).mp hall
  obtain ⟨k', hk', hall⟩ := (Option.any_eq_true _ _).mp hall
  obtain ⟨he, he'⟩ := of_decide_eq_true hall
  refine ⟨k, k', hk, hk', he, he', ?_⟩
  exact reaped_contexts_unshared (bootKernel 2) k [] bs _ hheap (fun _ => rfl)
    (by decide +kernel) hk 0
    (by decide) _ k' hk'

/-- Every CPU starts a process in `kvm_ctx`. When one of them has terminated,
the tick gives the page of `kvm_ctx` back while the others still use it. -/
theorem tick_destroys_kvm_ctx :
    ∃ k k', smallRun 4 [.init 0, .init 1, spawnTest 0, spawnTest 1, spawnTest 0, .tick 0 (some {}),
        .mark 12336] = some k ∧
      step smallOps smallLayout.hhdmOffset smallLayout.hhdmOffset bootContext.1 k
        (.tick 0 (some {})) = some k' ∧
      ¬ NoDangling bootContext.1 0 k k' ∧ bootContext.1 = smallLayout.hhdmOffset+4096*1 ∧
      1 ∈ k.vmm.phys.pmm ∧ 1 ∉ k'.vmm.phys.pmm ∧ (k'.pcbs 12624).vctx = bootContext.1 ∧
      entries (k'.scheds 1) = [12624] := by
  have hall : (smallRun 4 [.init 0, .init 1, spawnTest 0, spawnTest 1, spawnTest 0,
      .tick 0 (some {}), .mark 12336]).any (fun k =>
      (step smallOps smallLayout.hhdmOffset smallLayout.hhdmOffset bootContext.1 k
        (.tick 0 (some {}))).any (fun k' => decide (¬ NoDangling bootContext.1 0 k k' ∧
          bootContext.1 = smallLayout.hhdmOffset+4096*1 ∧ 1 ∈ k.vmm.phys.pmm ∧
          1 ∉ k'.vmm.phys.pmm ∧ (k'.pcbs 12624).vctx = bootContext.1 ∧
          entries (k'.scheds 1) = [12624]))) = true := by decide +kernel
  obtain ⟨k, hk, hall⟩ := (Option.any_eq_true _ _).mp hall
  obtain ⟨k', hk', hall⟩ := (Option.any_eq_true _ _).mp hall
  exact ⟨k, k', hk, hk', of_decide_eq_true hall⟩

end Emk.SchedContexts
