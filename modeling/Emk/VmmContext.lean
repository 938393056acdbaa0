import Emk.PagingRange
import Emk.VmmList

/-!
# A context over owned pages

The nodes of a region list are pages that the allocator has handed out, and
the context maps into one of the page maps of the forest. New nodes are then
never nodes already, so insertion always extends the list.
-/

set_option autoImplicit false

namespace Emk.Vmm
open Emk.ByteMemory Emk.MachineWord Emk.DirectMap Emk.PageAllocator Emk.Paging Emk.PagingForest

variable {σ : Type} {D : Layout} {A : Ops σ} {C : Contract D A} {roots : Set ℕ}
  {shared : Set (Fin 512)} {ctx pm : ℕ} {s : State σ} {nodes : List ℕ}

structure CtxOwned (C : Contract D A) (roots : Set ℕ) (shared : Set (Fin 512)) (ctx pm : ℕ)
    (s : State σ) (nodes : List ℕ) : Prop where
  forest : Forest C roots shared s.phys
  listed : Listed s ctx nodes
  owned : ∀ x ∈ nodes, ∃ f ∈ C.owned s.phys, x = D.hhdmOffset+f
  pagemap : (s.ctxs ctx).pagemap = pm

theorem CtxOwned.phys (hc : CtxOwned C roots shared ctx pm s nodes) {p : Phys σ}
    (hf : Forest C roots shared p) (ho : C.owned s.phys ⊆ C.owned p) :
    CtxOwned C roots shared ctx pm { s with phys := p } nodes where
  forest := hf
  listed := hc.listed.phys p
  owned := fun x hx => by
    obtain ⟨f, hf, he⟩ := hc.owned x hx
    exact ⟨f, ho hf, he⟩
  pagemap := hc.pagemap

/-- A context that a change of the state passes by. -/
theorem CtxOwned.unchanged {roots' : Set ℕ} {shared' : Set (Fin 512)} {s' : State σ}
    (hc : CtxOwned C roots shared ctx pm s nodes) (hf : Forest C roots' shared' s'.phys)
    (ho : C.owned s.phys ⊆ C.owned s'.phys) (hctx : s'.ctxs ctx = s.ctxs ctx)
    (hreg : ∀ x ∈ nodes, s'.regions x = s.regions x) :
    CtxOwned C roots' shared' ctx pm s' nodes where
  forest := hf
  listed := hc.listed.congr (by rw [hctx]) (fun x hx => by rw [hreg x hx])
  owned := fun x hx => by
    obtain ⟨f, hf, he⟩ := hc.owned x hx
    exact ⟨f, ho hf, he⟩
  pagemap := by rw [hctx, hc.pagemap]

theorem palloc_pointer_lt {p : Phys σ} (hv : C.Valid p) : (A.palloc 1 true p).1 < 2^64 := by
  by_cases h0 : (A.palloc 1 true p).1 = 0
  · rw [h0]
    exact Nat.two_pow_pos 64
  · obtain ⟨f, hf, -, hft, -⟩ := C.palloc_grant hv true h0
    have := D.pointer_fits
    rw [hf, if_pos rfl]
    omega

theorem CtxOwned.fresh (hc : CtxOwned C roots shared ctx pm s nodes) :
    (A.palloc 1 true s.phys).1 ∉ nodes := by
  intro hin
  have h0 := hc.listed.nonzero hin
  obtain ⟨f, hf, -, -, hfo, -⟩ := C.palloc_grant hc.forest.valid true h0
  obtain ⟨g, hg, he⟩ := hc.owned _ hin
  rw [hf, if_pos rfl] at he
  obtain rfl : f = g := by omega
  exact hfo hg

theorem CtxOwned.granted (hc : CtxOwned C roots shared ctx pm s nodes)
    (h0 : (A.palloc 1 true s.phys).1 ≠ 0) :
    ∃ f ∈ C.owned (A.palloc 1 true s.phys).2, (A.palloc 1 true s.phys).1 = D.hhdmOffset+f := by
  obtain ⟨f, hf, -, -, -, ho⟩ := C.palloc_grant hc.forest.valid true h0
  exact ⟨f, by simp [ho], hf⟩

/-- A region pushed by `vadd`, before and while its pages are mapped. -/
theorem CtxOwned.push (hc : CtxOwned C roots shared ctx pm s nodes)
    (h0 : (A.palloc 1 true s.phys).1 ≠ 0) (hne : nodes ≠ []) (vaddr pages flags : ℕ) {p : Phys σ}
    (hf : Forest C roots shared p) (ho : C.owned (A.palloc 1 true s.phys).2 ⊆ C.owned p) :
    CtxOwned C roots shared ctx pm
        { pushRegion ctx vaddr pages flags (A.palloc 1 true s.phys).1 s with phys := p }
        ((A.palloc 1 true s.phys).1::nodes) ∧
      SameRange s (pushRegion ctx vaddr pages flags (A.palloc 1 true s.phys).1 s) nodes := by
  obtain ⟨hl, hsame⟩ := hc.listed.pushRegion pages flags vaddr h0
    hc.fresh (palloc_pointer_lt hc.forest.valid) (hc.listed.root_ne hne)
  refine ⟨⟨hf, hl.phys p, ?_, ?_⟩, hsame⟩
  · intro x hx
    rcases List.mem_cons.mp hx with rfl | hx
    · obtain ⟨f, hfo, he⟩ := hc.granted h0
      exact ⟨f, ho hfo, he⟩
    · obtain ⟨f, hfo, he⟩ := hc.owned x hx
      exact ⟨f, ho (C.palloc_owned hc.forest.valid true hfo), he⟩
  · dsimp only
    rw [pushRegion_ctx]
    exact hc.pagemap

/-- A region placed by `valloc`, before and while its pages are filled. -/
theorem CtxOwned.place {pre post : List ℕ} {x : ℕ}
    (hc : CtxOwned C roots shared ctx pm s (pre ++ x::post)) (h0 : (A.palloc 1 true s.phys).1 ≠ 0)
    (n flags : ℕ) {p : Phys σ} (hf : Forest C roots shared p)
    (ho : C.owned (A.palloc 1 true s.phys).2 ⊆ C.owned p) :
    CtxOwned C roots shared ctx pm
      { insertAfter x (s.regions x).next n flags (A.palloc 1 true s.phys).1 s with phys := p }
      (pre ++ x::(A.palloc 1 true s.phys).1::post) := by
  obtain ⟨hl, -⟩ := hc.listed.insertAfter n flags h0 hc.fresh
    (palloc_pointer_lt hc.forest.valid)
  refine ⟨hf, hl.phys _, ?_, hc.pagemap⟩
  intro y hy
  by_cases hnew : y = (A.palloc 1 true s.phys).1
  · obtain ⟨f, hfo, he⟩ := hc.granted h0
    exact ⟨f, ho hfo, hnew.trans he⟩
  · obtain ⟨f, hfo, he⟩ := hc.owned y (by
      simp only [List.mem_append, List.mem_cons] at hy ⊢
      tauto)
    exact ⟨f, ho ((palloc_quiet hc.forest true).owned hfo), he⟩

/-- What a successful `valloc` did: a node behind the first one with a hole
behind it, and frames for all its pages. -/
theorem CtxOwned.valloc_placed (hc : CtxOwned C roots shared ctx pm s nodes) (hctx : ctx ≠ 0)
    {n flags start : ℕ} {s' : State σ}
    (h : valloc A D.hhdmOffset ctx n flags s = some (start, s')) (hs : start ≠ 0) :
    ∃ pre x post, nodes = pre ++ x::post ∧
      findRegion s.regions holeBehind rounds (s.ctxs ctx).root = some x ∧
      start = regionEnd (s.regions x) ∧ (A.palloc 1 true s.phys).1 ≠ 0 ∧
      (fillRegion A D.hhdmOffset (backing A) pm start (vflagsToPflags flags) n 0
        (A.palloc 1 true s.phys).2).1 = true ∧
      s' = { insertAfter x (s.regions x).next n flags (A.palloc 1 true s.phys).1 s with
        phys := (fillRegion A D.hhdmOffset (backing A) pm start (vflagsToPflags flags) n 0
          (A.palloc 1 true s.phys).2).2 } := by
  by_cases hnil : nodes = []
  · rw [valloc, placeRegion, if_pos (.inr (.inl (hc.listed.root_nil hnil)))] at h
    exact absurd (Prod.mk.inj (Option.some.inj h)).1.symm hs
  by_cases hpm : (s.ctxs ctx).pagemap = 0
  · rw [valloc, placeRegion, if_pos (.inr (.inr hpm))] at h
    exact absurd (Prod.mk.inj (Option.some.inj h)).1.symm hs
  obtain ⟨pre, x, post, hnodes, hfind⟩ := hc.listed.findRegion holeBehind hnil
  have hx : x ∈ nodes := by simp [hnodes]
  have hne : (A.palloc 1 true s.phys).1 ≠ x := fun he => hc.fresh (he ▸ hx)
  rw [valloc, placeRegion_eq A D.hhdmOffset hc.listed _ _ hx hfind hctx hpm hne] at h
  dsimp only at h
  by_cases h0 : (A.palloc 1 true s.phys).1 = 0
  · rw [if_pos h0] at h
    exact absurd (Prod.mk.inj (Option.some.inj h)).1.symm hs
  rw [if_neg h0, hc.pagemap] at h
  obtain ⟨h1, h2⟩ := Prod.mk.inj (Option.some.inj h)
  by_cases hok : (fillRegion A D.hhdmOffset (backing A) pm (regionEnd (s.regions x))
      (vflagsToPflags flags) n 0 (A.palloc 1 true s.phys).2).1 = true
  · rw [if_pos hok] at h1
    rw [h1] at hok h2
    exact ⟨pre, x, post, hnodes, hfind, h1.symm, h0, hok, h2.symm⟩
  · rw [if_neg hok] at h1
    exact absurd h1.symm hs

/-- A region placed by `valloc`. -/
theorem CtxOwned.valloc (hc : CtxOwned C roots shared ctx pm s nodes) (hpm : pm ∈ roots)
    (hctx : ctx ≠ 0) {n flags start : ℕ} {s' : State σ}
    (h : valloc A D.hhdmOffset ctx n flags s = some (start, s')) (hs : start ≠ 0) :
    ∃ nodes', CtxOwned C roots shared ctx pm s' nodes' ∧
      RangeWrite C roots shared pm (pagesOf start 0 n) s.phys s'.phys := by
  obtain ⟨pre, x, post, rfl, -, -, h0, -, rfl⟩ := hc.valloc_placed hctx h hs
  have hflags : vflagsToPflags flags < 2^64 := by
    rw [vflagsToPflags]
    split_ifs <;> decide
  have hq := palloc_quiet hc.forest true
  have hfill := fillRegion_range (A := A) hq.forest hpm hflags start n 0
  exact ⟨_, hc.place h0 n flags hfill.forest hfill.owned, (hq.range _).trans hfill⟩

/-- A context fresh from `vinit`. -/
theorem vinit_ctxOwned (hf : Forest C roots shared s.phys) (pm start : ℕ)
    (hc : (vinit A pm start s).1 ≠ 0) :
    ∃ root, CtxOwned C roots shared (vinit A pm start s).1 pm (vinit A pm start s).2 [root] ∧
      (vinit A pm start s).2.regions root = ⟨start, 0, 0, 0, 0⟩ ∧
      Quiet C roots shared s.phys (vinit A pm start s).2.phys := by
  have hq1 := palloc_quiet hf true
  have hq2 := palloc_quiet hq1.forest true
  obtain ⟨-, h2, heq⟩ := vinit_eq A pm start s hc
  rw [heq]
  refine ⟨(A.palloc 1 true (A.palloc 1 true s.phys).2).1, ⟨hq2.forest, ⟨?_, ?_, ?_⟩, ?_, ?_⟩, ?_,
    hq1.trans hq2⟩
  · simp [LinkedPath.Path, link, h2]
  · simpa using Ne.symm h2
  · intro x hx
    rw [List.mem_singleton.mp hx]
    exact palloc_pointer_lt hq1.forest.valid
  · intro x hx
    obtain ⟨f, hfp, -, -, -, ho⟩ := C.palloc_grant hq1.forest.valid true h2
    rw [List.mem_singleton.mp hx]
    exact ⟨f, by simp [ho], hfp⟩
  · simp
  · simp

end Emk.Vmm
