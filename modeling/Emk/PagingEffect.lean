import Emk.PagingSteps

/-!
# Effect of the page-table operations on every translation

Seen from the leaf entries, `vmap` changes the entry of one page or fails
without a trace, and `vunmap` clears the entry of one page. Another page map
sees that change only through a table that both share.
-/

set_option autoImplicit false

namespace Emk.PagingForest
open Emk.ByteMemory Emk.MachineWord Emk.DirectMap Emk.PageAllocator Emk.Paging Emk.RadixForest

variable {σ : Type} {D : Layout} {A : Ops σ} {C : Contract D A} {roots : Set ℕ}
  {shared : Set (Fin 512)} {s : Phys σ}

theorem leafEntry_page {m : Mem} {r v w : ℕ} (h : pageNumber v = pageNumber w) :
    leafEntry D m r v = leafEntry D m r w := by
  obtain ⟨hpath, hix⟩ := (page_eq_iff v w).mp h
  have hi : pageIndex v pml1Shift = pageIndex w pml1Shift := congrArg Fin.val hix
  rw [leafEntry, leafEntry, hpath, hi]

/-- The leaf entry of the page of `virt` under `r` becomes `e`. Another page
map is affected at most at that page, and only under a shared slot. -/
structure LeafWrite (C : Contract D A) (roots : Set ℕ) (shared : Set (Fin 512)) (r virt e : ℕ)
    (s s' : Phys σ) : Prop
    extends Extends C roots shared s s' where
  here : leafEntry D s'.mem r virt = e
  elsewhere : ∀ r' ∈ roots, ∀ v, pageNumber v ≠ pageNumber virt →
    leafEntry D s'.mem r' v = leafEntry D s.mem r' v
  others : ∀ r' ∈ roots, r' ≠ r → leafEntry D s'.mem r' virt = leafEntry D s.mem r' virt ∨
    (Under shared (tablePath virt) ∧ leafEntry D s'.mem r' virt = e)

theorem LeafWrite.of_quiet {r virt e : ℕ} {s' s'' : Phys σ} (hq : Quiet C roots shared s s')
    (h : LeafWrite C roots shared r virt e s' s'') : LeafWrite C roots shared r virt e s s'' where
  toExtends := hq.toExtends.trans h.toExtends
  here := h.here
  elsewhere := fun r' hr' v hv => (h.elsewhere r' hr' v hv).trans (hq.leaf r' hr' v)
  others := fun r' hr' hne => by
    rw [← hq.leaf r' hr' virt]
    exact h.others r' hr' hne

theorem store_leafWrite (hf : Forest C roots shared s) {r : ℕ} (hr : r ∈ roots) {virt t e : ℕ}
    (ht : descend (child D s.mem) r (tablePath virt) = some t) (he : e < 2^64) :
    LeafWrite C roots shared r virt e s ⟨store64 s.mem (t+8*pageIndex virt pml1Shift) e,
      s.pmm⟩ := by
  obtain ⟨f, -, rfl, -, -⟩ := hf.node hr (le_refl _) ht
  obtain ⟨hext, hleaf⟩ := store_leaf hf hr (le_refl _) ht (ix virt pml1Shift) e rfl he
  refine ⟨hext, ?_, ?_, ?_⟩
  · exact (hleaf r hr virt).trans (if_pos ⟨ht, rfl, rfl⟩)
  · intro r' hr' v hv
    refine (hleaf r' hr' v).trans (if_neg ?_)
    rintro ⟨-, hpath, hix⟩
    exact hv ((page_eq_iff v virt).mpr ⟨hpath, hix⟩)
  · intro r' hr' hne
    by_cases hshare : descend (child D s.mem) r' (tablePath virt) = some (D.hhdmOffset+f)
    · right
      have hup := (hf.separate r' hr' r hr _ _ _ (le_refl _) (le_refl _) hshare ht).2
      exact ⟨hup.resolve_left hne, (hleaf r' hr' virt).trans (if_pos ⟨hshare, rfl, rfl⟩)⟩
    · left
      exact (hleaf r' hr' virt).trans (if_neg (fun h => hshare h.1))

theorem leafEntry_absent {m : Mem} {r v : ℕ} {i : Fin 512} {p q : List (Fin 512)}
    (h : descend (child D m) r (i::p) = none) (hp : tablePath v = q ++ i::p) :
    leafEntry D m r v = 0 := by
  have hnone : ∀ q : List (Fin 512), descend (child D m) r (q ++ i::p) = none := by
    intro q
    induction q with
    | nil => exact h
    | cons j q ih => rw [List.cons_append, descend, ih, Option.bind_none]
  rw [leafEntry, hp, hnone q]

/-- `vmap` either fails on an unmapped page without changing any leaf entry,
or writes one. -/
theorem vmap_effect (hf : Forest C roots shared s) {r : ℕ} (hr : r ∈ roots) (virt phys flags : ℕ)
    (he : phys ||| flags < 2^64) :
    ((vmap A D.hhdmOffset r virt phys flags s).1 = -1 ∧ leafEntry D s.mem r virt = 0 ∧
      Quiet C roots shared s (vmap A D.hhdmOffset r virt phys flags s).2) ∨
    ((vmap A D.hhdmOffset r virt phys flags s).1 = 0 ∧
      LeafWrite C roots shared r virt (phys ||| flags) s
        (vmap A D.hhdmOffset r virt phys flags s).2) := by
  have hr0 := hf.root_ne_zero hr
  obtain ⟨hq3, hd3⟩ := getOrAllocTable_quiet hf hr (p := []) (by decide) rfl
    (ix virt pml4Shift) flags
  rw [vmap, if_neg hr0]
  have hn3 := getOrAllocTable_null hf hr (p := []) (by decide) rfl (ix virt pml4Shift) flags
  dsimp only [ix] at hq3 hd3 hn3 ⊢
  split_ifs with h3 h2 h1
  · exact .inl ⟨rfl, leafEntry_absent (q := [ix virt pml2Shift, ix virt pml3Shift]) (hn3 h3)
      rfl, hq3⟩
  all_goals
    have hn2 := getOrAllocTable_null hq3.forest hr (p := [ix virt pml4Shift]) (by simp) (hd3 h3)
      (ix virt pml3Shift) flags
    obtain ⟨hq2, hd2⟩ := getOrAllocTable_quiet hq3.forest hr (p := [ix virt pml4Shift])
      (by simp) (hd3 h3) (ix virt pml3Shift) flags
    dsimp only [ix] at hq2 hd2 hn2
    have hq32 := hq3.trans hq2
  · refine .inl ⟨rfl, ?_, hq32⟩
    rw [← hq3.leaf r hr virt]
    exact leafEntry_absent (q := [ix virt pml2Shift]) (hn2 h2) rfl
  all_goals
    have hn1 := getOrAllocTable_null hq2.forest hr (p := [ix virt pml3Shift, ix virt pml4Shift])
      (by simp) (hd2 h2) (ix virt pml2Shift) flags
    obtain ⟨hq1, hd1⟩ := getOrAllocTable_quiet hq2.forest hr
      (p := [ix virt pml3Shift, ix virt pml4Shift]) (by simp) (hd2 h2) (ix virt pml2Shift) flags
    dsimp only [ix] at hq1 hd1 hn1
    have hq321 := hq32.trans hq1
  · refine .inl ⟨rfl, ?_, hq321⟩
    rw [← hq32.leaf r hr virt]
    exact leafEntry_absent (q := []) (hn1 h1) rfl
  · exact .inr ⟨rfl, (store_leafWrite hq1.forest hr (hd1 h1) he).of_quiet hq321⟩

theorem getTable_child (m : Mem) (t : ℕ) (i : Fin 512) (h : t ≠ 0) :
    getTable D.hhdmOffset m t i = (child D m t i).getD 0 := by
  rw [getTable, child]
  simp only [h, false_or]
  split_ifs <;> rfl

theorem getTable_some {m : Mem} {t t' : ℕ} {i : Fin 512} (h : t ≠ 0)
    (hc : child D m t i = some t') : getTable D.hhdmOffset m t i = t' := by
  rw [getTable_child m t i h, hc, Option.getD_some]

theorem getTable_none {m : Mem} {t : ℕ} {i : Fin 512} (h : t ≠ 0) (hc : child D m t i = none) :
    getTable D.hhdmOffset m t i = 0 := by
  rw [getTable_child m t i h, hc, Option.getD_none]

/-- The table that a walk without allocation ends in, or a missing one. -/
theorem walk_cases (hf : Forest C roots shared s) {r : ℕ} (hr : r ∈ roots) (virt : ℕ) :
    let pml3 := getTable D.hhdmOffset s.mem r (pageIndex virt pml4Shift)
    let pml2 := getTable D.hhdmOffset s.mem pml3 (pageIndex virt pml3Shift)
    let pml1 := getTable D.hhdmOffset s.mem pml2 (pageIndex virt pml2Shift)
    r ≠ 0 ∧ ((pml3 = 0 ∨ pml2 = 0 ∨ pml1 = 0) ∧
        descend (child D s.mem) r (tablePath virt) = none ∨
      pml3 ≠ 0 ∧ pml2 ≠ 0 ∧ pml1 ≠ 0 ∧
        descend (child D s.mem) r (tablePath virt) = some pml1) := by
  have hr0 := hf.root_ne_zero hr
  have hstep : ∀ {p : List (Fin 512)} {t : ℕ}, descend (child D s.mem) r p = some t → ∀ i,
      descend (child D s.mem) r (i::p) = child D s.mem t i := by
    intro p t ht i
    rw [descend, ht, Option.bind_some]
  dsimp only
  refine ⟨hr0, ?_⟩
  cases h3 : child D s.mem r (ix virt pml4Shift) with
  | none =>
    have e3 : getTable D.hhdmOffset s.mem r (pageIndex virt pml4Shift) = 0 :=
      getTable_none (i := ix virt pml4Shift) hr0 h3
    have d3 := (hstep (p := []) rfl (ix virt pml4Shift)).trans h3
    exact .inl ⟨.inl e3, by rw [tablePath, descend, descend, d3]; rfl⟩
  | some t3 =>
    have d3 := (hstep (p := []) rfl (ix virt pml4Shift)).trans h3
    have t30 := hf.node_ne_zero hr (by simp) d3
    rw [show getTable D.hhdmOffset s.mem r (pageIndex virt pml4Shift) = t3 from
      getTable_some (i := ix virt pml4Shift) hr0 h3]
    cases h2 : child D s.mem t3 (ix virt pml3Shift) with
    | none =>
      have e2 : getTable D.hhdmOffset s.mem t3 (pageIndex virt pml3Shift) = 0 :=
        getTable_none (i := ix virt pml3Shift) t30 h2
      have d2 := (hstep d3 (ix virt pml3Shift)).trans h2
      exact .inl ⟨.inr (.inl e2), by rw [tablePath, descend, d2]; rfl⟩
    | some t2 =>
      have d2 := (hstep d3 (ix virt pml3Shift)).trans h2
      have t20 := hf.node_ne_zero hr (by simp) d2
      rw [show getTable D.hhdmOffset s.mem t3 (pageIndex virt pml3Shift) = t2 from
        getTable_some (i := ix virt pml3Shift) t30 h2]
      cases h1 : child D s.mem t2 (ix virt pml2Shift) with
      | none =>
        have e1 : getTable D.hhdmOffset s.mem t2 (pageIndex virt pml2Shift) = 0 :=
          getTable_none (i := ix virt pml2Shift) t20 h1
        exact .inl ⟨.inr (.inr e1), (hstep d2 (ix virt pml2Shift)).trans h1⟩
      | some t1 =>
        have d1 := (hstep d2 (ix virt pml2Shift)).trans h1
        rw [show getTable D.hhdmOffset s.mem t2 (pageIndex virt pml2Shift) = t1 from
          getTable_some (i := ix virt pml2Shift) t20 h1]
        exact .inr ⟨t30, t20, hf.node_ne_zero hr (le_refl 3) d1, d1⟩

/-- `virt_to_phys` reads the leaf entry. -/
theorem virtToPhys_leaf (hf : Forest C roots shared s) {r : ℕ} (hr : r ∈ roots) (v : ℕ) :
    virtToPhys D.hhdmOffset s.mem r v =
      if leafEntry D s.mem r v &&& vmmPresent = 0 then 0
        else leafEntry D s.mem r v &&& pageMask := by
  obtain ⟨hr0, ⟨hnull, hd⟩ | ⟨h3, h2, h1, hd⟩⟩ := walk_cases hf hr v
  · rw [leafEntry, hd, virtToPhys, if_neg hr0]
    dsimp only
    rcases hnull with h | h | h <;> simp [h]
  · rw [leafEntry, hd, virtToPhys, if_neg hr0]
    simp only [if_neg h3, if_neg h2, if_neg h1]

theorem vunmap_unaligned (r : ℕ) {virt : ℕ} (ha : virt % 4096 ≠ 0) :
    vunmap D.hhdmOffset r virt s = (-1, s) := by
  rw [vunmap, if_pos]
  right
  rwa [show (4096-1 : ℕ) = 2^12-1 by rfl, Nat.and_two_pow_sub_one_eq_mod]

theorem vunmap_effect (hf : Forest C roots shared s) {r : ℕ} (hr : r ∈ roots) (virt : ℕ)
    (ha : virt % 4096 = 0) :
    (vunmap D.hhdmOffset r virt s).1 = 0 ∧
      LeafWrite C roots shared r virt 0 s (vunmap D.hhdmOffset r virt s).2 := by
  have halign : virt &&& (4096-1) = 0 := by
    rw [show (4096-1 : ℕ) = 2^12-1 by rfl, Nat.and_two_pow_sub_one_eq_mod]
    exact ha
  obtain ⟨hr0, ⟨hnull, hd⟩ | ⟨h3, h2, h1, hd⟩⟩ := walk_cases hf hr virt
  · have hsame : vunmap D.hhdmOffset r virt s = (0, s) := by
      rw [vunmap, if_neg (by simp [hr0, halign])]
      dsimp only
      rcases hnull with h | h | h <;> simp [h]
    rw [hsame]
    refine ⟨rfl, ⟨⟨hf, subset_rfl, fun _ _ => rfl, fun _ h _ => h, fun _ _ _ _ _ h => h⟩, ?_,
      fun _ _ _ _ => rfl,
      fun _ _ _ => .inl rfl⟩⟩
    rw [leafEntry, hd]
  · rw [vunmap, if_neg (by simp [hr0, halign])]
    simp only [if_neg h3, if_neg h2, if_neg h1, true_and]
    exact store_leafWrite hf hr hd (by decide)

theorem vunmap_owned (hf : Forest C roots shared s) {r : ℕ} (hr : r ∈ roots) (virt : ℕ) :
    C.owned (vunmap D.hhdmOffset r virt s).2 = C.owned s := by
  rw [vunmap]
  split_ifs with h0
  · rfl
  · obtain ⟨-, ⟨hnull, -⟩ | ⟨h3, h2, h1, hd⟩⟩ := walk_cases hf hr virt
    · dsimp only
      rcases hnull with h | h | h <;> simp [h]
    · obtain ⟨f, -, hft, -, -⟩ := hf.node hr (le_refl _) hd
      simp only [if_neg h3, if_neg h2, if_neg h1]
      rw [hft] at hd ⊢
      exact (store_valid hf hr (le_refl _) hd (ix virt pml1Shift) 0).2

theorem load_zeroed {m : Mem} {f : ℕ} (hz : ∀ a ∈ frame D f, m a = 0) (i : Fin 512) :
    load64 m (D.hhdmOffset+f+8*i) = 0 :=
  load_zero _ _ _ (fun a ha => hz a (entry_range f i ha))

theorem descend_zeroed {m : Mem} {f : ℕ} (hz : ∀ a ∈ frame D f, m a = 0) (p : List (Fin 512))
    (t : ℕ) (h : descend (child D m) (D.hhdmOffset+f) p = some t) :
    p = [] ∧ t = D.hhdmOffset+f := by
  induction p generalizing t with
  | nil => exact ⟨rfl, (Option.some.inj h).symm⟩
  | cons i p ih =>
    obtain ⟨u, hu, hc⟩ := descend_cons h
    obtain ⟨-, rfl⟩ := ih u hu
    rw [child, load_zeroed hz i, Nat.zero_and, if_pos rfl] at hc
    exact absurd hc (by simp)

/-- A zeroed page is a page map without any table below it. -/
theorem forest_zeroed (C : Contract D A) (shared : Set (Fin 512)) (hv : C.Valid s) {f : ℕ}
    (hf : f ∈ C.owned s) (hz : ∀ a ∈ frame D f, s.mem a = 0) :
    Forest C {D.hhdmOffset+f} shared s ∧ ∀ v, leafEntry D s.mem (D.hhdmOffset+f) v = 0 := by
  have hdesc := descend_zeroed hz
  refine ⟨⟨hv, ?_, ?_⟩, ?_⟩
  · rintro t ⟨r, rfl, p, -, ht⟩
    exact ⟨f, hf, (hdesc p t ht).2⟩
  · rintro r rfl r' rfl p q t - - h1 h2
    exact ⟨(hdesc p t h1).1.trans (hdesc q t h2).1.symm, .inl rfl⟩
  · intro v
    rw [leafEntry]
    cases ht : descend (child D s.mem) (D.hhdmOffset+f) (tablePath v) with
    | none => rfl
    | some t => simpa [tablePath] using (hdesc _ t ht).1

end Emk.PagingForest
