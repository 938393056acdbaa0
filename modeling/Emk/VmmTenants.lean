import Emk.SpawnMapping
import Emk.Tenancy

/-!
# The frames that a context holds

The nodes of a region list and the pages that `valloc` maps hold one frame
each, and none of these frames is a page table. Filling a region admits new
pages to frames fresh from the allocator; `vfree` gives the frame of each
page back and clears its entry, so that no page keeps a frame that is free.
-/

set_option autoImplicit false

namespace Emk.VmmTenants
open Emk.ByteMemory Emk.MachineWord Emk.DirectMap Emk.PageAllocator Emk.Paging Emk.Vmm
open Emk.PagingForest Emk.Tenancy
open Emk.Sched (translation translation_leaf translation_page EntryFlags vflagsToPflags_entry)

inductive Tenant where
  | node (x : ℕ)
  | page (q : ℕ)

/-- A node holds the frame it points to, a page of the lower half the frame
that it is mapped to. -/
def Holds (D : Layout) (K : ℕ) (nodes : List ℕ) (m : Mem) : Tenant → ℕ → Prop
  | .node x, f => x ∈ nodes ∧ x = D.hhdmOffset+f
  | .page q, f => q < 2^35 ∧ f ≠ 0 ∧ translation D m K (4096*q) = f

variable {σ : Type} {D : Layout} {A : Ops σ} {K : ℕ} {nodes nodes' : List ℕ} {s s' : Phys σ}

def Housed (C : Contract D A) (roots : Set ℕ) (K : ℕ) (nodes : List ℕ) (s : Phys σ) : Prop :=
  Tidy (Holds D K nodes s.mem) (C.owned s) (tableFrames D s.mem roots)

section Filling
variable {C : Contract D A} {roots : Set ℕ} {shared : Set (Fin 512)}

theorem holds_quiet (hf : Forest C roots shared s) (hK : K ∈ roots)
    (hq : Quiet C roots shared s s') {t : Tenant} {f : ℕ} (h : Holds D K nodes s'.mem t f) :
    Holds D K nodes s.mem t f := by
  cases t with
  | node x => exact h
  | page q =>
    obtain ⟨hlow, h0, he⟩ := h
    exact ⟨hlow, h0, (translation_leaf hf hq.forest hK (hq.leaf K hK _)).symm.trans he⟩

theorem Housed.quiet (h : Housed C roots K nodes s) (hf : Forest C roots shared s) (hK : K ∈ roots)
    (hq : Quiet C roots shared s s') : Housed C roots K nodes s' := by
  have hsub : ∀ t f, Holds D K nodes s'.mem t f → Holds D K nodes s.mem t f :=
    fun t f => holds_quiet hf hK hq
  exact h.shrink hsub (fun t f ht => hq.owned (h.rented t f (hsub t f ht))) hq.tables

theorem palloc_tables (hf : Forest C roots shared s) (hh : Bool) :
    tableFrames D (A.palloc 1 hh s).2.mem roots = tableFrames D s.mem roots :=
  tableFrames_agree hf ((C.palloc_keeps hf.valid hh).mono (frames_mono D (tableFrames_owned hf)))

/-- A new node moves into the frame that the allocator granted for it. -/
theorem Housed.grant (h : Housed C roots K nodes s) (hf : Forest C roots shared s) (hK : K ∈ roots)
    (h0 : (A.palloc 1 true s).1 ≠ 0)
    (hmem : ∀ x ∈ nodes', x = (A.palloc 1 true s).1 ∨ x ∈ nodes) :
    Housed C roots K nodes' (A.palloc 1 true s).2 := by
  obtain ⟨f, hp, -, -, hvacant, ho⟩ := C.palloc_grant hf.valid true h0
  rw [if_pos rfl] at hp
  have hq := palloc_quiet hf true
  refine Tidy.admit h (.node (D.hhdmOffset+f)) f ?_ hvacant hq.owned ?_ ?_ hq.tables
  · intro t g ht
    cases t with
    | page q =>
      have hpage : Holds D K nodes (A.palloc 1 true s).2.mem (.page q) g := ht
      exact .inl (holds_quiet hf hK hq hpage)
    | node x =>
      obtain ⟨hx, he⟩ := ht
      rcases hmem x hx with hnew | hold
      · refine .inr ⟨congrArg Tenant.node (hnew.trans hp), ?_⟩
        omega
      · exact .inl ⟨hold, he⟩
  · rw [ho]
    exact Set.mem_insert f _
  · rw [palloc_tables hf true]
    exact fun hin => hvacant (tableFrames_owned hf hin)

theorem pageNumber_low {q : ℕ} (hq : q < 2^35) : pageNumber (4096*q) = q := by
  rw [pageNumber]
  omega

/-- A page moves into the frame that `valloc` maps there. -/
theorem Housed.vmap (h : Housed C roots K nodes s) (hf : Forest C roots shared s) (hK : K ∈ roots)
    {flags : ℕ} (hflags : EntryFlags flags) (start i : ℕ) (h0 : (A.palloc 1 false s).1 ≠ 0) :
    Housed C roots K nodes (Paging.vmap A D.hhdmOffset K (wrap (start+4096*i))
      (A.palloc 1 false s).1 flags (A.palloc 1 false s).2).2 := by
  obtain ⟨hstep, hleaf⟩ := vmap_backing start i hf hK hflags.lt h0
  have hb := palloc_backing hf.valid h0
  have hq := palloc_quiet hf false
  have hmap := vmap_range (A := A) hq.forest hK (wrap (start+4096*i)) _ flags
    (hb.entry_lt hflags.lt)
  have hin : (A.palloc 1 false s).1 ∈ C.owned (A.palloc 1 false s).2 := by
    obtain ⟨g, hg, -, -, -, ho⟩ := C.palloc_grant hf.valid false h0
    rw [if_neg (by decide)] at hg
    rw [ho, hg]
    exact Set.mem_insert g _
  refine Tidy.admit h (.page (pageNumber (wrap (start+4096*i)))) (A.palloc 1 false s).1
    ?_ hb.fresh hstep.owned (hmap.owned hin) ?_ hstep.tables
  · intro t f ht
    cases t with
    | node x => exact .inl ht
    | page q =>
      obtain ⟨hlow, hne, he⟩ := ht
      by_cases hpage : q = pageNumber (wrap (start+4096*i))
      · refine .inr ⟨congrArg Tenant.page hpage, ?_⟩
        have hsame : pageNumber (4096*q) = pageNumber (wrap (start+4096*i)) := by
          rw [pageNumber_low hlow, hpage]
        rw [translation_page hstep.forest hK hsame] at he
        have htop := D.top_le_address
        have hbelow := hb.below
        rcases hleaf with ⟨-, hzero⟩ | ⟨-, hmapped⟩
        · rw [translation, virtToPhys_leaf hstep.forest hK, hzero, Nat.zero_and, if_pos rfl] at he
          exact absurd he.symm hne
        · rw [← he]
          exact hflags.translation hstep.forest hK hb.aligned (by omega) hmapped
      · refine .inl ⟨hlow, hne, ?_⟩
        rw [← he]
        refine (translation_leaf hf hstep.forest hK (hstep.elsewhere K hK _ ?_)).symm
        rw [pageNumber_low hlow]
        exact hpage
  · intro htable
    have := hmap.tables _ htable hin
    rw [palloc_tables hf false] at this
    exact hb.fresh (tableFrames_owned hf this)

theorem Housed.fillRegion (h : Housed C roots K nodes s) (hf : Forest C roots shared s)
    (hK : K ∈ roots) {flags : ℕ} (hflags : EntryFlags flags) (start n i : ℕ) :
    Housed C roots K nodes
      (Vmm.fillRegion A D.hhdmOffset (backing A) K start flags n i s).2 := by
  induction n generalizing i s with
  | zero => exact h
  | succ n ih =>
    rw [Vmm.fillRegion]
    split_ifs with h0
    · exact h.quiet hf hK (palloc_quiet hf false)
    · have hstep := (vmap_backing start i hf hK hflags.lt h0).1
      exact ih (h.vmap hf hK hflags start i h0) hstep.forest (i+1)

end Filling

section Releasing
variable {F : FreeContract D A} {roots : Set ℕ} {shared : Set (Fin 512)} {freed freed' : Set ℕ}
  {pages pages' : Set ℕ} {s'' : Phys σ}

/-- Frames are given back, the entries of some pages are gone, and the other
pages are mapped as before. -/
structure Released (F : FreeContract D A) (roots : Set ℕ) (shared : Set (Fin 512)) (K : ℕ)
    (freed pages : Set ℕ) (s s' : Phys σ) : Prop where
  forest : Forest F.toContract roots shared s'
  owned : F.owned s' = F.owned s \ freed
  tables : tableFrames D s'.mem roots ⊆ tableFrames D s.mem roots
  kept : ∀ v, pageNumber v ∉ pages → translation D s'.mem K v = translation D s.mem K v
  cleared : ∀ v, pageNumber v ∈ pages → translation D s'.mem K v = 0

theorem Released.trans (h : Released F roots shared K freed pages s s')
    (h' : Released F roots shared K freed' pages' s' s'') :
    Released F roots shared K (freed ∪ freed') (pages ∪ pages') s s'' where
  forest := h'.forest
  owned := by rw [h'.owned, h.owned, Set.sdiff_sdiff]
  tables := h'.tables.trans h.tables
  kept := by
    intro v hv
    rw [Set.mem_union, not_or] at hv
    exact (h'.kept v hv.2).trans (h.kept v hv.1)
  cleared := by
    intro v hv
    by_cases hin : pageNumber v ∈ pages'
    · exact h'.cleared v hin
    · exact (h'.kept v hin).trans (h.cleared v (hv.resolve_right hin))

theorem pfree_released (hf : Forest F.toContract roots shared s) (hK : K ∈ roots) {f : ℕ}
    (ho : f ∈ F.owned s) (ht : f ∉ tableFrames D s.mem roots) :
    Released F roots shared K {f} ∅ s (A.pfree f 1 s) := by
  have howned := F.pfree_owned hf.valid f ho
  obtain ⟨hforest, htables, hleaf⟩ := hf.freed (Set.disjoint_singleton_left.mpr ht)
    (F.pfree_valid hf.valid f ho) howned.superset (F.pfree_keeps hf.valid f ho)
  exact ⟨hforest, howned, htables.subset, fun v _ => translation_leaf hf hforest hK (hleaf K hK v),
    fun v hv => absurd hv (Set.notMem_empty _)⟩

theorem vunmap_released (hf : Forest F.toContract roots shared s) (hK : K ∈ roots) {virt : ℕ}
    (ha : virt % 4096 = 0) :
    Released F roots shared K ∅ {pageNumber virt} s (vunmap D.hhdmOffset K virt s).2 := by
  obtain ⟨-, hw⟩ := vunmap_effect hf hK virt ha
  have howned := vunmap_owned hf hK virt
  refine ⟨hw.forest, by rw [howned, Set.sdiff_empty], ?_, ?_, ?_⟩
  · intro f ht
    exact hw.tables f ht (howned ▸ tableFrames_owned hw.forest ht)
  · exact fun v hv => translation_leaf hf hw.forest hK (hw.elsewhere K hK v hv)
  · intro v hv
    rw [translation_page hw.forest hK hv, translation, virtToPhys_leaf hw.forest hK, hw.here,
      Nat.zero_and, if_pos rfl]

/-- A tenant whose frame is given back is gone. -/
theorem Housed.vacate (h : Housed F.toContract roots K nodes s)
    (hr : Released F roots shared K freed pages s s') {t₀ : Tenant} {f₀ : ℕ}
    (hold : Holds D K nodes s.mem t₀ f₀) (hfreed : freed = {f₀})
    (hsub : ∀ t f, Holds D K nodes' s'.mem t f → Holds D K nodes s.mem t f ∧ t ≠ t₀) :
    Housed F.toContract roots K nodes' s' := by
  refine Tidy.vacate h hold hsub ?_ (fun f ht _ => hr.tables ht)
  rw [hr.owned, hfreed]

/-- One round of the loop in `vfree`. -/
theorem release_page (h : Housed F.toContract roots K nodes s)
    (hf : Forest F.toContract roots shared s) (hK : K ∈ roots) (virt : ℕ) (ha : virt % 4096 = 0)
    (hlow : virt < 2^47) (h0 : translation D s.mem K virt ≠ 0) :
    let s' := (vunmap D.hhdmOffset K virt (A.pfree (translation D s.mem K virt) 1 s)).2
    Released F roots shared K {translation D s.mem K virt} {pageNumber virt} s s' ∧
      Housed F.toContract roots K nodes s' := by
  intro s'
  have hvirt : 4096*(virt/4096) = virt := by omega
  have hq : virt/4096 < 2^35 := by omega
  have hnum : pageNumber virt = virt/4096 := by
    rw [← hvirt, pageNumber_low (by omega)]
    omega
  have hold : Holds D K nodes s.mem (.page (virt/4096)) (translation D s.mem K virt) :=
    ⟨hq, h0, by rw [hvirt]⟩
  have hfree := pfree_released hf hK (h.rented _ _ hold) (h.apart _ _ hold)
  have hr := hfree.trans (vunmap_released hfree.forest hK ha)
  rw [Set.union_empty, Set.empty_union] at hr
  refine ⟨hr, h.vacate hr hold rfl ?_⟩
  intro t f ht
  cases t with
  | node x => exact ⟨ht, by simp⟩
  | page q =>
    obtain ⟨hqlow, hne, he⟩ := ht
    by_cases hpage : pageNumber (4096*q) ∈ ({pageNumber virt} : Set ℕ)
    · exact absurd (he.symm.trans (hr.cleared _ hpage)) hne
    · refine ⟨⟨hqlow, hne, (hr.kept _ hpage).symm.trans he⟩, ?_⟩
      intro hsame
      apply hpage
      rw [Tenant.page.inj hsame, hvirt]
      rfl

/-- The frames that a range of pages is mapped to. -/
def framesAt (D : Layout) (m : Mem) (K start i n : ℕ) : Set ℕ :=
  {f | f ≠ 0 ∧ ∃ j, i ≤ j ∧ j < i+n ∧ f = translation D m K (wrap (start+4096*j))}

theorem pagesOf_cons (start i n : ℕ) :
    pagesOf start i (n+1) = {pageNumber (wrap (start+4096*i))} ∪ pagesOf start (i+1) n := by
  apply Set.Subset.antisymm
  · rintro q ⟨j, h1, h2, rfl⟩
    by_cases hj : j = i
    · exact .inl (by rw [hj]; rfl)
    · exact .inr ⟨j, by omega, by omega, rfl⟩
  · exact Set.union_subset (pagesOf_head start i n) (pagesOf_succ start i n)

theorem framesAt_cons {m : Mem} {start i n : ℕ}
    (h0 : translation D m K (wrap (start+4096*i)) ≠ 0) :
    framesAt D m K start i (n+1) =
      {translation D m K (wrap (start+4096*i))} ∪ framesAt D m K start (i+1) n := by
  ext f
  constructor
  · rintro ⟨hf, j, h1, h2, he⟩
    by_cases hj : j = i
    · exact .inl (by rw [he, hj]; rfl)
    · exact .inr ⟨hf, j, by omega, by omega, he⟩
  · rintro (hf | ⟨hf, j, h1, h2, he⟩)
    · exact ⟨by rwa [hf], i, le_rfl, by omega, hf⟩
    · exact ⟨hf, j, by omega, by omega, he⟩

theorem framesAt_skip {m : Mem} {start i n : ℕ}
    (h0 : translation D m K (wrap (start+4096*i)) = 0) :
    framesAt D m K start i (n+1) = framesAt D m K start (i+1) n := by
  ext f
  constructor
  · rintro ⟨hf, j, h1, h2, he⟩
    by_cases hj : j = i
    · exact absurd (he.trans (hj ▸ h0)) hf
    · exact ⟨hf, j, by omega, by omega, he⟩
  · rintro ⟨hf, j, h1, h2, he⟩
    exact ⟨hf, j, by omega, by omega, he⟩

theorem framesAt_congr {m m' : Mem} {start i n : ℕ}
    (h : ∀ j, i ≤ j → j < i+n → translation D m' K (wrap (start+4096*j)) =
      translation D m K (wrap (start+4096*j))) :
    framesAt D m' K start i n = framesAt D m K start i n := by
  ext f
  constructor
  · rintro ⟨hf, j, h1, h2, he⟩
    exact ⟨hf, j, h1, h2, he.trans (h j h1 h2)⟩
  · rintro ⟨hf, j, h1, h2, he⟩
    exact ⟨hf, j, h1, h2, he.trans (h j h1 h2).symm⟩

theorem Housed.framesAt_owned {start n : ℕ} (h : Housed F.toContract roots K nodes s)
    (ha : start % 4096 = 0) (hlow : start+4096*n ≤ 2^47) :
    framesAt D s.mem K start 0 n ⊆ F.owned s := by
  rintro f ⟨h0, j, -, hj, he⟩
  have hvirt : 4096*(start/4096+j) = wrap (start+4096*j) := by
    rw [wrap_of_lt (by omega)]
    omega
  exact h.rented (.page (start/4096+j)) f ⟨by omega, h0, by rw [hvirt, he]⟩

/-- The loop of `vfree` over an aligned range in the lower half. -/
theorem releasePages_released (start n i : ℕ) (h : Housed F.toContract roots K nodes s)
    (hf : Forest F.toContract roots shared s) (hK : K ∈ roots) (ha : start % 4096 = 0)
    (hlow : n = 0 ∨ start+4096*(i+n) ≤ 2^47) :
    let s' := releasePages A D.hhdmOffset K K start n i s
    Released F roots shared K (framesAt D s.mem K start i n) (pagesOf start i n) s s' ∧
      Housed F.toContract roots K nodes s' := by
  induction n generalizing i s with
  | zero =>
    refine ⟨⟨hf, ?_, subset_rfl, fun _ _ => rfl, ?_⟩, h⟩
    · have hnone : framesAt D s.mem K start i 0 = ∅ := by
        ext f
        simp [framesAt]
        omega
      rw [hnone, Set.sdiff_empty]
      rfl
    · rintro v ⟨j, h1, h2, -⟩
      omega
  | succ n ih =>
    have hlow' := hlow.resolve_left (by omega)
    have hwrap : wrap (start+4096*i) = start+4096*i := wrap_of_lt (by omega)
    intro s'
    have hs' : s' = releasePages A D.hhdmOffset K K start (n+1) i s := rfl
    rw [releasePages] at hs'
    have hother : ∀ j, i+1 ≤ j → j < i+1+n →
        pageNumber (wrap (start+4096*j)) ∉ ({pageNumber (wrap (start+4096*i))} : Set ℕ) := by
      intro j h1 h2 he
      have := pageNumber_inj (by omega) (by omega) (Set.mem_singleton_iff.mp he)
      omega
    by_cases h0 : translation D s.mem K (wrap (start+4096*i)) = 0
    · rw [if_neg (not_not.mpr h0)] at hs'
      obtain ⟨hr, hh⟩ := ih (i+1) h hf (.inr (by omega))
      rw [← hs'] at hr hh
      refine ⟨⟨hr.forest, ?_, hr.tables, ?_, ?_⟩, hh⟩
      · rw [hr.owned, framesAt_skip h0]
      · exact fun v hv => hr.kept v (fun hin => hv (pagesOf_succ start i n hin))
      · intro v hv
        by_cases hin : pageNumber v ∈ pagesOf start (i+1) n
        · exact hr.cleared v hin
        · rw [pagesOf_cons] at hv
          rw [hr.kept v hin, translation_page hf hK (hv.resolve_right hin), h0]
    · rw [if_pos h0] at hs'
      obtain ⟨hr, hh⟩ := release_page h hf hK (wrap (start+4096*i))
        (by rw [hwrap]; omega) (by rw [hwrap]; omega) h0
      obtain ⟨hrest, hhrest⟩ := ih (i+1) hh hr.forest (.inr (by omega))
      rw [← hs'] at hrest hhrest
      refine ⟨?_, hhrest⟩
      have hboth := hr.trans hrest
      rwa [framesAt_congr (fun j h1 h2 => hr.kept _ (hother j h1 h2)), ← framesAt_cons h0,
        ← pagesOf_cons] at hboth

end Releasing

end Emk.VmmTenants
