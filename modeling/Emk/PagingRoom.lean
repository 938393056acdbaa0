import Emk.PagingWrites
import Emk.ReferenceAllocator
import Mathlib.Data.Finset.Card

/-!
# Free pages for a list of mappings

A mapping takes at most three pages from the allocator, one for each table
that is missing, and none once its last-level table is there. With three
free pages for each 2 MiB region no call of `palloc` fails.
-/

set_option autoImplicit false

namespace Emk.PagingRoom
open Emk.ByteMemory Emk.DirectMap Emk.PageAllocator Emk.Paging Emk.RadixForest Emk.PagingForest
open Emk.PagingWrites

variable {σ : Type} {D : Layout} {A : Ops σ}

/-- A measure of the free pages: while it is positive a page is granted, a
grant lowers it by at most one, and writing to frames in use does not. -/
structure Room (C : Contract D A) (room : Phys σ → ℕ) : Prop where
  grants : ∀ {s}, C.Valid s → 0 < room s → (A.palloc 1 true s).1 ≠ 0
  spends : ∀ {s}, C.Valid s → room s ≤ room (A.palloc 1 true s).2+1
  write : ∀ {s}, C.Valid s → ∀ m, Set.EqOn m s.mem (frames D (C.owned s))ᶜ →
    room ⟨m, s.pmm⟩ = room s

variable {C : Contract D A} {roots : Set ℕ} {shared : Set (Fin 512)} {room : Phys σ → ℕ}
  {s : Phys σ}

theorem store_frame {ps : Set ℕ} {f : ℕ} (hf : f ∈ ps) (m : Mem) (i : Fin 512) (e : ℕ) :
    Set.EqOn (store64 m (D.hhdmOffset+f+8*i) e) m (frames D ps)ᶜ :=
  fun _ ha => store_outside _ _ _ _ _ fun hin => ha ⟨f, hf, entry_range f i hin⟩

theorem fill_frame {ps : Set ℕ} {g : ℕ} (hg : g ∈ ps) (m : Mem) :
    Set.EqOn (fill m (D.hhdmOffset+g) 0 4096) m (frames D ps)ᶜ :=
  fun _ ha => fill_outside _ _ _ _ _ fun hin => ha ⟨g, hg, hin⟩

theorem descend_append_none {m : Mem} {r : ℕ} {p : List (Fin 512)}
    (h : descend (child D m) r p = none) (q : List (Fin 512)) :
    descend (child D m) r (q ++ p) = none := by
  induction q with
  | nil => exact h
  | cons i q ih => rw [List.cons_append, descend, ih, Option.bind_none]

/-- Where the next table is there already, nothing is taken. -/
theorem getOrAllocTable_room (hR : Room C room) (hf : Forest C roots shared s) {r : ℕ}
    (hr : r ∈ roots) {p : List (Fin 512)} (hp : p.length < 3) {t : ℕ}
    (ht : descend (child D s.mem) r p = some t) (i : Fin 512) (flags : ℕ) {c : ℕ}
    (hc : descend (child D s.mem) r (i::p) = none → 0 < c) (hroom : c ≤ room s) :
    TableGranted A t i s ∧ room s ≤ room (getOrAllocTable A D.hhdmOffset t i flags s).2+c := by
  obtain ⟨f, hfo, rfl, -, hft⟩ := hf.node hr (le_of_lt hp) ht
  rw [getOrAllocTable, if_neg (pointer_ne_zero f hft)]
  dsimp only
  have hspends := hR.spends hf.valid
  by_cases habsent : load64 s.mem (D.hhdmOffset+f+8*i) &&& vmmPresent = 0
  · have hpos : 0 < c := hc (by
      rw [descend, ht, Option.bind_some, child, if_pos habsent])
    have hgrant := hR.grants hf.valid (by omega)
    refine ⟨fun _ => hgrant, ?_⟩
    rw [if_pos habsent]
    obtain ⟨g, hga, -, -, -, howned⟩ := C.palloc_grant hf.valid true hgrant
    rw [if_pos rfl] at hga
    have hg : g ∈ C.owned (A.palloc 1 true s).2 := by
      rw [howned]
      exact Set.mem_insert g _
    have hf' : f ∈ C.owned (A.palloc 1 true s).2 := by
      rw [howned]
      exact Set.mem_insert_of_mem g hfo
    have hwrite := fun e e' => hR.write (C.palloc_valid hf.valid true) _
      (((store_frame hf' _ i e').trans (store_frame hf' _ i e)).trans (fill_frame hg _))
    split_ifs
    · dsimp only
      omega
    · rw [hga, orFlags]
      dsimp only
      rw [hwrite]
      omega
  · refine ⟨fun h => absurd h habsent, ?_⟩
    rw [if_neg habsent, orFlags, hR.write hf.valid _ (store_frame hfo _ i _)]
    exact Nat.le_add_right _ c

/-- With three free pages a mapping succeeds and takes no more than these. It
takes none if the last-level table is there, and leaves one there. -/
theorem vmap_room (hR : Room C room) (hf : Forest C roots shared s) {r : ℕ} (hr : r ∈ roots)
    (x : Mapping) {c : ℕ} (hc : descend (child D s.mem) r (tablePath x.virt) = none → 0 < c)
    (hroom : 3*c ≤ room s) :
    VmapGranted A D.hhdmOffset r x s ∧
      room s ≤ room (vmap A D.hhdmOffset r x.virt x.phys x.flags s).2+3*c ∧
      descend (child D (vmap A D.hhdmOffset r x.virt x.phys x.flags s).2.mem) r
        (tablePath x.virt) ≠ none := by
  have hstage : ∀ {z : Phys σ}, Extends C roots shared s z → ∀ p q, tablePath x.virt = q ++ p →
      descend (child D z.mem) r p = none → 0 < c := by
    intro z hz p q hpath hnone
    refine hc (Option.eq_none_iff_forall_not_mem.mpr fun t ht => ?_)
    have hgrows := hz.grows r hr _ t (le_refl 3) ht
    rw [hpath, descend_append_none hnone] at hgrows
    exact nomatch hgrows
  have hr0 := hf.root_ne_zero hr
  obtain ⟨hg3, room3⟩ := getOrAllocTable_room (A := A) hR hf hr (p := []) (by decide) rfl
    (ix x.virt pml4Shift) x.flags
    (fun h => hc (descend_append_none h [ix x.virt pml2Shift, ix x.virt pml3Shift])) (by omega)
  have h3 := getOrAllocTable_granted hf hr (p := []) (by decide) rfl (ix x.virt pml4Shift) x.flags
    hg3
  obtain ⟨hq3, hd3⟩ := getOrAllocTable_quiet (A := A) hf hr (p := []) (by decide) rfl
    (ix x.virt pml4Shift) x.flags
  generalize hr3 : getOrAllocTable A D.hhdmOffset r (ix x.virt pml4Shift) x.flags s = r3 at *
  obtain ⟨hg2, room2⟩ := getOrAllocTable_room (A := A) hR hq3.forest hr (by simp) (hd3 h3)
    (ix x.virt pml3Shift) x.flags (hstage hq3.toExtends _ [ix x.virt pml2Shift] rfl) (by omega)
  have h2 := getOrAllocTable_granted hq3.forest hr (by simp) (hd3 h3) (ix x.virt pml3Shift)
    x.flags hg2
  obtain ⟨hq2, hd2⟩ := getOrAllocTable_quiet (A := A) hq3.forest hr (by simp) (hd3 h3)
    (ix x.virt pml3Shift) x.flags
  generalize hr2 : getOrAllocTable A D.hhdmOffset r3.1 (ix x.virt pml3Shift) x.flags r3.2 = r2 at *
  have hq32 := hq3.trans hq2
  obtain ⟨hg1, room1⟩ := getOrAllocTable_room (A := A) hR hq2.forest hr (by simp) (hd2 h2)
    (ix x.virt pml2Shift) x.flags (hstage hq32.toExtends _ [] rfl) (by omega)
  have h1 := getOrAllocTable_granted hq2.forest hr (by simp) (hd2 h2) (ix x.virt pml2Shift)
    x.flags hg1
  obtain ⟨hq1, hd1⟩ := getOrAllocTable_quiet (A := A) hq2.forest hr (by simp) (hd2 h2)
    (ix x.virt pml2Shift) x.flags
  generalize hr1 : getOrAllocTable A D.hhdmOffset r2.1 (ix x.virt pml2Shift) x.flags r2.2 = r1 at *
  have hd := hd1 h1
  obtain ⟨f, hfo, hft, -, -⟩ := hq1.forest.node hr (le_refl _) hd
  rw [hft] at hd
  have hleaf := hR.write hq1.forest.valid _
    (store_frame hfo r1.2.mem (ix x.virt pml1Shift) (x.phys ||| x.flags))
  have hkeep := descend_store_leaf hq1.forest hr (le_refl _) hd (ix x.virt pml1Shift)
    (x.phys ||| x.flags) rfl r hr (tablePath x.virt) (le_refl _)
  dsimp only [ix] at hg3 hg2 hg1 hr3 hr2 hr1 hleaf hkeep
  have hvmap : (vmap A D.hhdmOffset r x.virt x.phys x.flags s).2 =
      ⟨store64 r1.2.mem (D.hhdmOffset+f+8*pageIndex x.virt pml1Shift) (x.phys ||| x.flags),
        r1.2.pmm⟩ := by
    rw [vmap, if_neg hr0]
    dsimp only
    rw [hr3, if_neg h3, hr2, if_neg h2, hr1, if_neg h1, hft]
  refine ⟨⟨hg3, ?_, ?_⟩, ?_, ?_⟩
  · rw [hr3]
    exact hg2
  · rw [hr3, hr2]
    exact hg1
  · rw [hvmap, hleaf]
    omega
  · rw [hvmap, hkeep, tablePath, hd]
    exact Option.some_ne_none _

/-- The 2 MiB region of an address, which determines its last-level table. -/
def region (v : ℕ) : ℕ := v / 2^21 % 2^27

theorem tablePath_region {v w : ℕ} (h : region v = region w) : tablePath v = tablePath w := by
  simp only [region] at h
  simp only [tablePath, ix, Fin.mk.injEq, List.cons.injEq, and_true, pageIndex_eq, pml2Shift,
    pml3Shift, pml4Shift]
  omega

/-- The regions of `R` without a last-level table. -/
def missing (D : Layout) (m : Mem) (r : ℕ) (R : Finset ℕ) : Finset ℕ :=
  R.filter fun g => descend (child D m) r (tablePath (2^21*g)) = none

theorem missing_card (m : Mem) (r : ℕ) (R : Finset ℕ) : (missing D m r R).card ≤ R.card :=
  Finset.card_filter_le _ _

theorem missing_subset {R : Finset ℕ} {r : ℕ} {s' : Phys σ} (hr : r ∈ roots)
    (h : Extends C roots shared s s') : missing D s'.mem r R ⊆ missing D s.mem r R := by
  intro g hg
  rw [missing, Finset.mem_filter] at hg ⊢
  refine ⟨hg.1, Option.eq_none_iff_forall_not_mem.mpr fun t ht => ?_⟩
  have hgrows := h.grows r hr _ t (le_refl 3) ht
  rw [hg.2] at hgrows
  exact nomatch hgrows

/-- Three free pages for each region that has no table yet are enough. -/
theorem allGranted_of_room (hR : Room C room) {r : ℕ} (hr : r ∈ roots) {R : Finset ℕ}
    {xs : List Mapping} (hxs : ∀ x ∈ xs, region x.virt ∈ R) (hlt : ∀ x ∈ xs, x.entry < 2^64)
    (hf : Forest C roots shared s) (h : 3*(missing D s.mem r R).card ≤ room s) :
    AllGranted A D.hhdmOffset r xs s := by
  induction xs generalizing s with
  | nil => trivial
  | cons x xs ih =>
    have hpath : tablePath (2^21*region x.virt) = tablePath x.virt :=
      tablePath_region (by rw [region, region]; omega)
    have hmem : region x.virt ∈ missing D s.mem r R ↔
        descend (child D s.mem) r (tablePath x.virt) = none := by
      rw [missing, Finset.mem_filter, hpath]
      exact and_iff_right (hxs x List.mem_cons_self)
    have hext : Extends C roots shared s
        (vmap A D.hhdmOffset r x.virt x.phys x.flags s).2 := by
      rcases vmap_effect hf hr x.virt x.phys x.flags (hlt x List.mem_cons_self) with
        ⟨-, -, hq⟩ | ⟨-, hw⟩
      · exact hq.toExtends
      · exact hw.toExtends
    have hsub := missing_subset (R := R) hr hext
    have hrest := fun hcard => ih (fun y hy => hxs y (List.mem_cons_of_mem _ hy))
      (fun y hy => hlt y (List.mem_cons_of_mem _ hy)) hext.forest hcard
    by_cases hnone : descend (child D s.mem) r (tablePath x.virt) = none
    · have hin := hmem.mpr hnone
      have hpos := Finset.card_pos.mpr ⟨_, hin⟩
      obtain ⟨hg, hroom, hthere⟩ := vmap_room hR hf hr x (fun _ => Nat.one_pos) (by omega)
      have herase : missing D (vmap A D.hhdmOffset r x.virt x.phys x.flags s).2.mem r R ⊆
          (missing D s.mem r R).erase (region x.virt) := by
        intro g hg'
        refine Finset.mem_erase.mpr ⟨?_, hsub hg'⟩
        rintro rfl
        rw [missing, Finset.mem_filter, hpath] at hg'
        exact hthere hg'.2
      have hcard := Finset.card_le_card herase
      rw [Finset.card_erase_of_mem hin] at hcard
      exact ⟨hg, hrest (by omega)⟩
    · obtain ⟨hg, hroom, -⟩ := vmap_room hR hf hr x (c := 0) (fun h => absurd h hnone) (by omega)
      have hcard := Finset.card_le_card hsub
      exact ⟨hg, hrest (by omega)⟩

/-- The reference allocator has room above the pages it has granted. -/
theorem reference_room (D : Layout) : Room (ReferenceAllocator.contract D).toContract
    fun s => D.top/4096-ReferenceAllocator.nextPage s.pmm where
  grants := by
    intro s _ hroom
    have hpos : 0 < ReferenceAllocator.nextPage s.pmm := Nat.succ_pos _
    have hfits : ¬(1 = 0 ∨ 4096*(ReferenceAllocator.nextPage s.pmm+1) > D.top) := by omega
    simp only [ReferenceAllocator.ops, hfits, if_false, if_true]
    omega
  spends := by
    intro s _
    by_cases h : ((ReferenceAllocator.ops D).palloc 1 true s).1 = 0
    · rw [ReferenceAllocator.palloc_refuses D 1 true h]
      exact Nat.le_succ _
    · obtain ⟨-, heq⟩ := ReferenceAllocator.palloc_grants D 1 true h
      have hnext : ReferenceAllocator.nextPage ((List.range 1).map
          (ReferenceAllocator.nextPage s.pmm+·) ++ s.pmm) =
          ReferenceAllocator.nextPage s.pmm+1 := by
        simp [ReferenceAllocator.nextPage]
      rw [heq]
      dsimp only
      rw [hnext]
      omega
  write := fun _ _ _ => rfl

end Emk.PagingRoom
