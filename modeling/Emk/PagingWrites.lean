import Emk.LastWrite
import Emk.PagingPermissions

/-!
# Many mappings one after the other

A page map starts as a zeroed page and a list of mappings is written to it.
As long as no table is missing, the entry of a page is the one that the last
mapping of the page wrote.
-/

set_option autoImplicit false

namespace Emk.PagingWrites
open Emk.ByteMemory Emk.MachineWord Emk.DirectMap Emk.PageAllocator Emk.Paging Emk.RadixForest
open Emk.PagingForest Emk.PagingPermissions Emk.PagingRefinement Emk.LastWrite

/-- The arguments of a call of `vmap`. -/
structure Mapping where
  virt : ℕ
  phys : ℕ
  flags : ℕ

namespace Mapping

def entry (x : Mapping) : ℕ := x.phys ||| x.flags

def page (x : Mapping) : ℕ := pageNumber x.virt

end Mapping

variable {σ : Type} (A : Ops σ) (hhdmOffset pagemap : ℕ)

def mapAll : List Mapping → Phys σ → Phys σ
  | [], s => s
  | x::xs, s => mapAll xs (vmap A hhdmOffset pagemap x.virt x.phys x.flags s).2

/-- If `get_or_alloc_table` has to allocate, `palloc` does not fail. -/
def TableGranted (table index : ℕ) (s : Phys σ) : Prop :=
  load64 s.mem (table+8*index) &&& vmmPresent = 0 → (A.palloc 1 true s).1 ≠ 0

/-- No call of `palloc` that this `vmap` makes fails. -/
def VmapGranted (x : Mapping) (s : Phys σ) : Prop :=
  let r3 := getOrAllocTable A hhdmOffset pagemap (pageIndex x.virt pml4Shift) x.flags s
  let r2 := getOrAllocTable A hhdmOffset r3.1 (pageIndex x.virt pml3Shift) x.flags r3.2
  TableGranted A pagemap (pageIndex x.virt pml4Shift) s ∧
    TableGranted A r3.1 (pageIndex x.virt pml3Shift) r3.2 ∧
    TableGranted A r2.1 (pageIndex x.virt pml2Shift) r2.2

def AllGranted : List Mapping → Phys σ → Prop
  | [], _ => True
  | x::xs, s => VmapGranted A hhdmOffset pagemap x s ∧
      AllGranted xs (vmap A hhdmOffset pagemap x.virt x.phys x.flags s).2

variable {A hhdmOffset pagemap}

theorem mapAll_append (xs ys : List Mapping) (s : Phys σ) :
    mapAll A hhdmOffset pagemap (xs ++ ys) s =
      mapAll A hhdmOffset pagemap ys (mapAll A hhdmOffset pagemap xs s) := by
  induction xs generalizing s with
  | nil => rfl
  | cons x xs ih => exact ih _

variable {D : Layout} {C : Contract D A} {roots : Set ℕ} {shared : Set (Fin 512)} {s : Phys σ}

section Granted

theorem getOrAllocTable_granted (hf : Forest C roots shared s) {r : ℕ} (hr : r ∈ roots)
    {p : List (Fin 512)} (hp : p.length < 3) {t : ℕ} (ht : descend (child D s.mem) r p = some t)
    (i : Fin 512) (flags : ℕ) (hg : TableGranted A t i s) :
    (getOrAllocTable A D.hhdmOffset t i flags s).1 ≠ 0 := by
  intro h0
  have hnone := getOrAllocTable_null hf hr hp ht i flags h0
  obtain ⟨f, -, rfl, -, hft⟩ := hf.node hr (le_of_lt hp) ht
  have habsent : load64 s.mem (D.hhdmOffset+f+8*i) &&& vmmPresent = 0 := by
    by_contra hpres
    rw [descend, ht, Option.bind_some, child, if_neg hpres] at hnone
    exact absurd hnone (Option.some_ne_none _)
  obtain ⟨g, hga, hal, hgt, hgo, hv, ho, hk⟩ := grant_zeroed hf.valid (hg habsent)
  have hpage : isPageAligned (A.palloc 1 true s).1 = true := by
    rw [isPageAligned_iff, hga]
    have := D.offset_aligned
    omega
  obtain ⟨hquiet, hroot, hpres, -⟩ := attach_quiet hf hr hp ht i habsent hgo hv ho hk
    (fun a ha => fill_inside _ _ _ _ _ ha)
  obtain ⟨hq, hd⟩ := orFlags_quiet hquiet.forest hr hp hroot i flags hpres
  rw [getOrAllocTable, if_neg (pointer_ne_zero f hft), if_pos habsent] at h0
  dsimp only at h0
  rw [if_neg (by simp [hg habsent, hpage]), hga, physical_pointer] at h0
  exact absurd h0 (hq.forest.node_ne_zero hr (by simp; omega) hd)

theorem vmap_granted (hf : Forest C roots shared s) {r : ℕ} (hr : r ∈ roots) {x : Mapping}
    (hg : VmapGranted A D.hhdmOffset r x s) :
    (vmap A D.hhdmOffset r x.virt x.phys x.flags s).1 = 0 := by
  obtain ⟨hg3, hg2, hg1⟩ := hg
  have h3 := getOrAllocTable_granted hf hr (p := []) (by decide) rfl (ix x.virt pml4Shift)
    x.flags hg3
  obtain ⟨hq3, hd3⟩ := getOrAllocTable_quiet (A := A) hf hr (p := []) (by decide) rfl
    (ix x.virt pml4Shift) x.flags
  have h2 := getOrAllocTable_granted hq3.forest hr (p := [ix x.virt pml4Shift]) (by simp) (hd3 h3)
    (ix x.virt pml3Shift) x.flags hg2
  obtain ⟨hq2, hd2⟩ := getOrAllocTable_quiet (A := A) hq3.forest hr (p := [ix x.virt pml4Shift])
    (by simp) (hd3 h3) (ix x.virt pml3Shift) x.flags
  have h1 := getOrAllocTable_granted hq2.forest hr
    (p := [ix x.virt pml3Shift, ix x.virt pml4Shift]) (by simp) (hd2 h2) (ix x.virt pml2Shift)
    x.flags hg1
  have hr0 := hf.root_ne_zero hr
  dsimp only [ix] at h3 h2 h1
  rw [vmap, if_neg hr0]
  dsimp only
  rw [if_neg h3, if_neg h2, if_neg h1]

end Granted

/-- The page map `pm` after the mappings `xs`. -/
structure Mapped (C : Contract D A) (pm : ℕ) (xs : List Mapping) (s : Phys σ) : Prop where
  forest : Forest C {pm} ∅ s
  inner : Inner D {pm} s.mem
  leaf : ∀ v, leafEntry D s.mem pm v =
    ((lastWrite Mapping.page (pageNumber v) xs).map Mapping.entry).getD 0

variable {pm : ℕ} {xs ys : List Mapping}

theorem mapped_zeroed (C : Contract D A) (hv : C.Valid s) {f : ℕ} (hf : f ∈ C.owned s)
    (hz : ∀ a ∈ frame D f, s.mem a = 0) : Mapped C (D.hhdmOffset+f) [] s where
  forest := (forest_zeroed C ∅ hv hf hz).1
  inner := (start_inv C hv hf hz).inner
  leaf := (forest_zeroed C ∅ hv hf hz).2

theorem Mapped.write (h : Mapped C pm xs s) {x : Mapping} (hlt : x.entry < 2^64)
    (hg : VmapGranted A D.hhdmOffset pm x s) :
    Mapped C pm (xs ++ [x]) (vmap A D.hhdmOffset pm x.virt x.phys x.flags s).2 := by
  have hok := vmap_granted h.forest rfl hg
  rcases vmap_effect h.forest rfl x.virt x.phys x.flags hlt with ⟨hfail, -⟩ | ⟨-, hw⟩
  · rw [hok] at hfail
    exact absurd hfail (by decide)
  · refine ⟨hw.forest, vmap_inner h.forest h.inner rfl x.virt x.phys x.flags, fun v => ?_⟩
    rw [lastWrite_append, lastWrite, lastWrite, Option.none_or, Mapping.page]
    by_cases hv : pageNumber v = pageNumber x.virt
    · rw [if_pos hv.symm, Option.some_or, leafEntry_page hv, hw.here]
      rfl
    · rw [if_neg (Ne.symm hv), Option.none_or, hw.elsewhere pm rfl v hv, h.leaf]

theorem Mapped.mapAll (h : Mapped C pm xs s) (hlt : ∀ x ∈ ys, x.entry < 2^64)
    (hg : AllGranted A D.hhdmOffset pm ys s) :
    Mapped C pm (xs ++ ys) (mapAll A D.hhdmOffset pm ys s) := by
  induction ys generalizing xs s with
  | nil =>
    rw [List.append_nil]
    exact h
  | cons y ys ih =>
    have hstep := h.write (hlt y List.mem_cons_self) hg.1
    have hrest := ih hstep (fun x hx => hlt x (List.mem_cons_of_mem _ hx)) hg.2
    rwa [List.append_assoc] at hrest

section Reading

theorem Mapped.absent (h : Mapped C pm xs s) {v : ℕ} (hno : ∀ x ∈ xs, x.page ≠ pageNumber v) :
    pageWalk D.hhdmOffset s.mem v walkShifts pm = none := by
  have hwalk := effective_walk h.inner (r := pm) rfl v
  rw [h.leaf, (lastWrite_none Mapping.page).mpr hno, Option.map_none, Option.getD_none,
    if_pos (Nat.zero_and _)] at hwalk
  exact Option.map_eq_none_iff.mp hwalk

theorem Mapped.untranslated (h : Mapped C pm xs s) {v : ℕ}
    (hno : ∀ x ∈ xs, x.page ≠ pageNumber v) : virtToPhys D.hhdmOffset s.mem pm v = 0 := by
  rw [virtToPhys_leaf h.forest rfl, h.leaf, (lastWrite_none Mapping.page).mpr hno, Option.map_none,
    Option.getD_none, if_pos (Nat.zero_and _)]

theorem Mapped.present (h : Mapped C pm xs s) {v : ℕ} {x : Mapping} (hx : x ∈ xs)
    (hpage : x.page = pageNumber v) (hflags : ∀ y ∈ xs, y.flags &&& vmmPresent ≠ 0) :
    (pageWalk D.hhdmOffset s.mem v walkShifts pm).isSome = true := by
  obtain ⟨y, hy⟩ := exists_lastWrite Mapping.page hx hpage
  have hwalk := effective_walk h.inner (r := pm) rfl v
  rw [h.leaf, hy, Option.map_some, Option.getD_some, Mapping.entry,
    if_neg (or_one_bit _ _ _ (hflags y (lastWrite_mem _ hy).1))] at hwalk
  rw [← Option.isSome_map, hwalk]
  rfl

/-- All mappings of a page that come last agree on its frame. -/
theorem Mapped.translates (h : Mapped C pm xs s) {v phys : ℕ} {x : Mapping} (hx : x ∈ xs)
    (hpage : x.page = pageNumber v)
    (hall : ∀ y, lastWrite Mapping.page (pageNumber v) xs = some y →
      y.phys = phys ∧ Proper (.vmap v y.phys y.flags)) :
    virtToPhys D.hhdmOffset s.mem pm v = phys := by
  obtain ⟨y, hy⟩ := exists_lastWrite Mapping.page hx hpage
  obtain ⟨rfl, hproper⟩ := hall y hy
  rw [virtToPhys_leaf h.forest rfl, h.leaf, hy, Option.map_some, Option.getD_some, Mapping.entry,
    if_neg hproper.entry_present, hproper.entry_mask]

theorem Mapped.permits (h : Mapped C pm xs s) {v : ℕ} {y : Mapping}
    (hy : lastWrite Mapping.page (pageNumber v) xs = some y)
    (hproper : Proper (.vmap v y.phys y.flags)) :
    (pageWalk D.hhdmOffset s.mem v walkShifts pm).map effective = some (requested y.flags) := by
  rw [effective_walk h.inner rfl, h.leaf, hy, Option.map_some, Option.getD_some, Mapping.entry,
    if_neg hproper.entry_present, requested_entry hproper]

end Reading

end Emk.PagingWrites
