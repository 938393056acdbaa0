import Emk.PagingShare
import Emk.ReferenceAllocator
import Emk.SpawnMapping

/-!
# Copying a range of bytes

`map_range_to_pagemap` steps through its range from the first byte, a page at
a time. It looks at as many pages as fit into the size of the range, rounded
up; a range that reaches into one page more loses that page, and the offset
never passes a size in the last page of the address space.
-/

set_option autoImplicit false

namespace Emk.SpawnRange
open Emk.ByteMemory Emk.MachineWord Emk.DirectMap Emk.PageAllocator Emk.Paging
open Emk.PagingForest Emk.ReferenceAllocator Emk.Sched
open Emk.Vmm (rounds mapPages)

variable {σ : Type}

section Code
variable (A : Ops σ) (hhdmOffset dest src start size flags : ℕ)

/-- The loop from `offset` on. -/
def mapRangeLoop : ℕ → ℕ → Phys σ → Option (Phys σ)
  | 0, _, _ => none
  | fuel+1, offset, s =>
    if offset < size then
      let phys := virtToPhys hhdmOffset s.mem src (wrap (start+offset))
      mapRangeLoop fuel (wrap (offset+4096))
        (if phys ≠ 0 then (vmap A hhdmOffset dest (wrap (start+offset)) phys flags s).2 else s)
    else some s

def mapRange (s : Phys σ) : Option (Phys σ) :=
  mapRangeLoop A hhdmOffset dest src start size flags rounds 0 s

/-- No `vmap` call of the loop fails. -/
def CopiesAll : ℕ → ℕ → Phys σ → Prop
  | 0, _, _ => True
  | n+1, i, s =>
    let phys := virtToPhys hhdmOffset s.mem src (wrap (start+4096*i))
    let r := vmap A hhdmOffset dest (wrap (start+4096*i)) phys flags s
    (phys ≠ 0 → r.1 = 0) ∧ CopiesAll n (i+1) (if phys ≠ 0 then r.2 else s)

instance decidableCopiesAll : ∀ (n i : ℕ) (s : Phys σ),
    Decidable (CopiesAll A hhdmOffset dest src start flags n i s)
  | 0, _, _ => .isTrue trivial
  | n+1, i, _ => @instDecidableAnd _ _ _ (decidableCopiesAll n (i+1) _)

end Code

/-- The number of pages the loop looks at. -/
def visits (size : ℕ) : ℕ := (size+4095)/4096

section Loop
variable {A : Ops σ} {hhdmOffset dest src start size flags : ℕ}

/-- The loop is the one over page indices. -/
theorem mapRangeLoop_eq (hsize : size ≤ 2^64-4096) {fuel n i : ℕ} (hn : i+n = visits size)
    (hfuel : n < fuel) (s : Phys σ) :
    mapRangeLoop A hhdmOffset dest src start size flags fuel (4096*i) s =
      some (mapRangeToPagemap A hhdmOffset dest src start flags n i s) := by
  rw [visits] at hn
  induction n generalizing fuel i s with
  | zero =>
    obtain ⟨fuel, rfl⟩ := Nat.exists_eq_add_one.mpr hfuel
    rw [mapRangeLoop, if_neg (by omega), mapRangeToPagemap]
  | succ n ih =>
    obtain ⟨fuel, rfl⟩ := Nat.exists_eq_add_one.mpr (show 0 < fuel by omega)
    have hnext : wrap (4096*i+4096) = 4096*(i+1) := by
      rw [wrap_of_lt (by omega)]
      omega
    rw [mapRangeLoop, if_pos (by omega), mapRangeToPagemap]
    dsimp only
    rw [hnext]
    exact ih (by omega) (by omega) _

theorem mapRange_eq (hsize : size ≤ 2^64-4096) (s : Phys σ) :
    mapRange A hhdmOffset dest src start size flags s =
      some (mapRangeToPagemap A hhdmOffset dest src start flags (visits size) 0 s) := by
  have hfuel : visits size < rounds := by
    rw [visits, rounds]
    omega
  exact mapRangeLoop_eq hsize (Nat.zero_add _) hfuel s

/-- Beyond the last page boundary of the address space the offset wraps below
the size for ever. -/
theorem mapRange_loops (hsize : 2^64-4096 < size) (fuel i : ℕ) (s : Phys σ) :
    mapRangeLoop A hhdmOffset dest src start size flags fuel (wrap (4096*i)) s = none := by
  induction fuel generalizing i s with
  | zero => rfl
  | succ fuel ih =>
    have hlt : wrap (4096*i) < size := by
      rw [wrap]
      omega
    have hnext : wrap (wrap (4096*i)+4096) = wrap (4096*(i+1)) := by
      rw [wrap, wrap, wrap]
      omega
    rw [mapRangeLoop, if_pos hlt]
    dsimp only
    rw [hnext]
    exact ih (i+1) _

end Loop

variable {D : Layout} {A : Ops σ} {C : Contract D A} {roots : Set ℕ} {shared : Set (Fin 512)}
  {s : Phys σ} {K P flags : ℕ}

theorem vmap_translation (hf : Forest C roots shared s) (hK : K ∈ roots) (hP : P ∈ roots)
    (hflags : EntryFlags flags) {v w : ℕ} (hpage : pageNumber w = pageNumber v)
    (hok : (vmap A D.hhdmOffset P v (translation D s.mem K v) flags s).1 = 0) :
    translation D (vmap A D.hhdmOffset P v (translation D s.mem K v) flags s).2.mem P w =
      translation D s.mem K w := by
  obtain ⟨ha, hlt⟩ := translation_frame hf hK v
  have he : translation D s.mem K v ||| flags < 2^64 := Nat.or_lt_two_pow (by omega) hflags.lt
  rcases vmap_effect (A := A) hf hP v (translation D s.mem K v) flags he with
    ⟨hfail, -⟩ | ⟨-, hw⟩
  · rw [hok] at hfail
    exact absurd hfail (by decide)
  · rw [translation_page hw.forest hP hpage, translation_page hf hK hpage]
    exact hflags.translation hw.forest hP ha hlt hw.here

/-- Every page the loop looks at is copied. -/
theorem mapRange_visited (hf : Forest C roots shared s) (hK : K ∈ roots) (hP : P ∈ roots)
    (hflags : EntryFlags flags) (start n i : ℕ)
    (hall : CopiesAll A D.hhdmOffset P K start flags n i s) {v : ℕ}
    (hv : pageNumber v ∈ pagesOf start i n) (hk : translation D s.mem K v ≠ 0) :
    translation D (mapRangeToPagemap A D.hhdmOffset P K start flags n i s).mem P v =
      translation D s.mem K v := by
  induction n generalizing i s with
  | zero =>
    obtain ⟨j, h1, h2, -⟩ := hv
    omega
  | succ n ih =>
    obtain ⟨hok, hrest⟩ := hall
    rw [mapRangeToPagemap]
    have hstep := mapRange_copied (A := A) hf hK hP hflags start 1 i
    rw [mapRangeToPagemap, mapRangeToPagemap] at hstep
    have hlater := mapRange_copied (A := A) hstep.forest hK hP hflags start n (i+1)
    obtain ⟨j, hj1, hj2, hj⟩ := hv
    by_cases hji : j = i
    · rw [hji] at hj
      have hki : translation D s.mem K (wrap (start+4096*i)) ≠ 0 := by
        rwa [← translation_page hf hK hj]
      have hcopied := vmap_translation hf hK hP hflags hj (hok hki)
      rw [if_pos hki] at hlater hstep ⊢
      rcases hlater.either v with hold | hnew
      · exact hold.trans hcopied
      · exact hnew.trans (hstep.kernel v)
    · have hkeep := hstep.kernel v
      rw [← hkeep]
      exact ih hstep.forest (i+1) hrest ⟨j, by omega, by omega, hj⟩ (by rwa [hkeep])

/-- All pages of the range that the source translates are translated alike in
the destination, and nothing else has changed. -/
structure WholeRange (D : Layout) (roots : Set ℕ) (K P start size : ℕ) (s s' : Phys σ) : Prop where
  copied : ∀ v, start ≤ v → v < start+size → translation D s.mem K v ≠ 0 →
    translation D s'.mem P v = translation D s.mem K v
  source : ∀ v, translation D s'.mem K v = translation D s.mem K v
  elsewhere : ∀ r ∈ roots, ∀ v,
    (∀ w, start ≤ w → w < start+size → pageNumber w ≠ pageNumber v) →
      translation D s'.mem r v = translation D s.mem r v

theorem mem_visited_iff {start size v : ℕ} (h1 : start ≤ v) (h2 : v < start+size) :
    pageNumber v ∈ pagesOf start 0 (visits size) ↔
      v/4096 < start/4096+visits size ∨ 2^36 ≤ visits size := by
  have hsize : v/4096 ≤ start/4096+visits size := by
    rw [visits]
    omega
  constructor
  · rintro ⟨j, -, hj, he⟩
    rw [pageNumber_wrap, pageNumber_add, pageNumber] at he
    omega
  · intro h
    by_cases hv : v/4096 < start/4096+visits size
    · refine ⟨v/4096-start/4096, Nat.zero_le _, by omega, ?_⟩
      rw [pageNumber_wrap, pageNumber_add, pageNumber]
      congr 1
      omega
    · refine ⟨visits size-2^36, Nat.zero_le _, by omega, ?_⟩
      rw [pageNumber_wrap, pageNumber_add, pageNumber]
      omega

theorem visited_of_pagesOf {start size q : ℕ} (hq : q ∈ pagesOf start 0 (visits size)) :
    ∃ w, start ≤ w ∧ w < start+size ∧ pageNumber w = q := by
  obtain ⟨j, -, hj, rfl⟩ := hq
  rw [visits] at hj
  refine ⟨start+4096*j, by omega, by omega, ?_⟩
  rw [pageNumber_wrap]

/-- The loop returns and has copied the whole range exactly when the offset
can pass the size, and the last byte of the range lies in a page that is
visited, that the source does not map, or that the destination maps alike
already. -/
theorem mapRange_copies_iff (hf : Forest C roots shared s) (hK : K ∈ roots) (hP : P ∈ roots)
    (hflags : EntryFlags flags) (start size : ℕ)
    (hall : CopiesAll A D.hhdmOffset P K start flags (visits size) 0 s) :
    (∃ s', mapRange A D.hhdmOffset P K start size flags s = some s' ∧
      WholeRange D roots K P start size s s') ↔
    size ≤ 2^64-4096 ∧ (start % 4096+(size-1) % 4096 < 4096 ∨ 2^36 ≤ visits size ∨
      translation D s.mem K (start+size-1) = 0 ∨
      translation D s.mem P (start+size-1) = translation D s.mem K (start+size-1)) := by
  have hcopied := mapRange_copied (A := A) hf hK hP hflags start (visits size) 0
  have hnumber : visits size = (size+4095)/4096 := rfl
  constructor
  · rintro ⟨s', hrun, hwhole⟩
    by_cases hsize : size ≤ 2^64-4096
    · refine ⟨hsize, ?_⟩
      rw [mapRange_eq hsize] at hrun
      obtain rfl := Option.some.inj hrun
      by_contra! hno
      obtain ⟨hoffset, hmany, hsource, hdest⟩ := hno
      have hlast : pageNumber (start+size-1) ∉ pagesOf start 0 (visits size) := by
        rw [mem_visited_iff (by omega) (by omega)]
        omega
      have hkeep := translation_leaf hf hcopied.forest hP (hcopied.elsewhere P hP _ hlast)
      exact hdest (hkeep.symm.trans (hwhole.copied _ (by omega) (by omega) hsource))
    · have hloops : mapRangeLoop A D.hhdmOffset P K start size flags rounds (wrap (4096*0)) s =
          none := mapRange_loops (not_le.mp hsize) rounds 0 s
      rw [mapRange] at hrun
      exact absurd (hloops.symm.trans hrun) (by simp)
  · rintro ⟨hsize, hcond⟩
    refine ⟨_, mapRange_eq hsize s, fun v h1 h2 hk => ?_, hcopied.kernel, fun r hr v hv => ?_⟩
    · by_cases hv : pageNumber v ∈ pagesOf start 0 (visits size)
      · exact mapRange_visited hf hK hP hflags start _ 0 hall hv hk
      · -- only the page of the last byte is left out
        have hkeep := translation_leaf hf hcopied.forest hP (hcopied.elsewhere P hP v hv)
        rw [mem_visited_iff h1 h2] at hv
        have hpage : pageNumber v = pageNumber (start+size-1) := by
          rw [pageNumber, pageNumber]
          omega
        rw [translation_page hf hK hpage] at hk ⊢
        rw [hkeep, translation_page hf hP hpage]
        rcases hcond with hoffset | hmany | hsource | hdest
        · omega
        · omega
        · exact absurd hsource hk
        · exact hdest
    · refine translation_leaf hf hcopied.forest hr (hcopied.elsewhere r hr v (fun hin => ?_))
      obtain ⟨w, h1, h2, hw⟩ := visited_of_pagesOf hin
      exact hv w h1 h2 hw

/-- A kernel with the pages `0x8000` and `0x9000` mapped, and a new page map. -/
def copyPhys : ℕ × Phys (List ℕ) :=
  (pmnew smallOps smallLayout.hhdmOffset (mapPages smallOps smallLayout.hhdmOffset
    smallLayout.hhdmOffset 0x8000 0x8000 0b11 2 0 smallPhys)).getD (0, smallPhys)

theorem copyPhys_forest : ∃ Q,
    Forest smallContract.toContract (insert copyPhys.1 {smallLayout.hhdmOffset}) Q copyPhys.2 := by
  have hzero := (forest_zeroed smallContract.toContract ∅ smallPhys_valid smallPhys_owned
    (fun _ _ => rfl)).1
  have hmap := (mapPages_range (A := smallOps) hzero rfl (show 0b11 < 2^64 by decide) 0x8000 0x8000
    2 0).forest
  have hnew : (pmnew smallOps smallLayout.hhdmOffset (mapPages smallOps smallLayout.hhdmOffset
      smallLayout.hhdmOffset 0x8000 0x8000 0b11 2 0 smallPhys)).isSome := by decide +kernel
  obtain ⟨⟨P, w⟩, hw⟩ := Option.isSome_iff_exists.mp hnew
  have heq : copyPhys = (P, w) := by rw [copyPhys, hw, Option.getD_some]
  rw [heq]
  exact ⟨_, (pmnew_forest hmap rfl hw).1⟩

theorem mapRange_copies_iff_small :
    ∃ s', mapRange smallOps smallLayout.hhdmOffset copyPhys.1 smallLayout.hhdmOffset 0x8F00 0x1200
        0b11 copyPhys.2 = some s' ∧
      WholeRange smallLayout (insert copyPhys.1 {smallLayout.hhdmOffset}) smallLayout.hhdmOffset
        copyPhys.1 0x8F00 0x1200 copyPhys.2 s' := by
  obtain ⟨Q, hf⟩ := copyPhys_forest
  exact (mapRange_copies_iff hf (Set.mem_insert_of_mem _ rfl) (Set.mem_insert _ _)
    ⟨by decide, by decide, by decide⟩ 0x8F00 0x1200 (by decide +kernel)).mpr (by decide +kernel)

/-- Of a range of `0x200` bytes across a page boundary the second page is
not copied. -/
theorem mapRange_loses_page :
    ∃ s', mapRange smallOps smallLayout.hhdmOffset copyPhys.1 smallLayout.hhdmOffset 0x8F00 0x200
        0b11 copyPhys.2 = some s' ∧
      ¬ WholeRange smallLayout (insert copyPhys.1 {smallLayout.hhdmOffset}) smallLayout.hhdmOffset
        copyPhys.1 0x8F00 0x200 copyPhys.2 s' := by
  have hrun : (mapRange smallOps smallLayout.hhdmOffset copyPhys.1 smallLayout.hhdmOffset 0x8F00
      0x200 0b11 copyPhys.2).map (fun s' => translation smallLayout s'.mem copyPhys.1 0x9000) =
      some 0 := by decide +kernel
  obtain ⟨s', heq, hlast⟩ := Option.map_eq_some_iff.mp hrun
  refine ⟨s', heq, fun hwhole => ?_⟩
  have hsource : translation smallLayout copyPhys.2.mem smallLayout.hhdmOffset 0x9000 = 0x9000 := by
    decide +kernel
  have hcopied := hwhole.copied 0x9000 (by decide) (by decide) (by rw [hsource]; decide)
  rw [hlast, hsource] at hcopied
  exact absurd hcopied (by decide)

end Emk.SpawnRange
