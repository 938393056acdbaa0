import Emk.PmmSingle

/-!
# The pages that are free after boot

The three passes of `pmm_init` agree with each other: the pages that end up
clear are the usable pages of the memory map as the boot loader gave it,
without the pages that the bitmap took, and the counter counts exactly these.
-/

set_option autoImplicit false

namespace Emk.PmmBoot
open Emk.ByteMemory Emk.MachineWord Emk.Pmm Emk.PmmOwnership

theorem placeBitmap_room {size : ℕ} {es : List MemmapEntry}
    (h : ∃ e ∈ es, e.type = .usable ∧ size ≤ e.length) :
    ∃ base, (placeBitmap size es).1 = some base := by
  induction es with
  | nil =>
    obtain ⟨e, he, -⟩ := h
    exact absurd he List.not_mem_nil
  | cons e es ih =>
    rw [placeBitmap]
    split_ifs with hfits
    · exact ⟨e.base, rfl⟩
    · obtain ⟨f, hf, hfu, hlen⟩ := h
      rcases List.mem_cons.mp hf with rfl | hf
      · exact absurd ⟨hfu, hlen⟩ hfits
      · exact ih ⟨f, hf, hfu, hlen⟩

/-- What is left of the memory map lacks exactly the pages of the bitmap. -/
theorem inUsable_left {memmap : List MemmapEntry} {base : ℕ} (hmap : WholePages memmap)
    (hroom : (placeBitmap (bitmapSizeFor memmap) memmap).1 = some base) (p : ℕ) :
    InUsable (placeBitmap (bitmapSizeFor memmap) memmap).2 p ↔
      InUsable memmap p ∧ ¬(base ≤ 4096*p ∧ 4096*p < base+bitmapSizeFor memmap) := by
  obtain ⟨es₁, e, es₂, hes, hu, hlen, rfl, hleft⟩ := placeBitmap_some _ _ _ hroom
  have hend := (hmap.pages e (by simp [hes]) hu).2.2
  have hw : wrap (e.base+bitmapSizeFor memmap) = e.base+bitmapSizeFor memmap :=
    wrap_of_lt (by omega)
  have hpair := hmap.disjoint
  rw [hes, List.pairwise_append, List.pairwise_cons] at hpair
  obtain ⟨-, ⟨hafter, -⟩, hbefore⟩ := hpair
  have hother : ∀ f, f ∈ es₁ ∨ f ∈ es₂ → f.type = .usable →
      f.base+f.length ≤ e.base ∨ e.base+e.length ≤ f.base := by
    rintro f (hf | hf) hfu
    · exact hbefore f hf e (by simp) hfu hu
    · exact (hafter f hf hu hfu).symm
  have hmem : ∀ f, f ∈ memmap ↔ f = e ∨ f ∈ es₁ ∨ f ∈ es₂ := by
    intro f
    rw [hes, List.mem_append, List.mem_cons]
    tauto
  rw [hleft, hw]
  constructor
  · rintro ⟨f, hf, hfu, hlo, hhi⟩
    rcases List.mem_append.mp hf with hf | hf
    · have := hother f (.inl hf) hfu
      exact ⟨⟨f, (hmem f).mpr (.inr (.inl hf)), hfu, hlo, hhi⟩, by omega⟩
    rcases List.mem_cons.mp hf with rfl | hf
    · dsimp only at hlo hhi
      exact ⟨⟨e, (hmem e).mpr (.inl rfl), hu, by omega, by omega⟩, by omega⟩
    · have := hother f (.inr hf) hfu
      exact ⟨⟨f, (hmem f).mpr (.inr (.inr hf)), hfu, hlo, hhi⟩, by omega⟩
  · rintro ⟨⟨f, hf, hfu, hlo, hhi⟩, hout⟩
    rcases (hmem f).mp hf with rfl | hf | hf
    · exact ⟨_, List.mem_append_right _ List.mem_cons_self, hu, by dsimp only; omega,
        by dsimp only; omega⟩
    · exact ⟨f, List.mem_append_left _ hf, hfu, hlo, hhi⟩
    · exact ⟨f, List.mem_append_right _ (List.mem_cons_of_mem _ hf), hfu, hlo, hhi⟩

/-- On every memory map of whole, separate pages with room for the bitmap,
`pmm_init` marks as free exactly the usable pages that the bitmap left, counts
them, and starts with an empty cache. -/
theorem pmm_init_free_pages (hhdmOffset : ℕ) (memmap : List MemmapEntry) (m : Mem)
    (hmap : WholePages memmap)
    (hroom : ∃ e ∈ memmap, e.type = .usable ∧ bitmapSizeFor memmap ≤ e.length)
    (hcover : bitmapPagesFor memmap ≤ 8*bitmapSizeFor memmap) :
    let s := (pmmInit hhdmOffset memmap m).1
    ∃ base, s.pmm.bitmap = wrap (base+hhdmOffset) ∧
      (∃ e ∈ memmap, e.type = .usable ∧ e.base = base ∧ s.pmm.bitmapSize ≤ e.length) ∧
      (∀ p < s.pmm.bitmapPages, bitmapGet s.mem s.pmm.bitmap p = false ↔
        InUsable memmap p ∧ ¬(base ≤ 4096*p ∧ 4096*p < base+s.pmm.bitmapSize)) ∧
      s.pmm.freePages = (clearPages s).card ∧ s.pmm.cacheIndex = 0 := by
  classical
  obtain ⟨base, hplace⟩ := placeBitmap_room hroom
  have hinit := pmmInit_eq hhdmOffset base memmap m hplace
  have hcounted := init_counted hhdmOffset memmap m base hmap hplace hcover
  have hclear := init_clear hhdmOffset memmap m base hmap hplace hcover
  refine ⟨base, by rw [hinit], ?_, fun p hp => ?_, hcounted, by rw [hinit]⟩
  · obtain ⟨es₁, e, es₂, hes, hu, hlen, hbase, -⟩ := placeBitmap_some _ _ _ hplace
    rw [hinit]
    exact ⟨e, by simp [hes], hu, hbase, hlen⟩
  · have hlt : p < bitmapPagesFor memmap := by rwa [hinit] at hp
    have hbit := Finset.ext_iff.mp hclear p
    rw [mem_clearPages, and_iff_right hp, Finset.mem_filter, Finset.mem_range, and_iff_right hlt,
      inUsable_left hmap hplace p] at hbit
    rw [hbit, hinit]

theorem smallMap_whole : WholePages smallMap := smallMap_limine.wholePages

theorem pmm_init_free_pages_small :
    let s := (pmmInit smallLayout.hhdmOffset smallMap (fun _ => 0)).1
    ∃ base, s.pmm.bitmap = wrap (base+smallLayout.hhdmOffset) ∧
      (∃ e ∈ smallMap, e.type = .usable ∧ e.base = base ∧ s.pmm.bitmapSize ≤ e.length) ∧
      (∀ p < s.pmm.bitmapPages, bitmapGet s.mem s.pmm.bitmap p = false ↔
        InUsable smallMap p ∧ ¬(base ≤ 4096*p ∧ 4096*p < base+s.pmm.bitmapSize)) ∧
      s.pmm.freePages = (clearPages s).card ∧ s.pmm.cacheIndex = 0 :=
  pmm_init_free_pages smallLayout.hhdmOffset smallMap (fun _ => 0) smallMap_whole
    (by decide) (by decide)

end Emk.PmmBoot
