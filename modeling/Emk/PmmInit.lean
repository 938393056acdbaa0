import Emk.PmmBitmap

/-!
# The state that the page allocator starts from

The memory map comes from the boot protocol: usable entries are made of
whole pages inside physical memory and do not overlap. After `pmm_init` a
page is clear exactly when it lies in a usable entry of the map that is left
once the bitmap has taken its pages, so the bitmap never describes itself
as free.
-/

set_option autoImplicit false

namespace Emk.Pmm
open Emk.ByteMemory Emk.MachineWord Emk.DirectMap Emk.PageAllocator

structure LimineMap (D : Layout) (memmap : List MemmapEntry) : Prop where
  pages : ∀ e ∈ memmap, e.type = .usable →
    e.base % 4096 = 0 ∧ e.length % 4096 = 0 ∧ e.base+e.length ≤ D.top
  disjoint : memmap.Pairwise (fun e f => e.type = .usable → f.type = .usable →
    e.base+e.length ≤ f.base ∨ f.base+f.length ≤ e.base)

/-- Usable entries are made of whole pages below the end of the address space
and do not overlap. -/
structure WholePages (memmap : List MemmapEntry) : Prop where
  pages : ∀ e ∈ memmap, e.type = .usable →
    e.base % 4096 = 0 ∧ e.length % 4096 = 0 ∧ e.base+e.length < 2^64
  disjoint : memmap.Pairwise (fun e f => e.type = .usable → f.type = .usable →
    e.base+e.length ≤ f.base ∨ f.base+f.length ≤ e.base)

theorem LimineMap.wholePages {D : Layout} {memmap : List MemmapEntry} (h : LimineMap D memmap) :
    WholePages memmap := by
  have ht := D.top_le_address
  refine ⟨fun e he hu => ?_, h.disjoint⟩
  obtain ⟨hb, hl, hle⟩ := h.pages e he hu
  exact ⟨hb, hl, by omega⟩

def InUsable (memmap : List MemmapEntry) (p : ℕ) : Prop :=
  ∃ e ∈ memmap, e.type = .usable ∧ e.base ≤ 4096*p ∧ 4096*p < e.base+e.length

theorem inUsable_cons (e : MemmapEntry) (es : List MemmapEntry) (p : ℕ) :
    InUsable (e::es) p ↔
      (e.type = .usable ∧ e.base ≤ 4096*p ∧ 4096*p < e.base+e.length) ∨ InUsable es p := by
  simp [InUsable]

def usableCount (es : List MemmapEntry) : ℕ :=
  (es.map (fun e => if e.type = .usable then e.length/4096 else 0)).sum

theorem usableCount_cons (e : MemmapEntry) (es : List MemmapEntry) :
    usableCount (e::es) = (if e.type = .usable then e.length/4096 else 0)+usableCount es := by
  simp [usableCount]

theorem usableCount_append (es fs : List MemmapEntry) :
    usableCount (es ++ fs) = usableCount es+usableCount fs := by
  simp [usableCount]

theorem scanMemmap_free (high free : ℕ) (es : List MemmapEntry) (hfree : free < 2^64) :
    (scanMemmap high free es).2 = wrap (free+usableCount es) := by
  induction es generalizing high free with
  | nil => exact (wrap_of_lt hfree).symm
  | cons e es ih =>
    rw [scanMemmap, usableCount_cons]
    by_cases hu : e.type = .usable
    · rw [if_pos hu, if_pos hu, ih _ _ (wrap_lt _), wrap, wrap, wrap]
      omega
    · rw [if_neg hu, if_neg hu, ih _ _ hfree, Nat.zero_add]

theorem scanMemmap_top (high free : ℕ) (es : List MemmapEntry)
    (he : ∀ e ∈ es, e.type = .usable → e.base+e.length < 2^64) :
    high ≤ (scanMemmap high free es).1 ∧
      ∀ e ∈ es, e.type = .usable → e.base+e.length ≤ (scanMemmap high free es).1 := by
  induction es generalizing high free with
  | nil => exact ⟨le_refl _, by simp⟩
  | cons e es ih =>
    have hes : ∀ f ∈ es, f.type = .usable → f.base+f.length < 2^64 :=
      fun f hf => he f (by simp [hf])
    rw [scanMemmap]
    by_cases hu : e.type = .usable
    · rw [if_pos hu]
      have hb := he e (by simp) hu
      have hw : wrap (e.base+e.length) = e.base+e.length := wrap_of_lt hb
      dsimp only
      rw [hw]
      obtain ⟨hle, hall⟩ := ih (if e.base+e.length > high then e.base+e.length else high)
        (wrap (free+e.length/4096)) hes
      have hmax : high ≤ (if e.base+e.length > high then e.base+e.length else high) ∧
          e.base+e.length ≤ (if e.base+e.length > high then e.base+e.length else high) := by
        split_ifs <;> omega
      refine ⟨le_trans hmax.1 hle, fun f hf hfu => ?_⟩
      rcases List.mem_cons.mp hf with rfl | hf
      · exact le_trans hmax.2 hle
      · exact hall f hf hfu
    · rw [if_neg hu]
      obtain ⟨hle, hall⟩ := ih high free hes
      refine ⟨hle, fun f hf hfu => ?_⟩
      rcases List.mem_cons.mp hf with rfl | hf
      · exact absurd hfu hu
      · exact hall f hf hfu

theorem scanMemmap_high (D : Layout) (high free : ℕ) (es : List MemmapEntry)
    (he : ∀ e ∈ es, e.type = .usable → e.base+e.length ≤ D.top) (hh : high ≤ D.top) :
    (scanMemmap high free es).1 ≤ D.top := by
  induction es generalizing high free with
  | nil => exact hh
  | cons e es ih =>
    have ht : ∀ f ∈ es, f.type = .usable → f.base+f.length ≤ D.top :=
      fun f hf => he f (by simp [hf])
    rw [scanMemmap]
    split_ifs with hu
    · apply ih _ _ ht
      have hb := he e (by simp) hu
      have hw : wrap (e.base+e.length) ≤ e.base+e.length := Nat.mod_le _ _
      split_ifs <;> omega
    · exact ih _ _ ht hh

theorem bitmapPagesFor_top (D : Layout) (memmap : List MemmapEntry) (h : LimineMap D memmap) :
    4096*bitmapPagesFor memmap ≤ D.top := by
  have hb := scanMemmap_high D 0 0 memmap (fun e he hu => (h.pages e he hu).2.2) (Nat.zero_le _)
  rw [bitmapPagesFor]
  omega

theorem scanMemmap_lt (high free : ℕ) (es : List MemmapEntry) (hh : high < 2^64) :
    (scanMemmap high free es).1 < 2^64 := by
  induction es generalizing high free with
  | nil => exact hh
  | cons e es ih =>
    rw [scanMemmap]
    split_ifs with hu
    · have hw := wrap_lt (e.base+e.length)
      apply ih
      split_ifs <;> omega
    · exact ih _ _ hh

theorem bitmapPagesFor_lt (memmap : List MemmapEntry) : bitmapPagesFor memmap < 2^52 := by
  have hb := scanMemmap_lt 0 0 memmap (by decide)
  rw [bitmapPagesFor]
  omega

theorem bitmapSizeFor_eq (memmap : List MemmapEntry) :
    bitmapSizeFor memmap = (bitmapPagesFor memmap/8+4095)/4096*4096 := by
  have hb := bitmapPagesFor_lt memmap
  have hsum : wrap (bitmapPagesFor memmap/8+(4096-1)) = bitmapPagesFor memmap/8+4095 :=
    wrap_of_lt (by omega)
  rw [bitmapSizeFor, alignUp, divRoundUp, hsum, wrap_of_lt (by omega)]

theorem bitmapSizeFor_pages (memmap : List MemmapEntry) : bitmapSizeFor memmap % 4096 = 0 := by
  rw [bitmapSizeFor_eq, Nat.mul_mod_left]

/-- The entry that takes the bitmap, and what is left of it. -/
theorem placeBitmap_some (size base : ℕ) (es : List MemmapEntry)
    (h : (placeBitmap size es).1 = some base) :
    ∃ es₁ e es₂, es = es₁ ++ e::es₂ ∧ e.type = .usable ∧ size ≤ e.length ∧ e.base = base ∧
      (placeBitmap size es).2 =
        es₁ ++ { e with base := wrap (e.base+size), length := e.length-size }::es₂ := by
  induction es with
  | nil => simp [placeBitmap] at h
  | cons e es ih =>
    rw [placeBitmap] at h ⊢
    split_ifs at h ⊢ with hu
    · exact ⟨[], e, es, rfl, hu.1, hu.2, by simpa using h, rfl⟩
    · obtain ⟨es₁, f, es₂, rfl, hf, hl, hb, hr⟩ := ih h
      exact ⟨e::es₁, f, es₂, rfl, hf, hl, hb, by simp [hr]⟩

/-- The map that is left still consists of whole pages that do not overlap. -/
theorem placed_whole {memmap : List MemmapEntry} {base : ℕ} (h : WholePages memmap)
    (hroom : (placeBitmap (bitmapSizeFor memmap) memmap).1 = some base) :
    WholePages (placeBitmap (bitmapSizeFor memmap) memmap).2 ∧
      usableCount memmap = usableCount (placeBitmap (bitmapSizeFor memmap) memmap).2+
        bitmapSizeFor memmap/4096 ∧
      ∀ f ∈ (placeBitmap (bitmapSizeFor memmap) memmap).2, f.type = .usable →
        ∃ e ∈ memmap, e.type = .usable ∧ e.base ≤ f.base ∧ f.base+f.length ≤ e.base+e.length := by
  obtain ⟨es₁, e, es₂, hes, hu, hlen, rfl, hleft⟩ := placeBitmap_some _ _ _ hroom
  have hsize := bitmapSizeFor_pages memmap
  obtain ⟨hb, hl, ht⟩ := h.pages e (by simp [hes]) hu
  have hw : wrap (e.base+bitmapSizeFor memmap) = e.base+bitmapSizeFor memmap :=
    wrap_of_lt (by omega)
  have hpair := h.disjoint
  rw [hes, List.pairwise_append, List.pairwise_cons] at hpair
  obtain ⟨h1, ⟨h2, h3⟩, h4⟩ := hpair
  rw [hw] at hleft
  rw [hleft]
  refine ⟨⟨fun f hf hfu => ?_, ?_⟩, ?_, fun f hf hfu => ?_⟩
  · simp only [List.mem_append, List.mem_cons] at hf
    rcases hf with hf | rfl | hf
    · exact h.pages f (by simp [hes, hf]) hfu
    · dsimp only
      omega
    · exact h.pages f (by simp [hes, hf]) hfu
  · rw [List.pairwise_append, List.pairwise_cons]
    refine ⟨h1, ⟨fun f hf _ hfu => ?_, h3⟩, fun f hf g hg hfu hgu => ?_⟩
    · have := h2 f hf hu hfu
      dsimp only
      omega
    · rcases List.mem_cons.mp hg with rfl | hg
      · have := h4 f hf e (by simp) hfu hu
        dsimp only
        omega
      · exact h4 f hf g (by simp [hg]) hfu hgu
  · conv_lhs => rw [hes]
    rw [usableCount_append, usableCount_append, usableCount_cons, usableCount_cons, if_pos hu,
      if_pos hu]
    dsimp only
    omega
  · simp only [List.mem_append, List.mem_cons] at hf
    rcases hf with hf | rfl | hf
    · exact ⟨f, by simp [hes, hf], hfu, le_refl _, le_refl _⟩
    · refine ⟨e, by simp [hes], hu, ?_, ?_⟩ <;> dsimp only <;> omega
    · exact ⟨f, by simp [hes, hf], hfu, le_refl _, le_refl _⟩

theorem clearEntry_bit (bitmap bitmapPages last rounds j p : ℕ) (m : Mem)
    (hj : j % 4096 = 0) (hl : last+4096 ≤ 2^64) :
    bitmapGet (clearEntry bitmap bitmapPages last rounds j m) bitmap p = false ↔
      bitmapGet m bitmap p = false ∨
        (p < bitmapPages ∧ j ≤ 4096*p ∧ 4096*p < last ∧ 4096*p < j+4096*rounds) := by
  induction rounds generalizing j m with
  | zero => simp [clearEntry, show ¬(j ≤ 4096*p ∧ 4096*p < last ∧ 4096*p < j) by omega]
  | succ rounds ih =>
    rw [clearEntry]
    split_ifs with hlt hp
    · rw [wrap_of_lt (by omega), ih (j+4096) _ (by omega), bitmapGet_clear,
        Bool.and_eq_false_iff, Bool.not_eq_false', decide_eq_true_iff, or_assoc]
      refine or_congr_right ?_
      omega
    · rw [wrap_of_lt (by omega), ih (j+4096) _ (by omega)]
      refine or_congr_right ?_
      omega
    · simp [show ¬(j ≤ 4096*p ∧ 4096*p < last ∧ 4096*p < j+4096*(rounds+1)) by omega]

theorem clearUsable_bit (bitmap bitmapPages p : ℕ) (es : List MemmapEntry) (m : Mem)
    (he : ∀ e ∈ es, e.type = .usable →
      e.base % 4096 = 0 ∧ e.length % 4096 = 0 ∧ e.base+e.length < 2^64) :
    bitmapGet (clearUsable bitmap bitmapPages es m) bitmap p = false ↔
      bitmapGet m bitmap p = false ∨ (p < bitmapPages ∧ InUsable es p) := by
  induction es generalizing m with
  | nil => simp [clearUsable, InUsable]
  | cons e es ih =>
    have hes : ∀ f ∈ es, f.type = .usable →
        f.base % 4096 = 0 ∧ f.length % 4096 = 0 ∧ f.base+f.length < 2^64 :=
      fun f hf => he f (by simp [hf])
    rw [clearUsable]
    refine (ih _ hes).trans ?_
    split_ifs with hu
    · obtain ⟨ha, hl, hb⟩ := he e (by simp) hu
      rw [wrap_of_lt hb, clearEntry_bit _ _ _ _ _ _ _ ha (by omega), or_assoc]
      refine or_congr_right ?_
      have hr : 4096*p < e.base+e.length → 4096*p < e.base+4096*2^52 := by omega
      simp only [InUsable, List.mem_cons, exists_eq_or_imp, hu, true_and, and_or_left]
      exact or_congr_left ⟨fun h => ⟨h.1, h.2.1, h.2.2.1⟩,
        fun h => ⟨h.1, h.2.1, h.2.2, hr h.2.2⟩⟩
    · simp [InUsable, hu]

theorem bitmapGet_filled (m : Mem) (bitmap size p : ℕ) (h : p/8 < size) :
    bitmapGet (fill m bitmap 0xFF size) bitmap p = true := by
  have hk : p % 8 < 8 := Nat.mod_lt _ (by decide)
  rw [bitmapGet_testBit, fill_inside _ _ _ _ _ (by simp; omega)]
  interval_cases p % 8 <;> rfl

/-- The variables after a successful `pmm_init`. -/
theorem pmmInit_eq (hhdmOffset base : ℕ) (memmap : List MemmapEntry) (m : Mem)
    (h : (placeBitmap (bitmapSizeFor memmap) memmap).1 = some base) :
    pmmInit hhdmOffset memmap m =
      (⟨clearUsable (wrap (base+hhdmOffset)) (bitmapPagesFor memmap)
          (placeBitmap (bitmapSizeFor memmap) memmap).2
          (fill m (wrap (base+hhdmOffset)) 0xFF (bitmapSizeFor memmap)),
        { bitmapPages := bitmapPagesFor memmap, bitmapSize := bitmapSizeFor memmap,
          bitmap := wrap (base+hhdmOffset),
          freePages := wrap ((scanMemmap 0 0 memmap).2+2^64-bitmapSizeFor memmap/4096),
          pageCache := fun _ => 0, cacheSize := pageCacheSize, cacheIndex := 0 }⟩,
        (placeBitmap (bitmapSizeFor memmap) memmap).2) := by
  simp only [pmmInit, h]

end Emk.Pmm
