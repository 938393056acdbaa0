import Emk.PmmOwnership
import Mathlib.Data.Finset.Card
import Mathlib.Data.Finset.Range
import Mathlib.Order.Interval.Finset.Nat

/-!
# Single pages from the page allocator

As long as callers only take and return single pages, the page cache, the
counter of free pages and the bitmap agree: cached pages are clear, the
counter counts the clear bits, and a request is refused only when no bit is
clear.
-/

set_option autoImplicit false

namespace Emk.PmmOwnership
open Emk.ByteMemory Emk.MachineWord Emk.DirectMap Emk.PageAllocator Emk.Pmm Emk.Transition

def clearPages (s : State) : Finset ℕ :=
  (Finset.range s.pmm.bitmapPages).filter (fun p => bitmapGet s.mem s.pmm.bitmap p = false)

def SinglePages : Op → Prop
  | .palloc pages _ => pages = 1
  | .pfree _ pages => pages = 1

instance : DecidablePred SinglePages
  | .palloc pages _ => inferInstanceAs (Decidable (pages = 1))
  | .pfree _ pages => inferInstanceAs (Decidable (pages = 1))

/-- Cache, counter and bitmap agree, and a single page is refused exactly
when no bit is clear. -/
structure Disciplined (hhdmOffset : ℕ) (s : State) : Prop where
  bounded : s.pmm.cacheIndex ≤ pageCacheSize
  distinct : ∀ i < s.pmm.cacheIndex, ∀ j < s.pmm.cacheIndex,
    s.pmm.pageCache i = s.pmm.pageCache j → i = j
  inside : ∀ i < s.pmm.cacheIndex, s.pmm.pageCache i < s.pmm.bitmapPages
  cleared : ∀ i < s.pmm.cacheIndex, bitmapGet s.mem s.pmm.bitmap (s.pmm.pageCache i) = false
  counted : s.pmm.freePages = (clearPages s).card
  refused : ∀ hh, (palloc hhdmOffset 1 hh s).1 = 0 ↔
    ∀ p < s.pmm.bitmapPages, bitmapGet s.mem s.pmm.bitmap p = true

structure Coherent (D : Layout) (avail : Set ℕ) (w : World) : Prop extends Sound D avail w where
  nonnull : 0 ∉ avail
  size : w.state.pmm.cacheSize = pageCacheSize
  bounded : w.state.pmm.cacheIndex ≤ pageCacheSize
  distinct : ∀ i < w.state.pmm.cacheIndex, ∀ j < w.state.pmm.cacheIndex,
    w.state.pmm.pageCache i = w.state.pmm.pageCache j → i = j
  cleared : ∀ i < w.state.pmm.cacheIndex,
    bitmapGet w.state.mem w.state.pmm.bitmap (w.state.pmm.pageCache i) = false
  counted : w.state.pmm.freePages = (clearPages w.state).card

/-- The same on any map, which may have page 0 among its pages. -/
structure Balanced (D : Layout) (avail : Set ℕ) (w : World) : Prop extends Sound D avail w where
  size : w.state.pmm.cacheSize = pageCacheSize
  bounded : w.state.pmm.cacheIndex ≤ pageCacheSize
  distinct : ∀ i < w.state.pmm.cacheIndex, ∀ j < w.state.pmm.cacheIndex,
    w.state.pmm.pageCache i = w.state.pmm.pageCache j → i = j
  cleared : ∀ i < w.state.pmm.cacheIndex,
    bitmapGet w.state.mem w.state.pmm.bitmap (w.state.pmm.pageCache i) = false
  counted : w.state.pmm.freePages = (clearPages w.state).card

variable {D : Layout} {avail : Set ℕ} {w : World}

theorem Coherent.balanced (hc : Coherent D avail w) : Balanced D avail w :=
  { hc with }

theorem Balanced.coherent (hb : Balanced D avail w) (h0 : 0 ∉ avail) : Coherent D avail w :=
  { hb with nonnull := h0 }

theorem mem_clearPages {s : State} {p : ℕ} :
    p ∈ clearPages s ↔ p < s.pmm.bitmapPages ∧ bitmapGet s.mem s.pmm.bitmap p = false := by
  simp [clearPages]

theorem clearPages_empty {s : State} :
    clearPages s = ∅ ↔ ∀ p < s.pmm.bitmapPages, bitmapGet s.mem s.pmm.bitmap p = true := by
  rw [Finset.eq_empty_iff_forall_notMem]
  simp [mem_clearPages]

/-- A request for one page takes the top of the cache or, when the cache is
empty, a clear bit; it is refused when there is none. -/
theorem Balanced.palloc_one (hc : Balanced D avail w) (hh : Bool) :
    (clearPages w.state = ∅ ∧ palloc D.hhdmOffset 1 hh w.state = (0, w.state)) ∨
    ∃ p ∈ clearPages w.state, ∃ k ≤ w.state.pmm.cacheIndex,
      (∀ i < k, w.state.pmm.pageCache i ≠ p) ∧
      palloc D.hhdmOffset 1 hh w.state =
        (pageAddress D.hhdmOffset (4096*p) hh,
          ⟨fill (setRun w.state.mem w.state.pmm.bitmap p 1)
            (higherHalf D.hhdmOffset (4096*p)) 0 (4096*1),
          { w.state.pmm with cacheIndex := k, freePages := w.state.pmm.freePages-1 }⟩) := by
  have hcount := hc.counted
  rcases Finset.eq_empty_or_nonempty (clearPages w.state) with he | hne
  · left
    rw [he, Finset.card_empty] at hcount
    refine ⟨he, ?_⟩
    rw [palloc, if_pos (.inr (by omega))]
  · right
    have hpos := Finset.card_pos.mpr hne
    rw [palloc, if_neg (by omega)]
    by_cases hcache : 0 < w.state.pmm.cacheIndex
    · have hlt : w.state.pmm.cacheIndex-1 < w.state.pmm.cacheIndex := by omega
      refine ⟨w.state.pmm.pageCache (w.state.pmm.cacheIndex-1), ?_,
        w.state.pmm.cacheIndex-1, by omega, ?_, ?_⟩
      · exact mem_clearPages.mpr ⟨hc.avail_lt _ (hc.cache_avail _ hlt), hc.cleared _ hlt⟩
      · intro i hi he
        have := hc.distinct i (by omega) _ hlt he
        omega
      · rw [if_pos ⟨rfl, hcache⟩]
        simp only [Nat.mul_div_cancel_left _ (show 0 < 4096 by decide), setRun, Nat.add_zero]
    · rw [if_neg (fun h => hcache h.2)]
      cases hw : scanWords w.state.mem w.state.pmm.bitmap w.state.pmm.bitmapPages 1
          ((w.state.pmm.bitmapPages+64-1)/64) 0 with
      | none =>
        obtain ⟨p, hp⟩ := hne
        obtain ⟨hlt, hz⟩ := mem_clearPages.mp hp
        have hempty := (scanWords_none _ _ _ _ _ _ Nat.one_pos).mp hw
        have hrun : p ∈ wordRuns w.state.mem w.state.pmm.bitmap w.state.pmm.bitmapPages 1 0
            (0+(w.state.pmm.bitmapPages+64-1)/64) := by
          refine ⟨by omega, by omega, by omega, hlt, fun k hk => ?_⟩
          rwa [show p+k = p by omega]
        rw [hempty] at hrun
        exact absurd hrun (Set.notMem_empty p)
      | some p =>
        obtain ⟨-, -, -, hfit, hz⟩ := ((scanWords_iff _ _ _ _ _ _ _ Nat.one_pos).mp hw).1
        refine ⟨p, mem_clearPages.mpr ⟨by omega, by simpa using hz 0 (by omega)⟩,
          w.state.pmm.cacheIndex, le_refl _, fun i hi => by omega, rfl⟩

theorem Balanced.clear_avail_of (hb : Balanced D avail w) {p : ℕ} (hp : p ∈ clearPages w.state) :
    p ∈ avail := by
  obtain ⟨hlt, hz⟩ := mem_clearPages.mp hp
  exact hb.clear_avail p hlt hz

theorem Coherent.disciplined (hc : Coherent D avail w) : Disciplined D.hhdmOffset w.state := by
  refine ⟨hc.bounded, hc.distinct, fun i hi => hc.avail_lt _ (hc.cache_avail i hi), hc.cleared,
    hc.counted, fun hh => ?_⟩
  rw [← clearPages_empty]
  rcases hc.balanced.palloc_one hh with ⟨he, hp⟩ | ⟨p, hp, k, -, -, heq⟩
  · simp [he, hp]
  · have hr := hc.reach
    have hlt := (mem_clearPages.mp hp).1
    have hav := hc.balanced.clear_avail_of hp
    have hne : pageAddress D.hhdmOffset (4096*p) hh ≠ 0 := fun hnull =>
      hc.nonnull (((pageAddress_eq_zero D (by omega) hh).mp hnull).1 ▸ hav)
    rw [heq]
    simp only [hne, false_iff]
    exact Finset.ne_empty_of_mem hp

/-- The bits after a page was marked and zeroed. -/
theorem bit_taken (hs : Sound D avail w) {p : ℕ} (hp : p ∈ avail) {i : ℕ}
    (hi : i < w.state.pmm.bitmapPages) :
    bitmapGet (fill (setRun w.state.mem w.state.pmm.bitmap p 1)
        (higherHalf D.hhdmOffset (4096*p)) 0 (4096*1)) w.state.pmm.bitmap i =
      (bitmapGet w.state.mem w.state.pmm.bitmap i || decide (p ≤ i ∧ i < p+1)) := by
  rw [fill_keeps_bit hs _ p 1 i (fun j hj => by simpa [show j = 0 by omega] using hp)
    (by decide) hi, bitmapGet_setRun]

theorem clearPages_taken (hs : Sound D avail w) {p : ℕ} (hp : p ∈ avail) (v : Vars)
    (hpages : v.bitmapPages = w.state.pmm.bitmapPages) (hbitmap : v.bitmap = w.state.pmm.bitmap) :
    clearPages ⟨fill (setRun w.state.mem w.state.pmm.bitmap p 1)
        (higherHalf D.hhdmOffset (4096*p)) 0 (4096*1), v⟩ = (clearPages w.state).erase p := by
  ext i
  rw [Finset.mem_erase, mem_clearPages, mem_clearPages]
  dsimp only
  rw [hpages, hbitmap]
  constructor
  · rintro ⟨hi, hz⟩
    rw [bit_taken hs hp hi, Bool.or_eq_false_iff, decide_eq_false_iff_not] at hz
    exact ⟨by omega, hi, hz.1⟩
  · rintro ⟨hne, hi, hz⟩
    rw [bit_taken hs hp hi, hz, Bool.false_or, decide_eq_false (by omega)]
    exact ⟨hi, rfl⟩

theorem palloc_balanced (hc : Balanced D avail w) (hh : Bool) :
    Balanced D avail (step D.hhdmOffset w (.palloc 1 hh)) := by
  have hsound := palloc_sound hc.toSound 1 hh
  rcases hc.palloc_one hh with ⟨he, hp⟩ | ⟨p, hp, k, hk, hother, heq⟩
  · rw [step, hp]
    simpa only [if_true] using hc
  · have hav := hc.clear_avail_of hp
    rw [step, heq] at hsound ⊢
    refine ⟨hsound, hc.size, le_trans hk hc.bounded, ?_, ?_, ?_⟩
    · exact fun i hi j hj => hc.distinct i (lt_of_lt_of_le hi hk) j (lt_of_lt_of_le hj hk)
    · intro i hi
      have hi' := lt_of_lt_of_le hi hk
      have hne := hother i hi
      dsimp only at hi ⊢
      rw [bit_taken hc.toSound hav (hc.avail_lt _ (hc.cache_avail i hi')), hc.cleared i hi',
        Bool.false_or, decide_eq_false (by omega)]
    · dsimp only
      rw [clearPages_taken hc.toSound hav, Finset.card_erase_of_mem hp, hc.counted]
      · rfl
      · rfl

/-- A granted page is clear no more, and every other page is as it was. -/
theorem Balanced.palloc_step (hc : Balanced D avail w) (hh : Bool)
    (hne : (clearPages w.state).Nonempty) : ∃ p ∈ clearPages w.state,
    (palloc D.hhdmOffset 1 hh w.state).1 = pageAddress D.hhdmOffset (4096*p) hh ∧
      clearPages (step D.hhdmOffset w (.palloc 1 hh)).state = (clearPages w.state).erase p := by
  rcases hc.palloc_one hh with ⟨he, -⟩ | ⟨p, hp, k, -, -, heq⟩
  · exact absurd he hne.ne_empty
  · refine ⟨p, hp, by rw [heq], ?_⟩
    rw [step, heq]
    exact clearPages_taken hc.toSound (hc.clear_avail_of hp) _ rfl rfl

theorem palloc_coherent (hc : Coherent D avail w) (hh : Bool) :
    Coherent D avail (step D.hhdmOffset w (.palloc 1 hh)) :=
  (palloc_balanced hc.balanced hh).coherent hc.nonnull

theorem clearPages_clear {s : State} {p : ℕ} (hp : p < s.pmm.bitmapPages) (v : Vars)
    (hpages : v.bitmapPages = s.pmm.bitmapPages) (hbitmap : v.bitmap = s.pmm.bitmap) :
    clearPages ⟨bitmapClear s.mem s.pmm.bitmap p, v⟩ = insert p (clearPages s) := by
  ext i
  rw [Finset.mem_insert, mem_clearPages, mem_clearPages]
  dsimp only
  rw [hpages, hbitmap, bitmapGet_clear, Bool.and_eq_false_iff, Bool.not_eq_false',
    decide_eq_true_iff]
  constructor
  · rintro ⟨hi, hz | rfl⟩
    · exact .inr ⟨hi, hz⟩
    · exact .inl rfl
  · rintro (rfl | ⟨hi, hz⟩)
    · exact ⟨hp, .inr rfl⟩
    · exact ⟨hi, .inl hz⟩

theorem pfree_coherent (hc : Coherent D avail w) (ptr : ℕ)
    (hfree : FreesOwned D.hhdmOffset w (.pfree ptr 1)) :
    Coherent D avail (step D.hhdmOffset w (.pfree ptr 1)) := by
  have hsound := pfree_sound hc.toSound ptr 1 hfree
  have hkeep : pfree D.hhdmOffset ptr 1 w.state = w.state →
      Coherent D avail (step D.hhdmOffset w (.pfree ptr 1)) := by
    intro he
    rw [step, he] at hsound ⊢
    exact ⟨hsound, hc.nonnull, hc.size, hc.bounded, hc.distinct, hc.cleared, hc.counted⟩
  by_cases h1 : ptr = 0 ∨ ptr % 4096 ≠ 0
  · exact hkeep (by rw [pfree, if_pos h1])
  by_cases h2 : wrap (pfreeStart D.hhdmOffset ptr+1) > w.state.pmm.bitmapPages
  · exact hkeep (by rw [pfree, if_neg h1, if_pos h2])
  have howned : pfreeStart D.hhdmOffset ptr ∈ w.owned := hfree 0 (by decide)
  have hset := hc.owned_set _ howned
  have hlt := hc.avail_lt _ (hc.owned_avail _ howned)
  have hfresh : pfreeStart D.hhdmOffset ptr ∉ clearPages w.state := by
    intro hin
    rw [(mem_clearPages.mp hin).2] at hset
    exact absurd hset (by simp)
  have hstays : ∀ i < w.state.pmm.cacheIndex,
      bitmapGet (bitmapClear w.state.mem w.state.pmm.bitmap (pfreeStart D.hhdmOffset ptr))
        w.state.pmm.bitmap (w.state.pmm.pageCache i) = false := by
    intro i hi
    rw [bitmapGet_clear, hc.cleared i hi, Bool.false_and]
  have heq : pfree D.hhdmOffset ptr 1 w.state =
      pfreePage (pfreeStart D.hhdmOffset ptr) 1 0 w.state := by
    rw [pfree, if_neg h1, if_neg h2]
    rfl
  rw [step, heq, pfreePage, Nat.add_zero, if_pos hset] at hsound ⊢
  have hcount := Finset.card_insert_of_notMem hfresh
  by_cases hpush : 1 = 1 ∧ w.state.pmm.cacheIndex < w.state.pmm.cacheSize
  · rw [if_pos hpush] at hsound ⊢
    have hroom := hpush.2
    have hsize := hc.size
    refine ⟨hsound, hc.nonnull, hc.size, ?_, ?_, ?_, ?_⟩
    · dsimp only
      omega
    · intro i hi j hj he
      dsimp only at hi hj he
      by_cases hil : i = w.state.pmm.cacheIndex <;> by_cases hjl : j = w.state.pmm.cacheIndex
      · omega
      · rw [hil, Function.update_self, Function.update_of_ne hjl] at he
        rw [he, hc.cleared j (by omega)] at hset
        exact absurd hset (by simp)
      · rw [hjl, Function.update_self, Function.update_of_ne hil] at he
        rw [← he, hc.cleared i (by omega)] at hset
        exact absurd hset (by simp)
      · rw [Function.update_of_ne hil, Function.update_of_ne hjl] at he
        exact hc.distinct i (by omega) j (by omega) he
    · intro i hi
      dsimp only at hi ⊢
      by_cases hil : i = w.state.pmm.cacheIndex
      · rw [hil, Function.update_self, bitmapGet_clear, hset, decide_eq_true rfl]
        rfl
      · rw [Function.update_of_ne hil]
        exact hstays i (by omega)
    · dsimp only
      rw [clearPages_clear hlt, hcount, hc.counted]
      · rfl
      · rfl
  · rw [if_neg hpush] at hsound ⊢
    refine ⟨hsound, hc.nonnull, hc.size, hc.bounded, hc.distinct, hstays, ?_⟩
    dsimp only
    rw [clearPages_clear hlt, hcount, hc.counted]
    · rfl
    · rfl

theorem step_coherent (w : World) (o : Op) (hc : Coherent D avail w)
    (ho : SinglePages o ∧ FreesOwned D.hhdmOffset w o) :
    Coherent D avail (step D.hhdmOffset w o) := by
  cases o with
  | palloc pages hh =>
    obtain rfl : pages = 1 := ho.1
    exact palloc_coherent hc hh
  | pfree ptr pages =>
    obtain rfl : pages = 1 := ho.1
    exact pfree_coherent hc ptr ho.2

open Classical in
/-- Usable entries do not overlap, so their pages can be counted one by one. -/
theorem usable_card (n : ℕ) (es : List MemmapEntry)
    (hpages : ∀ e ∈ es, e.type = .usable →
      e.base % 4096 = 0 ∧ e.length % 4096 = 0 ∧ e.base+e.length ≤ 4096*n)
    (hdisjoint : es.Pairwise (fun e f => e.type = .usable → f.type = .usable →
      e.base+e.length ≤ f.base ∨ f.base+f.length ≤ e.base)) :
    ((Finset.range n).filter (InUsable es)).card = usableCount es := by
  induction es with
  | nil => simp [InUsable, usableCount]
  | cons e es ih =>
    obtain ⟨hhead, htail⟩ := List.pairwise_cons.mp hdisjoint
    have hrest := ih (fun f hf => hpages f (by simp [hf])) htail
    rw [usableCount_cons, ← hrest]
    by_cases hu : e.type = .usable
    · obtain ⟨hb, hl, hn⟩ := hpages e (by simp) hu
      have hsplit : (Finset.range n).filter (InUsable (e::es)) =
          Finset.Ico (e.base/4096) (e.base/4096+e.length/4096) ∪
            (Finset.range n).filter (InUsable es) := by
        ext p
        rw [Finset.mem_union, Finset.mem_filter, Finset.mem_filter, Finset.mem_range,
          Finset.mem_Ico, inUsable_cons]
        constructor
        · rintro ⟨hp, ⟨-, hlo, hhi⟩ | hin⟩
          · exact .inl ⟨by omega, by omega⟩
          · exact .inr ⟨hp, hin⟩
        · rintro (⟨hlo, hhi⟩ | ⟨hp, hin⟩)
          · exact ⟨by omega, .inl ⟨hu, by omega, by omega⟩⟩
          · exact ⟨hp, .inr hin⟩
      have hapart : Disjoint (Finset.Ico (e.base/4096) (e.base/4096+e.length/4096))
          ((Finset.range n).filter (InUsable es)) := by
        rw [Finset.disjoint_left]
        intro p hp hq
        rw [Finset.mem_Ico] at hp
        obtain ⟨f, hf, hfu, hlo, hhi⟩ := (Finset.mem_filter.mp hq).2
        have := hhead f hf hu hfu
        omega
      rw [hsplit, Finset.card_union_of_disjoint hapart, Nat.card_Ico, if_pos hu]
      omega
    · rw [if_neg hu, Nat.zero_add]
      congr 1
      ext p
      rw [Finset.mem_filter, Finset.mem_filter, inUsable_cons]
      simp [hu]

/-- `pmm_init` has a place for its bitmap whenever there is memory to
describe; without one it would clear bits through the `NULL` pointer. -/
def Placed (memmap : List MemmapEntry) : Prop :=
  (∃ e ∈ memmap, e.type = .usable) → (placeBitmap (bitmapSizeFor memmap) memmap).1 ≠ none

theorem map_fits {memmap : List MemmapEntry} (hmap : WholePages memmap) :
    ∀ e ∈ memmap, e.type = .usable →
      e.base % 4096 = 0 ∧ e.length % 4096 = 0 ∧ e.base+e.length ≤ 4096*bitmapPagesFor memmap := by
  intro e he hu
  obtain ⟨hb, hl, -⟩ := hmap.pages e he hu
  have := (scanMemmap_top 0 0 memmap (fun e he hu => (hmap.pages e he hu).2.2)).2 e he hu
  rw [bitmapPagesFor]
  omega

theorem left_fits {memmap : List MemmapEntry} {base : ℕ} (hmap : WholePages memmap)
    (hroom : (placeBitmap (bitmapSizeFor memmap) memmap).1 = some base) :
    ∀ f ∈ (placeBitmap (bitmapSizeFor memmap) memmap).2, f.type = .usable →
      f.base % 4096 = 0 ∧ f.length % 4096 = 0 ∧
        f.base+f.length ≤ 4096*bitmapPagesFor memmap := by
  intro f hf hfu
  obtain ⟨hleft, -, hinside⟩ := placed_whole hmap hroom
  obtain ⟨hb, hl, -⟩ := hleft.pages f hf hfu
  obtain ⟨e, he, hu, -, hle⟩ := hinside f hf hfu
  exact ⟨hb, hl, le_trans hle (map_fits hmap e he hu).2.2⟩

open Classical in
/-- `pmm_init` clears the bits of the usable memory that is left. -/
theorem init_clear (hhdmOffset : ℕ) (memmap : List MemmapEntry) (m : Mem) (base : ℕ)
    (hmap : WholePages memmap)
    (hroom : (placeBitmap (bitmapSizeFor memmap) memmap).1 = some base)
    (hcover : bitmapPagesFor memmap ≤ 8*bitmapSizeFor memmap) :
    clearPages (pmmInit hhdmOffset memmap m).1 =
      (Finset.range (bitmapPagesFor memmap)).filter
        (InUsable (placeBitmap (bitmapSizeFor memmap) memmap).2) := by
  obtain ⟨hleft, -, -⟩ := placed_whole hmap hroom
  ext p
  rw [mem_clearPages, Finset.mem_filter, Finset.mem_range,
    pmmInit_eq hhdmOffset base memmap m hroom]
  dsimp only
  refine and_congr_right fun hp => ?_
  rw [clearUsable_bit _ _ _ _ _ hleft.pages, bitmapGet_filled _ _ _ _ (by omega)]
  simp [hp]

/-- The counter of `pmm_init` counts the clear bits. -/
theorem init_counted (hhdmOffset : ℕ) (memmap : List MemmapEntry) (m : Mem) (base : ℕ)
    (hmap : WholePages memmap)
    (hroom : (placeBitmap (bitmapSizeFor memmap) memmap).1 = some base)
    (hcover : bitmapPagesFor memmap ≤ 8*bitmapSizeFor memmap) :
    (pmmInit hhdmOffset memmap m).1.pmm.freePages =
      (clearPages (pmmInit hhdmOffset memmap m).1).card := by
  classical
  obtain ⟨hleft, hcount, -⟩ := placed_whole hmap hroom
  have hpages := bitmapPagesFor_lt memmap
  have htotal := usable_card (bitmapPagesFor memmap) memmap (map_fits hmap) hmap.disjoint
  have hplaced := usable_card (bitmapPagesFor memmap) _ (left_fits hmap hroom) hleft.disjoint
  have hbound : usableCount memmap ≤ bitmapPagesFor memmap := by
    rw [← htotal]
    exact le_trans (Finset.card_filter_le _ _) (by rw [Finset.card_range])
  have hw : wrap (usableCount memmap) = usableCount memmap := wrap_of_lt (by omega)
  rw [init_clear hhdmOffset memmap m base hmap hroom hcover, hplaced,
    pmmInit_eq hhdmOffset base memmap m hroom]
  dsimp only
  rw [scanMemmap_free _ _ _ (by norm_num), Nat.zero_add, hw, wrap]
  omega

theorem init_balanced (memmap : List MemmapEntry) (m : Mem) (base : ℕ) (hmap : LimineMap D memmap)
    (hroom : (placeBitmap (bitmapSizeFor memmap) memmap).1 = some base)
    (hcover : bitmapPagesFor memmap ≤ 8*bitmapSizeFor memmap) :
    Balanced D {p | p < bitmapPagesFor memmap ∧
        InUsable (placeBitmap (bitmapSizeFor memmap) memmap).2 p}
      ⟨(pmmInit D.hhdmOffset memmap m).1, []⟩ := by
  have hsound := init_sound memmap m base hmap hroom hcover
  have hinit := pmmInit_eq D.hhdmOffset base memmap m hroom
  have hcounted := init_counted D.hhdmOffset memmap m base hmap.wholePages hroom hcover
  refine ⟨hsound, ?_, ?_, ?_, ?_, hcounted⟩
  · rw [hinit]
  · rw [hinit]
    exact Nat.zero_le _
  · rw [hinit]
    exact fun i hi => absurd hi (Nat.not_lt_zero i)
  · rw [hinit]
    exact fun i hi => absurd hi (Nat.not_lt_zero i)

theorem init_coherent (memmap : List MemmapEntry) (m : Mem) (base : ℕ) (hmap : LimineMap D memmap)
    (hzero : ¬ InUsable memmap 0)
    (hroom : (placeBitmap (bitmapSizeFor memmap) memmap).1 = some base)
    (hcover : bitmapPagesFor memmap ≤ 8*bitmapSizeFor memmap) :
    Coherent D {p | p < bitmapPagesFor memmap ∧
        InUsable (placeBitmap (bitmapSizeFor memmap) memmap).2 p}
      ⟨(pmmInit D.hhdmOffset memmap m).1, []⟩ := by
  refine (init_balanced memmap m base hmap hroom hcover).coherent fun h0 => hzero ?_
  obtain ⟨-, f, hf, hfu, hlo, hhi⟩ := h0
  obtain ⟨e, he, hu, hble, hle⟩ := (placed_whole hmap.wholePages hroom).2.2 f hf hfu
  exact ⟨e, he, hu, by omega, by omega⟩

theorem scanMemmap_unusable (high free : ℕ) (es : List MemmapEntry)
    (h : ∀ e ∈ es, e.type ≠ .usable) : scanMemmap high free es = (high, free) := by
  induction es with
  | nil => rfl
  | cons e es ih =>
    rw [scanMemmap, if_neg (h e (by simp))]
    exact ih fun f hf => h f (by simp [hf])

theorem placeBitmap_unusable (size : ℕ) (es : List MemmapEntry)
    (h : ∀ e ∈ es, e.type ≠ .usable) : (placeBitmap size es).1 = none := by
  induction es with
  | nil => rfl
  | cons e es ih =>
    rw [placeBitmap, if_neg (fun hu => h e (by simp) hu.1)]
    exact ih fun f hf => h f (by simp [hf])

/-- Without usable memory there is no page to describe and none to hand out. -/
theorem init_coherent_unusable (memmap : List MemmapEntry) (m : Mem)
    (h : ∀ e ∈ memmap, e.type ≠ .usable) :
    Coherent D ∅ ⟨(pmmInit D.hhdmOffset memmap m).1, []⟩ := by
  have hscan := scanMemmap_unusable 0 0 memmap h
  have hpages : bitmapPagesFor memmap = 0 := by
    rw [bitmapPagesFor, hscan, Nat.zero_div]
  have hnone : ∀ P : ℕ → Prop, ∀ p < 0, P p := fun P p hp => absurd hp (Nat.not_lt_zero p)
  have hinit : (pmmInit D.hhdmOffset memmap m).1.pmm =
      { bitmapPages := 0, bitmapSize := bitmapSizeFor memmap, bitmap := 0, freePages := 0,
        pageCache := fun _ => 0, cacheSize := pageCacheSize, cacheIndex := 0 } := by
    simp only [pmmInit, placeBitmap_unusable _ _ h, hpages, hscan]
  refine ⟨⟨?_, ?_, by simp, by simp, ?_, ?_, by simp, by simp⟩, by simp, ?_, ?_, ?_, ?_, ?_⟩ <;>
    simp only [hinit, clearPages]
  all_goals first | exact hnone _ | simp

/-- After `pmm_init` on a boot-protocol map with an unusable page 0 and every
run of single-page requests and releases, the cache, the counter and the
bitmap agree and a page is refused exactly when no bit is clear. -/
theorem single_page_discipline (D : Layout) (memmap : List MemmapEntry) (m : Mem) (ops : List Op)
    (hmap : LimineMap D memmap) (hzero : ¬ InUsable memmap 0) (hplaced : Placed memmap)
    (hcover : bitmapPagesFor memmap ≤ 8*bitmapSizeFor memmap)
    (hops : Along (step D.hhdmOffset) (fun w o => SinglePages o ∧ FreesOwned D.hhdmOffset w o)
      ⟨(pmmInit D.hhdmOffset memmap m).1, []⟩ ops) :
    Disciplined D.hhdmOffset
      (run (step D.hhdmOffset) ⟨(pmmInit D.hhdmOffset memmap m).1, []⟩ ops).state := by
  by_cases husable : ∃ e ∈ memmap, e.type = .usable
  · obtain ⟨base, hroom⟩ := Option.ne_none_iff_exists'.mp (hplaced husable)
    have hstart := init_coherent memmap m base hmap hzero hroom hcover
    exact (run_invariant step_coherent hstart hops).disciplined
  · push Not at husable
    have hstart := init_coherent_unusable (D := D) memmap m husable
    exact (run_invariant step_coherent hstart hops).disciplined

theorem single_page_discipline_small :
    Disciplined smallLayout.hhdmOffset (run (step smallLayout.hhdmOffset) smallWorld
      [.palloc 1 true, .palloc 1 false, .pfree 0xffff800000002000 1, .palloc 1 false]).state :=
  single_page_discipline smallLayout smallMap (fun _ => 0) _ smallMap_limine
    (by simp [InUsable, smallMap]) (fun _ => by decide) (by decide) (by decide +kernel)

end Emk.PmmOwnership
