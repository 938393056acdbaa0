import Emk.PmmSingle

/-!
# The bitmap search of the page allocator

Off the cache path `palloc` takes the lowest run of clear bits that stays
inside one aligned word of 64 pages, sets its bits and zeroes its pages.
Runs that cross from one word into the next are never found, so a request
for more than 64 pages always fails.
-/

set_option autoImplicit false

namespace Emk.PmmSearch
open Emk.ByteMemory Emk.MachineWord Emk.DirectMap Emk.PageAllocator Emk.Pmm Emk.PmmOwnership
  Emk.RunScan

/-- The starts of the runs of `n` clear pages. -/
def clearRuns (s : State) (n : ℕ) : Set ℕ :=
  {p | p+n ≤ s.pmm.bitmapPages ∧ ∀ k < n, bitmapGet s.mem s.pmm.bitmap (p+k) = false}

/-- The runs of clear pages that stay inside one aligned word of the bitmap. -/
def wordClearRuns (s : State) (n : ℕ) : Set ℕ := {p | p ∈ clearRuns s n ∧ p % 64+n ≤ 64}

/-- The bytes of the `n` pages from page `start` on. -/
def pageBytes (D : Layout) (start n : ℕ) : Set ℕ := Range (D.hhdmOffset+4096*start) (4096*n)

section Search
variable (hhdmOffset : ℕ) (s : State) (n : ℕ) (hh : Bool)

theorem wordRuns_all (hn : 0 < n) :
    wordRuns s.mem s.pmm.bitmap s.pmm.bitmapPages n 0 (0+(s.pmm.bitmapPages+64-1)/64) =
      wordClearRuns s n := by
  ext p
  constructor
  · rintro ⟨-, -, hword, hfit, hclear⟩
    exact ⟨⟨hfit, hclear⟩, hword⟩
  · rintro ⟨⟨hfit, hclear⟩, hword⟩
    exact ⟨by omega, by omega, hword, hfit, hclear⟩

/-- The state after a run has been taken. -/
def taken (start : ℕ) : State :=
  ⟨fill (setRun s.mem s.pmm.bitmap start n) (higherHalf hhdmOffset (4096*start)) 0 (4096*n),
    { s.pmm with freePages := s.pmm.freePages-n }⟩

/-- Off the cache path `palloc` takes the lowest run inside one word, or
leaves everything as it is. -/
theorem palloc_search (hn : 0 < n) (hcache : ¬(n = 1 ∧ 0 < s.pmm.cacheIndex)) :
    (∃ start, n ≤ s.pmm.freePages ∧ IsLeast (wordClearRuns s n) start ∧
      palloc hhdmOffset n hh s =
        (pageAddress hhdmOffset (4096*start) hh, taken hhdmOffset s n start)) ∨
    ((s.pmm.freePages < n ∨ wordClearRuns s n = ∅) ∧ palloc hhdmOffset n hh s = (0, s)) := by
  rw [palloc]
  by_cases hfree : s.pmm.freePages < n
  · exact .inr ⟨.inl hfree, if_pos (.inr hfree)⟩
  have hgo : ¬(n = 0 ∨ n > s.pmm.freePages) := by omega
  simp only [if_neg hgo, if_neg hcache]
  cases hscan : scanWords s.mem s.pmm.bitmap s.pmm.bitmapPages n
      ((s.pmm.bitmapPages+64-1)/64) 0 with
  | none =>
    have hempty := (scanWords_none _ _ _ _ _ _ hn).mp hscan
    rw [wordRuns_all s n hn] at hempty
    exact .inr ⟨.inr hempty, rfl⟩
  | some start =>
    have hleast := (scanWords_iff _ _ _ _ _ _ _ hn).mp hscan
    rw [wordRuns_all s n hn] at hleast
    exact .inl ⟨start, by omega, hleast, rfl⟩

end Search

variable {D : Layout} {s : State} {n start : ℕ}

theorem taken_mem (hreach : 4096*s.pmm.bitmapPages ≤ D.top) (hn : 0 < n)
    (hfit : start+n ≤ s.pmm.bitmapPages) :
    (taken D.hhdmOffset s n start).mem =
      fill (setRun s.mem s.pmm.bitmap start n) (D.hhdmOffset+4096*start) 0 (4096*n) := by
  have hbase : higherHalf D.hhdmOffset (4096*start) = D.hhdmOffset+4096*start :=
    higherHalf_frame D _ (by omega)
  rw [← hbase]
  rfl

theorem setRun_outside (m : Mem) (bitmap size start n x : ℕ) (hfit : start+n ≤ 8*size)
    (hx : x ∉ Range bitmap size) : setRun m bitmap start n x = m x := by
  induction n with
  | zero => rfl
  | succ n ih =>
    rw [setRun, bitmapSet, Function.update_of_ne, ih (by omega)]
    rintro rfl
    exact hx (by simp only [mem_range]; omega)

/-- Taking a run sets its bits; bits stored in the pages taken are zeroed with them. -/
theorem taken_bit (hreach : 4096*s.pmm.bitmapPages ≤ D.top) (hn : 0 < n)
    (hfit : start+n ≤ s.pmm.bitmapPages) (p : ℕ) :
    bitmapGet (taken D.hhdmOffset s n start).mem s.pmm.bitmap p = true ↔
      s.pmm.bitmap+p/8 ∉ pageBytes D start n ∧
        (bitmapGet s.mem s.pmm.bitmap p = true ∨ start ≤ p ∧ p < start+n) := by
  rw [taken_mem hreach hn hfit]
  by_cases hin : s.pmm.bitmap+p/8 ∈ pageBytes D start n
  · rw [bitmapGet, fill_inside _ _ _ _ _ hin]
    simp [hin]
  · rw [bitmapGet, fill_outside _ _ _ _ _ hin, ← bitmapGet, bitmapGet_setRun]
    simp [hin]

theorem taken_outside (hreach : 4096*s.pmm.bitmapPages ≤ D.top)
    (hcover : s.pmm.bitmapPages ≤ 8*s.pmm.bitmapSize) (hn : 0 < n)
    (hfit : start+n ≤ s.pmm.bitmapPages) {x : ℕ}
    (hbitmap : x ∉ Range s.pmm.bitmap s.pmm.bitmapSize) (hpages : x ∉ pageBytes D start n) :
    (taken D.hhdmOffset s n start).mem x = s.mem x := by
  rw [taken_mem hreach hn hfit, fill_outside _ _ _ _ _ hpages,
    setRun_outside _ _ _ _ _ _ (le_trans hfit hcover) hbitmap]

/-- Off the cache path a request either takes the lowest run of clear pages
inside one word, changing its bits, the counter and the pages alone, or finds
none or too few free pages and changes nothing. -/
theorem palloc_lowest_word_run (D : Layout) (s : State) (n : ℕ) (hh : Bool)
    (hreach : 4096*s.pmm.bitmapPages ≤ D.top)
    (hcover : s.pmm.bitmapPages ≤ 8*s.pmm.bitmapSize) (hn : 0 < n)
    (hcache : ¬(n = 1 ∧ 0 < s.pmm.cacheIndex)) :
    let r := palloc D.hhdmOffset n hh s
    (∃ start, r.1 = pageAddress D.hhdmOffset (4096*start) hh ∧
      n ≤ s.pmm.freePages ∧ start+n ≤ s.pmm.bitmapPages ∧
      (∀ k < n, bitmapGet s.mem s.pmm.bitmap (start+k) = false) ∧
      IsLeast (wordClearRuns s n) start ∧
      r.2.pmm = { s.pmm with freePages := s.pmm.freePages-n } ∧
      (∀ p, bitmapGet r.2.mem s.pmm.bitmap p = true ↔
        s.pmm.bitmap+p/8 ∉ pageBytes D start n ∧
          (bitmapGet s.mem s.pmm.bitmap p = true ∨ start ≤ p ∧ p < start+n)) ∧
      Set.EqOn r.2.mem s.mem (Range s.pmm.bitmap s.pmm.bitmapSize ∪ pageBytes D start n)ᶜ) ∨
    ((s.pmm.freePages < n ∨ wordClearRuns s n = ∅) ∧ r = (0, s)) := by
  rcases palloc_search D.hhdmOffset s n hh hn hcache with ⟨start, hfree, hleast, heq⟩ | hfail
  · have hrun := hleast.1.1
    refine .inl ⟨start, ?_⟩
    rw [heq]
    refine ⟨rfl, hfree, hrun.1, hrun.2, hleast, rfl, taken_bit hreach hn hrun.1, fun x hx => ?_⟩
    rw [Set.mem_compl_iff, Set.mem_union, not_or] at hx
    exact taken_outside hreach hcover hn hrun.1 hx.1 hx.2
  · exact .inr hfail

/-- Memory whose page 1 holds the bitmap of eight pages and is marked as free. -/
def selfState : State where
  mem := fun x => if x = 0xffff800000001000 then 0xfd else 0
  pmm := ⟨8, 4096, 0xffff800000001000, 1, fun _ => 0, pageCacheSize, 0⟩

/-- Taking the page that holds the bitmap clears the bit just set. -/
theorem own_page_zeroed :
    selfState.pmm.bitmapPages ≤ 8*selfState.pmm.bitmapSize ∧
      ¬((1 : ℕ) = 1 ∧ 0 < selfState.pmm.cacheIndex) ∧
      let r := palloc smallLayout.hhdmOffset 1 true selfState
      r.1 = pageAddress smallLayout.hhdmOffset (4096*1) true ∧
        ¬ ∀ p < selfState.pmm.bitmapPages, bitmapGet r.2.mem selfState.pmm.bitmap p =
          (bitmapGet selfState.mem selfState.pmm.bitmap p || decide (1 ≤ p ∧ p < 1+1)) := by
  decide +kernel

theorem palloc_lowest_word_run_self :
    let r := palloc smallLayout.hhdmOffset 1 true selfState
    (∃ start, r.1 = pageAddress smallLayout.hhdmOffset (4096*start) true ∧
      1 ≤ selfState.pmm.freePages ∧ start+1 ≤ selfState.pmm.bitmapPages ∧
      (∀ k < 1, bitmapGet selfState.mem selfState.pmm.bitmap (start+k) = false) ∧
      IsLeast (wordClearRuns selfState 1) start ∧
      r.2.pmm = { selfState.pmm with freePages := selfState.pmm.freePages-1 } ∧
      (∀ p, bitmapGet r.2.mem selfState.pmm.bitmap p = true ↔
        selfState.pmm.bitmap+p/8 ∉ pageBytes smallLayout start 1 ∧
          (bitmapGet selfState.mem selfState.pmm.bitmap p = true ∨ start ≤ p ∧ p < start+1)) ∧
      Set.EqOn r.2.mem selfState.mem
        (Range selfState.pmm.bitmap selfState.pmm.bitmapSize ∪ pageBytes smallLayout start 1)ᶜ) ∨
    ((selfState.pmm.freePages < 1 ∨ wordClearRuns selfState 1 = ∅) ∧ r = (0, selfState)) :=
  palloc_lowest_word_run smallLayout selfState 1 true (by decide) (by decide) (by decide)
    (by decide)

theorem pageAddress_inj (D : Layout) {p q : ℕ} (hp : 4096*p < D.top) (hq : 4096*q < D.top)
    (hh : Bool) (h : pageAddress D.hhdmOffset (4096*p) hh = pageAddress D.hhdmOffset (4096*q) hh) :
    p = q := by
  rw [pageAddress_eq D hp, pageAddress_eq D hq] at h
  split_ifs at h <;> omega

/-- With an empty cache and an exact counter, a request returns the lowest
run of clear pages exactly when that run stays inside one word of the bitmap
and is not page 0 asked for by its physical address. -/
theorem palloc_lowest_run_iff (D : Layout) (s : State) (n start : ℕ) (hh : Bool)
    (hreach : 4096*s.pmm.bitmapPages ≤ D.top) (hempty : s.pmm.cacheIndex = 0)
    (hcount : s.pmm.freePages = (clearPages s).card) (hn : 0 < n)
    (hleast : IsLeast (clearRuns s n) start) :
    ((palloc D.hhdmOffset n hh s).1 ≠ 0 ∧
      (palloc D.hhdmOffset n hh s).1 = pageAddress D.hhdmOffset (4096*start) hh) ↔
    start % 64+n ≤ 64 ∧ ¬(start = 0 ∧ hh = false) := by
  obtain ⟨hfit, hclear⟩ := hleast.1
  have hpage : 4096*start < D.top := by omega
  have hzero := pageAddress_eq_zero D hpage hh
  rcases palloc_search D.hhdmOffset s n hh hn (by omega) with ⟨found, -, hword, heq⟩ | ⟨hfail, heq⟩
  · rw [heq]
    dsimp only
    constructor
    · rintro ⟨hne, hptr⟩
      have hsame := pageAddress_inj D (by have := hword.1.1.1; omega) hpage hh hptr
      exact ⟨hsame ▸ hword.1.2, fun h => hne (hptr.trans (hzero.mpr h))⟩
    · rintro ⟨hin, hnot⟩
      have hsame : found = start :=
        le_antisymm (hword.2 ⟨hleast.1, hin⟩) (hleast.2 hword.1.1)
      rw [hsame]
      exact ⟨fun h => hnot (hzero.mp h), rfl⟩
  · rw [heq]
    refine iff_of_false (fun h => h.1 rfl) ?_
    rintro ⟨hin, -⟩
    rcases hfail with hfree | hnone
    · have hsub : (Finset.range n).map (addLeftEmbedding start) ⊆ clearPages s := by
        intro p hp
        obtain ⟨k, hk, rfl⟩ := Finset.mem_map.mp hp
        have hlt := Finset.mem_range.mp hk
        exact mem_clearPages.mpr ⟨by simp only [addLeftEmbedding_apply]; omega, hclear k hlt⟩
      have hcard := Finset.card_le_card hsub
      rw [Finset.card_map, Finset.card_range] at hcard
      omega
    · have hmem : start ∈ wordClearRuns s n := ⟨hleast.1, hin⟩
      rw [hnone] at hmem
      exact absurd hmem (Set.notMem_empty start)

/-- Eighty usable pages after an unusable page 0. -/
def wideLayout : Layout where
  hhdmOffset := 0xffff800000000000
  top := 0x51000
  top_le_offset := by decide
  top_le_address := by decide
  pointer_fits := by decide
  offset_aligned := limine_offset_aligned

def wideMap : List MemmapEntry := [⟨0x1000, 0x50000, .usable⟩]

def wideState : State := (pmmInit wideLayout.hhdmOffset wideMap (fun _ => 0)).1

theorem wide_run : ∀ k < 65, bitmapGet wideState.mem wideState.pmm.bitmap (2+k) = false := by
  decide +kernel

theorem wide_lowest : IsLeast (clearRuns wideState 65) 2 := by
  refine ⟨⟨by decide, wide_run⟩, fun p hp => ?_⟩
  by_contra hlt
  have hclear := hp.2 0 (by decide)
  have hset : ∀ q < 2, bitmapGet wideState.mem wideState.pmm.bitmap (q+0) = true := by
    decide +kernel
  rw [hset p (by omega)] at hclear
  exact Bool.false_ne_true hclear.symm

theorem palloc_lowest_run_iff_wide :
    ((palloc wideLayout.hhdmOffset 65 true wideState).1 ≠ 0 ∧
      (palloc wideLayout.hhdmOffset 65 true wideState).1 =
        pageAddress wideLayout.hhdmOffset (4096*2) true) ↔
    2 % 64+65 ≤ 64 ∧ ¬(2 = 0 ∧ true = false) :=
  palloc_lowest_run_iff wideLayout wideState 65 2 true (by decide) (by decide +kernel)
    (by decide +kernel) (by decide) wide_lowest

/-- Right after boot there are 79 free pages in a row, but 65 of them cannot be had. -/
theorem palloc_misses_long_run :
    wideState.pmm.cacheIndex = 0 ∧ wideState.pmm.freePages = (clearPages wideState).card ∧
      2+65 ≤ wideState.pmm.bitmapPages ∧
      (∀ k < 65, bitmapGet wideState.mem wideState.pmm.bitmap (2+k) = false) ∧
      (palloc wideLayout.hhdmOffset 65 true wideState).1 = 0 := by
  decide +kernel
end Emk.PmmSearch
