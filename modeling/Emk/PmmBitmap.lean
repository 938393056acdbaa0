import Emk.Pmm
import Emk.RunScan
import Mathlib.Tactic.IntervalCases

/-!
# What the bitmap operations of the page allocator do

Bit by bit, setting and clearing change one page and a search that succeeds
returns a run of clear bits. Filling granted pages with zeros leaves the
bitmap alone as long as no granted page holds it.
-/

set_option autoImplicit false

namespace Emk.Pmm
open Emk.ByteMemory Emk.MachineWord Emk.DirectMap Emk.PageAllocator Emk.RunScan

theorem toNat_bit (k : ℕ) (hk : k < 8) : (1 <<< UInt8.ofNat k : UInt8).toNat = 2^k := by
  interval_cases k <;> rfl

theorem byte_get (b : UInt8) (k : ℕ) (hk : k < 8) :
    (b &&& 1 <<< UInt8.ofNat k != 0) = b.toNat.testBit k := by
  have hn : (b &&& 1 <<< UInt8.ofNat k).toNat = (b.toNat.testBit k).toNat*2^k := by
    rw [UInt8.toNat_and, toNat_bit k hk, Nat.and_two_pow]
  cases ht : b.toNat.testBit k with
  | false =>
    have hz : b &&& 1 <<< UInt8.ofNat k = 0 := by
      apply UInt8.toNat_inj.mp
      simpa [ht] using hn
    simp [hz]
  | true =>
    have hz : b &&& 1 <<< UInt8.ofNat k ≠ 0 := by
      intro h
      rw [h, ht] at hn
      have hp : 0 < 2^k := by positivity
      simp only [UInt8.toNat_zero, Bool.toNat_true, one_mul] at hn
      omega
    simp [hz]

theorem byte_set (b : UInt8) (k l : ℕ) (hk : k < 8) :
    (b ||| 1 <<< UInt8.ofNat k).toNat.testBit l = (b.toNat.testBit l || decide (k = l)) := by
  rw [UInt8.toNat_or, Nat.testBit_or, toNat_bit k hk, Nat.testBit_two_pow]

theorem byte_clear (b : UInt8) (k l : ℕ) (hk : k < 8) (hl : l < 8) :
    (b &&& ~~~(1 <<< UInt8.ofNat k)).toNat.testBit l = (b.toNat.testBit l && !decide (k = l)) := by
  rw [UInt8.toNat_and, Nat.testBit_and]
  congr 1
  interval_cases k <;> interval_cases l <;> rfl

theorem bitmapGet_testBit (m : Mem) (bitmap i : ℕ) :
    bitmapGet m bitmap i = (m (bitmap+i/8)).toNat.testBit (i % 8) :=
  byte_get _ _ (Nat.mod_lt _ (by decide))

theorem bitmapGet_set (m : Mem) (bitmap i j : ℕ) :
    bitmapGet (bitmapSet m bitmap i) bitmap j = (bitmapGet m bitmap j || decide (i = j)) := by
  rw [bitmapGet_testBit, bitmapGet_testBit, bitmapSet]
  by_cases h : i/8 = j/8
  · rw [h, Function.update_self, byte_set _ _ _ (Nat.mod_lt _ (by decide))]
    congr 1
    rw [decide_eq_decide]
    omega
  · rw [Function.update_of_ne (by omega)]
    simp [show i ≠ j by omega]

theorem bitmapGet_clear (m : Mem) (bitmap i j : ℕ) :
    bitmapGet (bitmapClear m bitmap i) bitmap j = (bitmapGet m bitmap j && !decide (i = j)) := by
  rw [bitmapGet_testBit, bitmapGet_testBit, bitmapClear]
  by_cases h : i/8 = j/8
  · rw [h, Function.update_self,
      byte_clear _ _ _ (Nat.mod_lt _ (by decide)) (Nat.mod_lt _ (by decide))]
    congr 2
    rw [decide_eq_decide]
    omega
  · rw [Function.update_of_ne (by omega)]
    simp [show i ≠ j by omega]

theorem bitmapGet_setRun (m : Mem) (bitmap start n j : ℕ) :
    bitmapGet (setRun m bitmap start n) bitmap j =
      (bitmapGet m bitmap j || decide (start ≤ j ∧ j < start+n)) := by
  induction n with
  | zero => simp [setRun, show ¬(start ≤ j ∧ j < start) by omega]
  | succ n ih =>
    rw [setRun, bitmapGet_set, ih, Bool.or_assoc]
    congr 1
    rw [← Bool.decide_or, decide_eq_decide]
    omega

/-- A page outside the filled range keeps its bit. -/
theorem bitmapGet_fill (m : Mem) (bitmap a n i : ℕ) (c : UInt8)
    (h : bitmap+i/8 < a ∨ a+n ≤ bitmap+i/8) :
    bitmapGet (fill m a c n) bitmap i = bitmapGet m bitmap i := by
  rw [bitmapGet, bitmapGet, fill_outside _ _ _ _ _ (by simp only [mem_range]; omega)]

/-- The scan of one word is a scan of its bits below `bitmapPages`. -/
theorem scanWord_eq (m : Mem) (bitmap bitmapPages pages startBit rounds j c : ℕ) :
    scanWord m bitmap bitmapPages pages startBit rounds j c =
      scanRun (fun i => !bitmapGet m bitmap i) pages (min rounds (bitmapPages-(startBit+j)))
        (startBit+j) c := by
  induction rounds generalizing j c with
  | zero => rw [Nat.zero_min, scanWord, scanRun]
  | succ rounds ih =>
    rw [scanWord]
    split_ifs with hlt hget heq
    · rw [show min (rounds+1) (bitmapPages-(startBit+j)) =
        min rounds (bitmapPages-(startBit+(j+1)))+1 by omega, scanRun, ih (j+1) 0]
      simp [hget, Nat.add_assoc]
    · rw [show min (rounds+1) (bitmapPages-(startBit+j)) =
        min rounds (bitmapPages-(startBit+(j+1)))+1 by omega, scanRun]
      simp [hget, heq]
    · rw [show min (rounds+1) (bitmapPages-(startBit+j)) =
        min rounds (bitmapPages-(startBit+(j+1)))+1 by omega, scanRun, ih (j+1) (c+1)]
      simp [hget, heq, Nat.add_assoc]
    · rw [show min (rounds+1) (bitmapPages-(startBit+j)) = 0 by omega, scanRun]

theorem bitmapGet_full (m : Mem) (bitmap i j : ℕ) (h : load64 m (bitmap+8*i) = 2^64-1)
    (hj : j < 64) : bitmapGet m bitmap (i*64+j) = true := by
  have hword : load m (bitmap+8*i) 8+1 = 256^8 := by
    rw [show load m (bitmap+8*i) 8 = 2^64-1 from h]
    norm_num
  have hbyte := load_full m (bitmap+8*i) 8 hword (j/8) (by omega)
  rw [bitmapGet_testBit, show bitmap+(i*64+j)/8 = bitmap+8*i+j/8 by omega, hbyte]
  have hk : (i*64+j) % 8 < 8 := Nat.mod_lt _ (by decide)
  interval_cases (i*64+j) % 8 <;> rfl

/-- The starts of the runs of `n` clear bits that stay inside one word, over
the words from `lo` up to `hi`. -/
def wordRuns (m : Mem) (bitmap bitmapPages n lo hi : ℕ) : Set ℕ :=
  {p | lo ≤ p/64 ∧ p/64 < hi ∧ p % 64+n ≤ 64 ∧ p+n ≤ bitmapPages ∧
    ∀ k < n, bitmapGet m bitmap (p+k) = false}

theorem wordRuns_word (m : Mem) (bitmap bitmapPages n i : ℕ) (hn : 0 < n) :
    wordRuns m bitmap bitmapPages n i (i+1) =
      Runs (fun b => !bitmapGet m bitmap b) n (i*64) (i*64+min 64 (bitmapPages-i*64)) := by
  ext p
  simp only [wordRuns, Runs, Set.mem_ofPred_eq, Bool.not_eq_true']
  constructor
  · rintro ⟨hlo, hhi, hword, hfit, hclear⟩
    exact ⟨by omega, by omega, hclear⟩
  · rintro ⟨hlo, hhi, hclear⟩
    exact ⟨by omega, by omega, by omega, by omega, hclear⟩

theorem wordRuns_split (m : Mem) (bitmap bitmapPages n i rounds : ℕ) :
    wordRuns m bitmap bitmapPages n i (i+(rounds+1)) =
      wordRuns m bitmap bitmapPages n i (i+1) ∪
        wordRuns m bitmap bitmapPages n (i+1) (i+1+rounds) := by
  ext p
  simp only [wordRuns, Set.mem_ofPred_eq, Set.mem_union]
  constructor
  · rintro ⟨hlo, hhi, hrest⟩
    by_cases hp : p/64 < i+1
    · exact .inl ⟨hlo, hp, hrest⟩
    · exact .inr ⟨by omega, by omega, hrest⟩
  · rintro (⟨hlo, hhi, hrest⟩ | ⟨hlo, hhi, hrest⟩)
    · exact ⟨hlo, by omega, hrest⟩
    · exact ⟨by omega, by omega, hrest⟩

/-- The first bit of a run is not part of a full word. -/
theorem wordRuns_full (m : Mem) (bitmap bitmapPages n i : ℕ) (hn : 0 < n)
    (h : load64 m (bitmap+8*i) = 2^64-1) : wordRuns m bitmap bitmapPages n i (i+1) = ∅ := by
  apply Set.eq_empty_iff_forall_notMem.mpr
  rintro p ⟨hlo, hhi, hword, hfit, hclear⟩
  have hset := bitmapGet_full m bitmap i (p % 64) h (Nat.mod_lt _ (by decide))
  have hget := hclear 0 hn
  rw [show p+0 = i*64+p % 64 by omega, hset] at hget
  exact absurd hget.symm Bool.false_ne_true

/-- The search returns the lowest run of clear bits inside one word. -/
theorem scanWords_iff (m : Mem) (bitmap bitmapPages n rounds i p : ℕ) (hn : 0 < n) :
    scanWords m bitmap bitmapPages n rounds i = some p ↔
      IsLeast (wordRuns m bitmap bitmapPages n i (i+rounds)) p := by
  induction rounds generalizing i with
  | zero =>
    refine iff_of_false (Option.some_ne_none p).symm ?_
    rintro ⟨⟨hlo, hhi, -⟩, -⟩
    omega
  | succ rounds ih =>
    have hbefore : ∀ a ∈ wordRuns m bitmap bitmapPages n i (i+1),
        ∀ b ∈ wordRuns m bitmap bitmapPages n (i+1) (i+1+rounds), a < b := by
      rintro a ⟨-, ha, -⟩ b ⟨hb, -⟩
      omega
    have hword : ∀ q, scanWord m bitmap bitmapPages n (i*64) 64 0 0 = some q ↔
        IsLeast (wordRuns m bitmap bitmapPages n i (i+1)) q := by
      intro q
      rw [scanWord_eq, scanRun_iff _ _ _ _ _ _ hn (Nat.zero_le _) (fun k hlo hhi => by omega),
        wordRuns_word _ _ _ _ _ hn]
      rfl
    rw [scanWords, wordRuns_split, isLeast_union_iff hbefore]
    split_ifs with hfull
    · cases hscan : scanWord m bitmap bitmapPages n (i*64) 64 0 0 with
      | none =>
        have hempty := (none_iff_empty hword).mp hscan
        rw [ih (i+1), hempty]
        simp [IsLeast]
      | some q =>
        have hleast := (hword q).mp hscan
        have hne : wordRuns m bitmap bitmapPages n i (i+1) ≠ ∅ :=
          Set.nonempty_iff_ne_empty.mp ⟨q, hleast.1⟩
        rw [Option.some_inj]
        constructor
        · rintro rfl
          exact .inl hleast
        · rintro (hp | ⟨hempty, -⟩)
          · exact hleast.unique hp
          · exact absurd hempty hne
    · have hempty := wordRuns_full m bitmap bitmapPages n i hn (not_not.mp hfull)
      rw [ih (i+1), hempty]
      simp [IsLeast]

theorem scanWords_none (m : Mem) (bitmap bitmapPages n rounds i : ℕ) (hn : 0 < n) :
    scanWords m bitmap bitmapPages n rounds i = none ↔
      wordRuns m bitmap bitmapPages n i (i+rounds) = ∅ :=
  none_iff_empty fun p => scanWords_iff m bitmap bitmapPages n rounds i p hn

/-- Everything `palloc` can do: refuse, take the top of the page cache, or
take a run of clear bits found by the search. -/
theorem palloc_cases (hhdmOffset pages : ℕ) (hh : Bool) (s : State) :
    palloc hhdmOffset pages hh s = (0, s) ∨
    (pages = 1 ∧ 0 < s.pmm.cacheIndex ∧
      palloc hhdmOffset pages hh s =
        (pageAddress hhdmOffset (4096*s.pmm.pageCache (s.pmm.cacheIndex-1)) hh,
          ⟨fill (bitmapSet s.mem s.pmm.bitmap (s.pmm.pageCache (s.pmm.cacheIndex-1)))
            (higherHalf hhdmOffset (4096*s.pmm.pageCache (s.pmm.cacheIndex-1))) 0 (4096*pages),
          { s.pmm with cacheIndex := s.pmm.cacheIndex-1, freePages := s.pmm.freePages-1 }⟩)) ∨
    ∃ start, 0 < pages ∧ start+pages ≤ s.pmm.bitmapPages ∧
      (∀ k < pages, bitmapGet s.mem s.pmm.bitmap (start+k) = false) ∧
      palloc hhdmOffset pages hh s =
        (pageAddress hhdmOffset (4096*start) hh,
          ⟨fill (setRun s.mem s.pmm.bitmap start pages)
            (higherHalf hhdmOffset (4096*start)) 0 (4096*pages),
          { s.pmm with freePages := s.pmm.freePages-pages }⟩) := by
  rw [palloc]
  by_cases hr : pages = 0 ∨ pages > s.pmm.freePages
  · exact .inl (by simp only [if_pos hr])
  by_cases hc : pages = 1 ∧ s.pmm.cacheIndex > 0
  · refine .inr (.inl ⟨hc.1, hc.2, ?_⟩)
    simp only [if_neg hr, if_pos hc, Nat.mul_div_cancel_left _ (show 0 < 4096 by decide)]
  simp only [if_neg hr, if_neg hc]
  cases hw : scanWords s.mem s.pmm.bitmap s.pmm.bitmapPages pages
      ((s.pmm.bitmapPages+64-1)/64) 0 with
  | none => exact .inl rfl
  | some start =>
    obtain ⟨-, -, -, hfit, hclear⟩ := ((scanWords_iff _ _ _ _ _ _ _ (by omega)).mp hw).1
    exact .inr (.inr ⟨start, by omega, hfit, hclear, rfl⟩)

/-- What every round of its loop keeps, `pfree` keeps. -/
theorem pfree_keeps {I : State → Prop} {hhdmOffset ptr pages : ℕ} {s : State} (hs : I s)
    (hround : wrap (pfreeStart hhdmOffset ptr+pages) ≤ s.pmm.bitmapPages →
      ∀ i < pages, ∀ t, I t → I (pfreePage (pfreeStart hhdmOffset ptr) pages i t)) :
    I (pfree hhdmOffset ptr pages s) := by
  rw [pfree]
  split_ifs with hnull hout
  · exact hs
  · exact hs
  have hloop : ∀ n ≤ pages, I (pfreePages (pfreeStart hhdmOffset ptr) pages n s) := by
    intro n hn
    induction n with
    | zero => exact hs
    | succ n ih => exact hround (not_lt.mp hout) n hn _ (ih (by omega))
  exact hloop pages (le_refl _)

/-- The two pointers of a page. -/
theorem pageAddress_eq (D : Layout) {p : ℕ} (hp : 4096*p < D.top) (hh : Bool) :
    pageAddress D.hhdmOffset (4096*p) hh = if hh then D.hhdmOffset+4096*p else 4096*p := by
  have hfits := D.pointer_fits
  rw [pageAddress, wrap_of_lt (by omega), Nat.add_comm]

/-- Only page 0 under its physical address looks like a failure. -/
theorem pageAddress_eq_zero (D : Layout) {p : ℕ} (hp : 4096*p < D.top) (hh : Bool) :
    pageAddress D.hhdmOffset (4096*p) hh = 0 ↔ p = 0 ∧ hh = false := by
  have hoffset := D.top_le_offset
  rw [pageAddress_eq D hp]
  cases hh
  · simp
  · simp
    omega

end Emk.Pmm
