import Emk.PmmSearch

/-!
# Giving pages back

A run of pages taken by `palloc`, from the cache or from the bitmap, is
given back by `pfree` under the pointer that was returned: the bits and the
counter are as they were before. A second free of the same run meets clear
bits only and has no effect. The one exception is a run that holds the
bitmap, because its bits are zeroed with the pages.
-/

set_option autoImplicit false

namespace Emk.PmmRoundTrip
open Emk.ByteMemory Emk.MachineWord Emk.DirectMap Emk.PageAllocator Emk.Pmm Emk.PmmOwnership
  Emk.PmmSearch

section Loop
variable (start pages n : ℕ) (s : State)

@[simp] theorem pfreePages_bitmap : (pfreePages start pages n s).pmm.bitmap = s.pmm.bitmap := by
  induction n with
  | zero => rfl
  | succ n ih =>
    rw [pfreePages, pfreePage]
    split_ifs <;> exact ih

@[simp] theorem pfreePages_pages :
    (pfreePages start pages n s).pmm.bitmapPages = s.pmm.bitmapPages := by
  induction n with
  | zero => rfl
  | succ n ih =>
    rw [pfreePages, pfreePage]
    split_ifs <;> exact ih

/-- The loop clears the bits of its pages. -/
theorem pfreePages_bit (p : ℕ) :
    bitmapGet (pfreePages start pages n s).mem s.pmm.bitmap p =
      (bitmapGet s.mem s.pmm.bitmap p && !decide (start ≤ p ∧ p < start+n)) := by
  induction n with
  | zero => simp [pfreePages, show ¬(start ≤ p ∧ p < start) by omega]
  | succ n ih =>
    have hsame : ∀ t : State, t.pmm.bitmap = s.pmm.bitmap →
        bitmapGet (pfreePage start pages n t).mem s.pmm.bitmap p =
          (bitmapGet t.mem s.pmm.bitmap p && !decide (start+n = p)) := by
      intro t ht
      rw [pfreePage, ht]
      split_ifs with hget hpush
      · exact bitmapGet_clear _ _ _ _
      · exact bitmapGet_clear _ _ _ _
      · by_cases hp : start+n = p
        · rw [hp, Bool.not_eq_true] at hget
          rw [hget, Bool.false_and]
        · rw [decide_eq_false hp, Bool.not_false, Bool.and_true]
    rw [pfreePages, hsame _ (pfreePages_bitmap _ _ _ _), ih, Bool.and_assoc, ← Bool.not_or]
    congr 2
    rw [← Bool.decide_or, decide_eq_decide]
    omega

theorem pfreePages_free (hset : ∀ k < n, bitmapGet s.mem s.pmm.bitmap (start+k) = true) :
    (pfreePages start pages n s).pmm.freePages = s.pmm.freePages+n := by
  induction n with
  | zero => rfl
  | succ n ih =>
    have hget : bitmapGet (pfreePages start pages n s).mem s.pmm.bitmap (start+n) = true := by
      rw [pfreePages_bit, hset n (by omega), decide_eq_false (by omega)]
      rfl
    rw [pfreePages, pfreePage, pfreePages_bitmap, if_pos hget]
    split_ifs
    · exact congrArg (·+1) (ih fun k hk => hset k (by omega))
    · exact congrArg (·+1) (ih fun k hk => hset k (by omega))

theorem pfreePages_clear (hclear : ∀ k < n, bitmapGet s.mem s.pmm.bitmap (start+k) = false) :
    pfreePages start pages n s = s := by
  induction n with
  | zero => rfl
  | succ n ih =>
    rw [pfreePages, ih fun k hk => hclear k (by omega), pfreePage, hclear n (by omega),
      if_neg Bool.false_ne_true]

end Loop

variable {D : Layout} {s : State} {n start : ℕ}

theorem pfreeStart_page (hpage : 4096*start < D.top) (hh : Bool) :
    pfreeStart D.hhdmOffset (pageAddress D.hhdmOffset (4096*start) hh) = start := by
  have hoffset := D.top_le_offset
  rw [pageAddress_eq D hpage, pfreeStart]
  cases hh
  · have hbelow : ¬4096*start ≥ D.hhdmOffset := by omega
    simp only [Bool.false_eq_true, if_false, if_neg hbelow]
    omega
  · have habove : D.hhdmOffset+4096*start ≥ D.hhdmOffset := by omega
    simp only [if_true, if_pos habove]
    omega

/-- A non-null pointer to pages of the bitmap reaches the loop of `pfree`. -/
theorem pfree_page (hreach : 4096*s.pmm.bitmapPages ≤ D.top) (hn : 0 < n)
    (hfit : start+n ≤ s.pmm.bitmapPages) (hh : Bool)
    (hne : pageAddress D.hhdmOffset (4096*start) hh ≠ 0) :
    pfree D.hhdmOffset (pageAddress D.hhdmOffset (4096*start) hh) n s =
      pfreePages start n n s := by
  have haddress := D.top_le_address
  have haligned := D.offset_aligned
  have hpage : 4096*start < D.top := by omega
  have hmod : pageAddress D.hhdmOffset (4096*start) hh % 4096 = 0 := by
    rw [pageAddress_eq D hpage]
    split_ifs <;> omega
  rw [pfree, if_neg (by omega), pfreeStart_page hpage, wrap_of_lt (by omega), if_neg (by omega)]

/-- Freeing a run of used pages clears its bits and counts them; freeing it
again has no effect. -/
theorem pfree_run (hreach : 4096*s.pmm.bitmapPages ≤ D.top) (hn : 0 < n)
    (hfit : start+n ≤ s.pmm.bitmapPages) (hh : Bool)
    (hne : pageAddress D.hhdmOffset (4096*start) hh ≠ 0)
    (hset : ∀ k < n, bitmapGet s.mem s.pmm.bitmap (start+k) = true) :
    let ptr := pageAddress D.hhdmOffset (4096*start) hh
    let s' := pfree D.hhdmOffset ptr n s
    (∀ p, bitmapGet s'.mem s.pmm.bitmap p =
      (bitmapGet s.mem s.pmm.bitmap p && !decide (start ≤ p ∧ p < start+n))) ∧
      s'.pmm.freePages = s.pmm.freePages+n ∧ pfree D.hhdmOffset ptr n s' = s' := by
  dsimp only
  rw [pfree_page hreach hn hfit hh hne]
  refine ⟨pfreePages_bit start n n s, pfreePages_free start n n s hset, ?_⟩
  rw [pfree_page (by rwa [pfreePages_pages]) hn (by rwa [pfreePages_pages]) hh hne]
  apply pfreePages_clear
  intro i hi
  rw [pfreePages_bitmap, pfreePages_bit, decide_eq_true (by omega), Bool.not_true, Bool.and_false]

/-- Both paths of `palloc` take a run of clear pages in the same way; only the
cache index tells them apart. -/
theorem palloc_takes (hh : Bool)
    (hinside : ∀ i < s.pmm.cacheIndex, s.pmm.pageCache i < s.pmm.bitmapPages)
    (hcleared : ∀ i < s.pmm.cacheIndex,
      bitmapGet s.mem s.pmm.bitmap (s.pmm.pageCache i) = false)
    (hne : (palloc D.hhdmOffset n hh s).1 ≠ 0) :
    ∃ start k, 0 < n ∧ n ≤ s.pmm.freePages ∧ start ∈ clearRuns s n ∧
      palloc D.hhdmOffset n hh s = (pageAddress D.hhdmOffset (4096*start) hh,
        ⟨(taken D.hhdmOffset s n start).mem,
          { s.pmm with cacheIndex := k, freePages := s.pmm.freePages-n }⟩) := by
  by_cases hn : n = 0 ∨ n > s.pmm.freePages
  · rw [palloc, if_pos hn] at hne
    exact absurd rfl hne
  by_cases hcache : n = 1 ∧ 0 < s.pmm.cacheIndex
  · obtain ⟨rfl, hpos⟩ := hcache
    have hlast : s.pmm.cacheIndex-1 < s.pmm.cacheIndex := by omega
    have hlt := hinside _ hlast
    refine ⟨s.pmm.pageCache (s.pmm.cacheIndex-1), s.pmm.cacheIndex-1, Nat.one_pos, by omega,
      ⟨hlt, fun k hk => ?_⟩, ?_⟩
    · rw [show s.pmm.pageCache (s.pmm.cacheIndex-1)+k = s.pmm.pageCache (s.pmm.cacheIndex-1) by
        omega]
      exact hcleared _ hlast
    · rw [palloc, if_neg hn, if_pos ⟨rfl, hpos⟩]
      simp only [Nat.mul_div_cancel_left _ (show 0 < 4096 by decide), taken, setRun, Nat.add_zero]
  · rcases palloc_search D.hhdmOffset s n hh (by omega) hcache with
      ⟨start, hfree, hleast, heq⟩ | ⟨-, heq⟩
    · exact ⟨start, s.pmm.cacheIndex, by omega, hfree, hleast.1.1, heq⟩
    · rw [heq] at hne
      exact absurd rfl hne

/-- A run whose pages do not hold the bitmap has its bits set once it is taken. -/
theorem taken_bit_apart (hreach : 4096*s.pmm.bitmapPages ≤ D.top) (hn : 0 < n)
    (hfit : start+n ≤ s.pmm.bitmapPages)
    (hapart : Disjoint (Range s.pmm.bitmap s.pmm.bitmapSize) (pageBytes D start n)) (p : ℕ)
    (hp : p < 8*s.pmm.bitmapSize) :
    bitmapGet (taken D.hhdmOffset s n start).mem s.pmm.bitmap p =
      (bitmapGet s.mem s.pmm.bitmap p || decide (start ≤ p ∧ p < start+n)) := by
  have hout : s.pmm.bitmap+p/8 ∉ pageBytes D start n := fun hin =>
    Set.disjoint_left.mp hapart (show _ ∈ Range _ _ by simp only [mem_range]; omega) hin
  rw [Bool.eq_iff_iff, taken_bit hreach hn hfit, Bool.or_eq_true, decide_eq_true_iff]
  exact and_iff_right hout

theorem physical_page (hpage : 4096*start < D.top) (hh : Bool) :
    physical D.hhdmOffset (pageAddress D.hhdmOffset (4096*start) hh) = 4096*start := by
  rw [pageAddress_eq D hpage]
  cases hh
  · exact physical_frame D _ hpage
  · exact physical_pointer D _

/-- A successful request whose pages do not hold the bitmap is undone by one
free of the same run, and a second free of it has no effect. -/
theorem pfree_undoes_palloc (D : Layout) (s : State) (n : ℕ) (hh : Bool)
    (hreach : 4096*s.pmm.bitmapPages ≤ D.top)
    (hcover : s.pmm.bitmapPages ≤ 8*s.pmm.bitmapSize)
    (hinside : ∀ i < s.pmm.cacheIndex, s.pmm.pageCache i < s.pmm.bitmapPages)
    (hcleared : ∀ i < s.pmm.cacheIndex,
      bitmapGet s.mem s.pmm.bitmap (s.pmm.pageCache i) = false)
    (hne : (palloc D.hhdmOffset n hh s).1 ≠ 0)
    (hapart : Disjoint (Range s.pmm.bitmap s.pmm.bitmapSize)
      (Range (D.hhdmOffset+physical D.hhdmOffset (palloc D.hhdmOffset n hh s).1) (4096*n))) :
    let r := palloc D.hhdmOffset n hh s
    let s' := pfree D.hhdmOffset r.1 n r.2
    (∀ p < 8*s.pmm.bitmapSize,
      bitmapGet s'.mem s.pmm.bitmap p = bitmapGet s.mem s.pmm.bitmap p) ∧
      s'.pmm.freePages = s.pmm.freePages ∧ pfree D.hhdmOffset r.1 n s' = s' := by
  obtain ⟨start, k, hn, hfree, ⟨hfit, hclear⟩, heq⟩ := palloc_takes hh hinside hcleared hne
  have hpage : 4096*start < D.top := by omega
  rw [heq] at hne hapart ⊢
  rw [physical_page hpage] at hapart
  have hbit := taken_bit_apart hreach hn hfit hapart
  obtain ⟨hfreed, hcount, hagain⟩ := pfree_run (D := D) (n := n)
    (s := ⟨(taken D.hhdmOffset s n start).mem,
      { s.pmm with cacheIndex := k, freePages := s.pmm.freePages-n }⟩) hreach hn hfit hh hne
    (fun i hi => (hbit (start+i) (by omega)).trans (by simp [hi]))
  refine ⟨fun p hp => ?_, hcount.trans (Nat.sub_add_cancel hfree), hagain⟩
  refine (hfreed p).trans ?_
  dsimp only
  rw [hbit p hp]
  by_cases hin : start ≤ p ∧ p < start+n
  · have := hclear (p-start) (by omega)
    rw [show start+(p-start) = p by omega] at this
    simp [hin, this]
  · simp [hin]

theorem small_apart :
    Disjoint (Range smallWorld.state.pmm.bitmap smallWorld.state.pmm.bitmapSize)
      (Range (smallLayout.hhdmOffset+physical smallLayout.hhdmOffset
        (palloc smallLayout.hhdmOffset 2 true smallWorld.state).1) (4096*2)) := by
  have hbitmap : smallWorld.state.pmm.bitmap = 0xffff800000001000 := by decide +kernel
  have hsize : smallWorld.state.pmm.bitmapSize = 0x1000 := by decide +kernel
  have hptr : smallLayout.hhdmOffset+physical smallLayout.hhdmOffset
      (palloc smallLayout.hhdmOffset 2 true smallWorld.state).1 = 0xffff800000002000 := by
    decide +kernel
  rw [hbitmap, hsize, hptr]
  exact Set.disjoint_left.mpr fun x hx hy => by
    simp only [mem_range] at hx hy
    omega

theorem pfree_undoes_palloc_small :
    let r := palloc smallLayout.hhdmOffset 2 true smallWorld.state
    let s' := pfree smallLayout.hhdmOffset r.1 2 r.2
    (∀ p < 8*smallWorld.state.pmm.bitmapSize,
      bitmapGet s'.mem smallWorld.state.pmm.bitmap p =
        bitmapGet smallWorld.state.mem smallWorld.state.pmm.bitmap p) ∧
      s'.pmm.freePages = smallWorld.state.pmm.freePages ∧
      pfree smallLayout.hhdmOffset r.1 2 s' = s' :=
  pfree_undoes_palloc smallLayout smallWorld.state 2 true (by decide +kernel) (by decide +kernel)
    (by decide +kernel) (by decide +kernel) (by decide +kernel) small_apart

/-- The page that holds the bitmap is taken, and its own bit is zeroed with it,
so the free meets a clear bit and the counter stays one short. -/
theorem own_page_not_returned :
    selfState.pmm.bitmapPages ≤ 8*selfState.pmm.bitmapSize ∧ selfState.pmm.cacheIndex = 0 ∧
      let r := palloc smallLayout.hhdmOffset 1 true selfState
      r.1 ≠ 0 ∧
        (pfree smallLayout.hhdmOffset r.1 1 r.2).pmm.freePages ≠ selfState.pmm.freePages := by
  decide +kernel

end Emk.PmmRoundTrip
