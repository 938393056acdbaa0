import Emk.PmmBoot
import Emk.PmmSearch

/-!
# Refused requests

Any calls may reach the allocator after `pmm_init`, and its callers may
write anywhere in between. Its constants keep their values and cached
indices stay below the number of pages. A request that returns `NULL` has
then left everything alone, unless it took page 0: its physical address
cannot be told from a failure.
-/

set_option autoImplicit false

namespace Emk.PmmReached
open Emk.ByteMemory Emk.MachineWord Emk.DirectMap Emk.PageAllocator Emk.Pmm Emk.PmmOwnership
  Emk.PmmSearch Emk.PmmBoot Emk.Transition

inductive Event where
  | call (o : Op)
  | write (m : Mem)

def next (hhdmOffset : ℕ) (s : State) : Event → State
  | .call (.palloc pages hh) => (palloc hhdmOffset pages hh s).2
  | .call (.pfree ptr pages) => pfree hhdmOffset ptr pages s
  | .write m => ⟨m, s.pmm⟩

/-- Pointers are machine words. -/
def Representable : Event → Prop
  | .call (.pfree ptr _) => ptr < 2^64
  | _ => True

/-- The states that any calls and writes lead to from `pmm_init`. -/
def Reached (hhdmOffset : ℕ) (memmap : List MemmapEntry) (s : State) : Prop :=
  ∃ m events, (∀ e ∈ events, Representable e) ∧
    s = run (next hhdmOffset) (pmmInit hhdmOffset memmap m).1 events

/-- What no call and no write changes. -/
structure Settled (memmap : List MemmapEntry) (s : State) : Prop where
  pages : s.pmm.bitmapPages = bitmapPagesFor memmap
  size : s.pmm.bitmapSize = bitmapSizeFor memmap
  cached : ∀ i < s.pmm.cacheIndex, s.pmm.pageCache i < s.pmm.bitmapPages

variable {hhdmOffset : ℕ} {memmap : List MemmapEntry} {s : State}

theorem palloc_settled (hs : Settled memmap s) (pages : ℕ) (hh : Bool) :
    Settled memmap (palloc hhdmOffset pages hh s).2 := by
  rcases palloc_cases hhdmOffset pages hh s with h | ⟨-, -, h⟩ | ⟨p, -, -, -, h⟩
  · rw [h]
    exact hs
  · rw [h]
    exact ⟨hs.pages, hs.size, fun i hi => hs.cached i (lt_of_lt_of_le hi (Nat.sub_le _ _))⟩
  · rw [h]
    exact ⟨hs.pages, hs.size, hs.cached⟩

theorem pfreePage_settled (hs : Settled memmap s) {start pages : ℕ} (i : ℕ)
    (hstart : pages = 1 → start < s.pmm.bitmapPages) :
    Settled memmap (pfreePage start pages i s) := by
  rw [pfreePage]
  split_ifs with hget hpush
  · refine ⟨hs.pages, hs.size, fun j hj => ?_⟩
    by_cases hlast : j = s.pmm.cacheIndex
    · dsimp only
      rw [hlast, Function.update_self]
      exact hstart hpush.1
    · dsimp only at hj ⊢
      rw [Function.update_of_ne hlast]
      exact hs.cached j (by omega)
  · exact ⟨hs.pages, hs.size, hs.cached⟩
  · exact hs

theorem pfree_settled (hs : Settled memmap s) {ptr pages : ℕ} (hptr : ptr < 2^64) :
    Settled memmap (pfree hhdmOffset ptr pages s) := by
  refine pfree_keeps hs fun hin i _ t ht => pfreePage_settled ht i ?_
  rintro rfl
  have hlow : pfreeStart hhdmOffset ptr < 2^52 := by
    rw [pfreeStart]
    omega
  rw [wrap_of_lt (by omega), hs.pages] at hin
  rw [ht.pages]
  omega

theorem init_settled (hhdmOffset : ℕ) (memmap : List MemmapEntry) (m : Mem) :
    Settled memmap (pmmInit hhdmOffset memmap m).1 := by
  constructor
  · rw [pmmInit]
  · rw [pmmInit]
  · rw [pmmInit]
    exact fun i hi => absurd hi (Nat.not_lt_zero i)

theorem init_reached (hhdmOffset : ℕ) (memmap : List MemmapEntry) (m : Mem) :
    Reached hhdmOffset memmap (pmmInit hhdmOffset memmap m).1 :=
  ⟨m, [], fun _ he => absurd he List.not_mem_nil, rfl⟩

theorem next_settled (s : State) (e : Event) (hs : Settled memmap s) (he : Representable e) :
    Settled memmap (next hhdmOffset s e) := by
  rcases e with (⟨pages, hh⟩ | ⟨ptr, pages⟩) | m
  · exact palloc_settled hs pages hh
  · exact pfree_settled hs he
  · exact ⟨hs.pages, hs.size, hs.cached⟩

theorem reached_settled (hr : Reached hhdmOffset memmap s) : Settled memmap s := by
  obtain ⟨m, events, hwords, rfl⟩ := hr
  exact run_invariant next_settled (init_settled hhdmOffset memmap m) (along_of_forall hwords)

/-- Nothing the allocator keeps differs. -/
def Unchanged (s s' : State) : Prop :=
  Set.EqOn s'.mem s.mem (Range s.pmm.bitmap s.pmm.bitmapSize) ∧
    s'.pmm.freePages = s.pmm.freePages ∧ s'.pmm.pageCache = s.pmm.pageCache ∧
    s'.pmm.cacheIndex = s.pmm.cacheIndex

/-- The request gets page 0 under its physical address: from the top of the
cache, or as the first page of a run of clear bits inside the first word. -/
def TakesPageZero (n : ℕ) (hh : Bool) (s : State) : Prop :=
  hh = false ∧ 0 < n ∧ n ≤ s.pmm.freePages ∧
    if n = 1 ∧ 0 < s.pmm.cacheIndex then s.pmm.pageCache (s.pmm.cacheIndex-1) = 0
    else n ≤ 64 ∧ n ≤ s.pmm.bitmapPages ∧ ∀ k < n, bitmapGet s.mem s.pmm.bitmap k = false

theorem zero_run_iff (n : ℕ) (s : State) :
    0 ∈ wordClearRuns s n ↔
      n ≤ 64 ∧ n ≤ s.pmm.bitmapPages ∧ ∀ k < n, bitmapGet s.mem s.pmm.bitmap k = false := by
  constructor
  · rintro ⟨⟨hfit, hclear⟩, hword⟩
    exact ⟨by omega, by omega, fun k hk => by rw [← hclear k hk, Nat.zero_add]⟩
  · rintro ⟨hword, hfit, hclear⟩
    exact ⟨⟨by omega, fun k hk => by rw [Nat.zero_add, hclear k hk]⟩, by omega⟩

variable {D : Layout}

/-- A request for page 0 by its physical address returns `NULL` and counts the
page as used. -/
theorem page_zero_taken {n : ℕ} {hh : Bool} (h : TakesPageZero n hh s) :
    (palloc D.hhdmOffset n hh s).1 = 0 ∧
      (palloc D.hhdmOffset n hh s).2.pmm.freePages = s.pmm.freePages-n := by
  obtain ⟨rfl, hn, hfree, hzero⟩ := h
  by_cases hcache : n = 1 ∧ 0 < s.pmm.cacheIndex
  · rw [if_pos hcache] at hzero
    have hgo : ¬(n = 0 ∨ n > s.pmm.freePages) := by omega
    rw [palloc, if_neg hgo, if_pos hcache, hzero, hcache.1]
    exact ⟨rfl, rfl⟩
  · rw [if_neg hcache, ← zero_run_iff] at hzero
    rcases palloc_search D.hhdmOffset s n false hn hcache with
      ⟨start, -, hleast, heq⟩ | ⟨hfew | hnone, -⟩
    · obtain rfl : start = 0 := Nat.le_zero.mp (hleast.2 hzero)
      rw [heq]
      exact ⟨rfl, rfl⟩
    · omega
    · rw [hnone] at hzero
      exact absurd hzero (Set.notMem_empty 0)

/-- Any other request that returns `NULL` has changed nothing. -/
theorem null_unchanged {n : ℕ} {hh : Bool} (hreach : 4096*s.pmm.bitmapPages ≤ D.top)
    (hcached : ∀ i < s.pmm.cacheIndex, s.pmm.pageCache i < s.pmm.bitmapPages)
    (h : ¬TakesPageZero n hh s) (hnull : (palloc D.hhdmOffset n hh s).1 = 0) :
    palloc D.hhdmOffset n hh s = (0, s) := by
  by_cases hrefuse : n = 0 ∨ n > s.pmm.freePages
  · rw [palloc, if_pos hrefuse]
  by_cases hcache : n = 1 ∧ 0 < s.pmm.cacheIndex
  · have hlt := hcached (s.pmm.cacheIndex-1) (by omega)
    rw [palloc, if_neg hrefuse, if_pos hcache] at hnull
    obtain ⟨hpage, hhh⟩ := (pageAddress_eq_zero D (by omega) hh).mp hnull
    refine absurd ⟨hhh, by omega, by omega, ?_⟩ h
    rwa [if_pos hcache]
  · rcases palloc_search D.hhdmOffset s n hh (by omega) hcache with
      ⟨start, hfree, hleast, heq⟩ | ⟨-, heq⟩
    · have hfit := hleast.1.1.1
      rw [heq] at hnull
      obtain ⟨rfl, hhh⟩ := (pageAddress_eq_zero D (by omega) hh).mp hnull
      refine absurd ⟨hhh, by omega, hfree, ?_⟩ h
      rw [if_neg hcache, ← zero_run_iff]
      exact hleast.1
    · exact heq

/-- In every state reached from `pmm_init` on a boot-protocol map, a request
that returns `NULL` has had no effect exactly when it did not get page 0 by
its physical address. -/
theorem null_unchanged_iff (D : Layout) (memmap : List MemmapEntry) (hmap : LimineMap D memmap)
    (s : State) (hr : Reached D.hhdmOffset memmap s) (n : ℕ) (hh : Bool) :
    ((palloc D.hhdmOffset n hh s).1 = 0 → Unchanged s (palloc D.hhdmOffset n hh s).2) ↔
      ¬TakesPageZero n hh s := by
  have hs := reached_settled hr
  have htop := bitmapPagesFor_top D memmap hmap
  constructor
  · intro hquiet htakes
    obtain ⟨hnull, hcount⟩ := page_zero_taken (D := D) htakes
    obtain ⟨-, hsame, -⟩ := hquiet hnull
    obtain ⟨-, hn, hfree, -⟩ := htakes
    omega
  · intro hnot hnull
    rw [null_unchanged (by rwa [hs.pages]) hs.cached hnot hnull]
    exact ⟨fun _ _ => rfl, rfl, rfl, rfl⟩

theorem null_unchanged_iff_small :
    ((palloc smallLayout.hhdmOffset 2 true smallWorld.state).1 = 0 →
      Unchanged smallWorld.state (palloc smallLayout.hhdmOffset 2 true smallWorld.state).2) ↔
    ¬TakesPageZero 2 true smallWorld.state :=
  null_unchanged_iff smallLayout smallMap smallMap_limine smallWorld.state
    (init_reached _ _ _) 2 true

/-- A map whose page 0 is usable, and too small to hold the bitmap of the
256 MiB that follow. -/
def zeroLayout : Layout where
  hhdmOffset := 0xffff800000000000
  top := 0x10100000
  top_le_offset := by decide
  top_le_address := by decide
  pointer_fits := by decide
  offset_aligned := limine_offset_aligned

def zeroMap : List MemmapEntry := [⟨0, 0x1000, .usable⟩, ⟨0x100000, 0x10000000, .usable⟩]

theorem zeroMap_limine : LimineMap zeroLayout zeroMap where
  pages := by decide
  disjoint := by simp [zeroMap]

def zeroState : State := (pmmInit zeroLayout.hhdmOffset zeroMap (fun _ => 0)).1

theorem zeroState_takes : TakesPageZero 1 false zeroState := by
  classical
  have hplace : (placeBitmap (bitmapSizeFor zeroMap) zeroMap).1 = some 0x100000 := by
    decide +kernel
  have hcover : bitmapPagesFor zeroMap ≤ 8*bitmapSizeFor zeroMap := by decide +kernel
  have hclear := init_clear zeroLayout.hhdmOffset zeroMap (fun _ => 0) _
    zeroMap_limine.wholePages hplace hcover
  have hcount := init_counted zeroLayout.hhdmOffset zeroMap (fun _ => 0) _
    zeroMap_limine.wholePages hplace hcover
  have hpages : 0 < bitmapPagesFor zeroMap := by decide +kernel
  have hzero : 0 ∈ clearPages zeroState := by
    rw [zeroState, hclear, Finset.mem_filter, Finset.mem_range, inUsable_left
      zeroMap_limine.wholePages hplace]
    exact ⟨hpages, ⟨_, List.mem_cons_self, rfl, by decide, by decide⟩, by omega⟩
  have hcache : zeroState.pmm.cacheIndex = 0 := by
    rw [zeroState, pmmInit_eq _ _ _ _ hplace]
  obtain ⟨hlt, hbit⟩ := mem_clearPages.mp hzero
  refine ⟨rfl, Nat.one_pos, ?_, ?_⟩
  · rw [zeroState, hcount]
    exact Finset.card_pos.mpr ⟨0, hzero⟩
  · rw [if_neg (by omega)]
    refine ⟨by decide, hlt, fun k hk => ?_⟩
    obtain rfl : k = 0 := by omega
    exact hbit

/-- Right after boot the first page asked for is page 0: the caller sees
`NULL`, and the page is gone. -/
theorem page_zero_lost :
    Reached zeroLayout.hhdmOffset zeroMap zeroState ∧
      (palloc zeroLayout.hhdmOffset 1 false zeroState).1 = 0 ∧
      ¬Unchanged zeroState (palloc zeroLayout.hhdmOffset 1 false zeroState).2 := by
  obtain ⟨hnull, hcount⟩ := page_zero_taken (D := zeroLayout) zeroState_takes
  refine ⟨init_reached _ _ _, hnull, fun hsame => ?_⟩
  have hfree := zeroState_takes.2.2.1
  have := hsame.2.1
  omega

end Emk.PmmReached
