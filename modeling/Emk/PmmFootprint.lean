import Emk.PmmReached

/-!
# Which bytes of the bitmap are touched

`pmm_init` rounds the number of pages down to whole bytes before it rounds
the bitmap up to whole pages, while its users touch the last, partly used
byte as well. The lists below record the byte indices that the clearing
pass, the search and `pfree` read or write, in the order of the source. All
of them lie inside the bitmap exactly when the last 128 MiB of the memory
described hold no page or at least eight.
-/

set_option autoImplicit false

namespace Emk.PmmFootprint
open Emk.ByteMemory Emk.MachineWord Emk.DirectMap Emk.PageAllocator Emk.Pmm
  Emk.PmmOwnership Emk.PmmReached

/-- The bytes that `clearEntry` touches. -/
def clearEntryBytes (bitmapPages last : ℕ) : ℕ → ℕ → List ℕ
  | 0, _ => []
  | rounds+1, j =>
    if j < last then
      (if j/4096 < bitmapPages then [j/4096/8] else []) ++
        clearEntryBytes bitmapPages last rounds (wrap (j+4096))
    else []

def clearUsableBytes (bitmapPages : ℕ) : List MemmapEntry → List ℕ
  | [] => []
  | e::es =>
    (if e.type = .usable then
      clearEntryBytes bitmapPages (wrap (e.base+e.length)) (2^52) e.base
    else []) ++ clearUsableBytes bitmapPages es

/-- The bytes that `scanWord` tests, and those of the run it finds. -/
def scanWordBytes (m : Mem) (bitmap bitmapPages pages startBit : ℕ) : ℕ → ℕ → ℕ → List ℕ
  | 0, _, _ => []
  | rounds+1, j, c =>
    if startBit+j < bitmapPages then
      (startBit+j)/8 ::
        if bitmapGet m bitmap (startBit+j) then
          scanWordBytes m bitmap bitmapPages pages startBit rounds (j+1) 0
        else if c+1 = pages then (List.range pages).map (fun k => (startBit+j+1-pages+k)/8)
        else scanWordBytes m bitmap bitmapPages pages startBit rounds (j+1) (c+1)
    else []

/-- Each word is read whole before its bits are tested. -/
def scanWordsBytes (m : Mem) (bitmap bitmapPages pages : ℕ) : ℕ → ℕ → List ℕ
  | 0, _ => []
  | rounds+1, i =>
    (List.range 8).map (fun k => 8*i+k) ++
      if load64 m (bitmap+8*i) ≠ 2^64-1 then
        scanWordBytes m bitmap bitmapPages pages (i*64) 64 0 0 ++
          match scanWord m bitmap bitmapPages pages (i*64) 64 0 0 with
          | some _ => []
          | none => scanWordsBytes m bitmap bitmapPages pages rounds (i+1)
      else scanWordsBytes m bitmap bitmapPages pages rounds (i+1)

def pallocBytes (pages : ℕ) (s : State) : List ℕ :=
  let v := s.pmm
  if pages = 0 ∨ pages > v.freePages then []
  else if pages = 1 ∧ v.cacheIndex > 0 then [v.pageCache (v.cacheIndex-1)/8]
  else scanWordsBytes s.mem v.bitmap v.bitmapPages pages ((v.bitmapPages+64-1)/64) 0

def pfreeBytes (hhdmOffset ptr pages : ℕ) (s : State) : List ℕ :=
  if ptr = 0 ∨ ptr % 4096 ≠ 0 then []
  else if wrap (pfreeStart hhdmOffset ptr+pages) > s.pmm.bitmapPages then []
  else (List.range pages).map (fun i => (pfreeStart hhdmOffset ptr+i)/8)

section Recorded
variable {bitmap : ℕ}

theorem clearEntry_recorded (bitmapPages last rounds j x : ℕ) (m : Mem)
    (hx : ∀ b ∈ clearEntryBytes bitmapPages last rounds j, bitmap+b ≠ x) :
    clearEntry bitmap bitmapPages last rounds j m x = m x := by
  induction rounds generalizing j m with
  | zero => rfl
  | succ rounds ih =>
    rw [clearEntryBytes] at hx
    rw [clearEntry]
    split_ifs at hx ⊢ with hlt hp
    · rw [ih _ _ fun b hb => hx b (List.mem_append_right _ hb)]
      exact Function.update_of_ne (hx _ (List.mem_append_left _ (List.mem_singleton_self _))).symm
        _ _
    · exact ih _ _ fun b hb => hx b (List.mem_append_right _ hb)
    · rfl

/-- The third pass of `pmm_init` writes no byte that is not recorded. -/
theorem clearUsable_recorded (bitmapPages x : ℕ) (es : List MemmapEntry) (m : Mem)
    (hx : ∀ b ∈ clearUsableBytes bitmapPages es, bitmap+b ≠ x) :
    clearUsable bitmap bitmapPages es m x = m x := by
  induction es generalizing m with
  | nil => rfl
  | cons e es ih =>
    rw [clearUsableBytes] at hx
    rw [clearUsable, ih _ fun b hb => hx b (List.mem_append_right _ hb)]
    split_ifs at hx ⊢ with hu
    · exact clearEntry_recorded _ _ _ _ _ _ fun b hb => hx b (List.mem_append_left _ hb)
    · rfl

theorem bitmapGet_congr {m m' : Mem} {i : ℕ} (h : m' (bitmap+i/8) = m (bitmap+i/8)) :
    bitmapGet m' bitmap i = bitmapGet m bitmap i := by
  rw [bitmapGet, bitmapGet, h]

theorem scanWord_recorded (m m' : Mem) (bitmapPages pages startBit rounds j c : ℕ)
    (h : ∀ b ∈ scanWordBytes m bitmap bitmapPages pages startBit rounds j c,
      m' (bitmap+b) = m (bitmap+b)) :
    scanWord m' bitmap bitmapPages pages startBit rounds j c =
      scanWord m bitmap bitmapPages pages startBit rounds j c := by
  induction rounds generalizing j c with
  | zero => rfl
  | succ rounds ih =>
    rw [scanWordBytes] at h
    rw [scanWord, scanWord]
    by_cases hlt : startBit+j < bitmapPages
    · rw [if_pos hlt] at h
      have hget := bitmapGet_congr (h _ List.mem_cons_self)
      have hrest := fun b hb => h b (List.mem_cons_of_mem _ hb)
      rw [if_pos hlt, if_pos hlt, hget]
      split_ifs at hrest ⊢
      · exact ih _ _ hrest
      · rfl
      · exact ih _ _ hrest
    · rw [if_neg hlt, if_neg hlt]

/-- The search depends on the recorded bytes alone. -/
theorem scanWords_recorded (m m' : Mem) (bitmapPages pages rounds i : ℕ)
    (h : ∀ b ∈ scanWordsBytes m bitmap bitmapPages pages rounds i,
      m' (bitmap+b) = m (bitmap+b)) :
    scanWords m' bitmap bitmapPages pages rounds i =
      scanWords m bitmap bitmapPages pages rounds i := by
  induction rounds generalizing i with
  | zero => rfl
  | succ rounds ih =>
    rw [scanWordsBytes] at h
    rw [scanWords, scanWords]
    have hload : load64 m' (bitmap+8*i) = load64 m (bitmap+8*i) := by
      apply load_congr
      intro x hx
      simp only [mem_range] at hx
      have := h (8*i+(x-(bitmap+8*i))) (List.mem_append_left _
        (List.mem_map.mpr ⟨_, List.mem_range.mpr (by omega), rfl⟩))
      rwa [show bitmap+(8*i+(x-(bitmap+8*i))) = x by omega] at this
    have hrest := fun b hb => h b (List.mem_append_right _ hb)
    rw [hload]
    split_ifs at hrest ⊢ with hfull
    · rw [scanWord_recorded m m' _ _ _ _ _ _ fun b hb => hrest b (List.mem_append_left _ hb)]
      cases hscan : scanWord m bitmap bitmapPages pages (i*64) 64 0 0 with
      | some start => rfl
      | none =>
        rw [hscan] at hrest
        exact ih _ fun b hb => hrest b (List.mem_append_right _ hb)
    · exact ih _ hrest

theorem scanWord_marks (m : Mem) (bitmapPages pages startBit rounds j c start k : ℕ)
    (h : scanWord m bitmap bitmapPages pages startBit rounds j c = some start) (hk : k < pages) :
    (start+k)/8 ∈ scanWordBytes m bitmap bitmapPages pages startBit rounds j c := by
  induction rounds generalizing j c with
  | zero => exact absurd h.symm (Option.some_ne_none _)
  | succ rounds ih =>
    rw [scanWord] at h
    rw [scanWordBytes]
    split_ifs at h ⊢ with hlt hget heq
    · exact List.mem_cons_of_mem _ (ih _ _ h)
    · obtain rfl := Option.some.inj h
      exact List.mem_cons_of_mem _ (List.mem_map.mpr ⟨k, List.mem_range.mpr hk, rfl⟩)
    · exact List.mem_cons_of_mem _ (ih _ _ h)

/-- The bits that `palloc` sets are in recorded bytes. -/
theorem scanWords_marks (m : Mem) (bitmapPages pages rounds i start k : ℕ)
    (h : scanWords m bitmap bitmapPages pages rounds i = some start) (hk : k < pages) :
    (start+k)/8 ∈ scanWordsBytes m bitmap bitmapPages pages rounds i := by
  induction rounds generalizing i with
  | zero => exact absurd h.symm (Option.some_ne_none _)
  | succ rounds ih =>
    rw [scanWords] at h
    rw [scanWordsBytes]
    apply List.mem_append_right
    split_ifs at h ⊢ with hfull
    · cases hscan : scanWord m bitmap bitmapPages pages (i*64) 64 0 0 with
      | some found =>
        rw [hscan] at h
        obtain rfl := Option.some.inj h
        exact List.mem_append_left _ (scanWord_marks m _ _ _ _ _ _ _ _ hscan hk)
      | none =>
        rw [hscan] at h
        exact List.mem_append_right _ (ih _ h)
    · exact ih _ h

/-- `pfree` writes no byte that is not recorded. -/
theorem pfree_recorded (hhdmOffset ptr pages x : ℕ) (s : State)
    (hx : ∀ b ∈ pfreeBytes hhdmOffset ptr pages s, s.pmm.bitmap+b ≠ x) :
    (pfree hhdmOffset ptr pages s).mem x = s.mem x := by
  by_cases hnull : ptr = 0 ∨ ptr % 4096 ≠ 0
  · rw [pfree, if_pos hnull]
  have hkeep : (pfree hhdmOffset ptr pages s).pmm.bitmap = s.pmm.bitmap ∧
      (pfree hhdmOffset ptr pages s).mem x = s.mem x := by
    refine pfree_keeps (I := fun t => t.pmm.bitmap = s.pmm.bitmap ∧ t.mem x = s.mem x) ⟨rfl, rfl⟩ ?_
    rintro hin i hi t ⟨hbitmap, hmem⟩
    rw [pfreeBytes, if_neg hnull, if_neg (not_lt.mpr hin)] at hx
    have hne := (hx _ (List.mem_map.mpr ⟨i, List.mem_range.mpr hi, rfl⟩)).symm
    rw [← hbitmap] at hne
    rw [pfreePage]
    split_ifs
    · exact ⟨hbitmap, (Function.update_of_ne hne _ _).trans hmem⟩
    · exact ⟨hbitmap, (Function.update_of_ne hne _ _).trans hmem⟩
    · exact ⟨hbitmap, hmem⟩
  exact hkeep.2

end Recorded

section Bounds

theorem clearEntryBytes_lt (bitmapPages last rounds j : ℕ) :
    ∀ b ∈ clearEntryBytes bitmapPages last rounds j, 8*b < bitmapPages := by
  induction rounds generalizing j with
  | zero => exact fun b hb => absurd hb List.not_mem_nil
  | succ rounds ih =>
    intro b hb
    rw [clearEntryBytes] at hb
    split_ifs at hb with hlt hp
    · rcases List.mem_append.mp hb with hb | hb
      · obtain rfl := List.mem_singleton.mp hb
        omega
      · exact ih _ b hb
    · exact ih _ b hb
    · exact absurd hb List.not_mem_nil

theorem clearUsableBytes_lt (bitmapPages : ℕ) (es : List MemmapEntry) :
    ∀ b ∈ clearUsableBytes bitmapPages es, 8*b < bitmapPages := by
  induction es with
  | nil => exact fun b hb => absurd hb List.not_mem_nil
  | cons e es ih =>
    intro b hb
    rw [clearUsableBytes] at hb
    split_ifs at hb
    · rcases List.mem_append.mp hb with hb | hb
      · exact clearEntryBytes_lt _ _ _ _ b hb
      · exact ih b hb
    · exact ih b hb

/-- `c ≤ j` keeps the start of the run from wrapping below the word. -/
theorem scanWordBytes_lt (m : Mem) (bitmap bitmapPages pages startBit rounds j c : ℕ)
    (hc : c ≤ j) :
    ∀ b ∈ scanWordBytes m bitmap bitmapPages pages startBit rounds j c, 8*b < bitmapPages := by
  induction rounds generalizing j c with
  | zero => exact fun b hb => absurd hb List.not_mem_nil
  | succ rounds ih =>
    intro b hb
    rw [scanWordBytes] at hb
    split_ifs at hb with hlt hget heq
    · rcases List.mem_cons.mp hb with rfl | hb
      · omega
      · exact ih _ _ (by omega) b hb
    · rcases List.mem_cons.mp hb with rfl | hb
      · omega
      · obtain ⟨k, hk, rfl⟩ := List.mem_map.mp hb
        rw [List.mem_range] at hk
        omega
    · rcases List.mem_cons.mp hb with rfl | hb
      · omega
      · exact ih _ _ (by omega) b hb
    · exact absurd hb List.not_mem_nil

theorem scanWordsBytes_lt (m : Mem) (bitmap bitmapPages pages rounds i : ℕ) :
    ∀ b ∈ scanWordsBytes m bitmap bitmapPages pages rounds i,
      b < 8*(i+rounds) ∨ 8*b < bitmapPages := by
  induction rounds generalizing i with
  | zero => exact fun b hb => absurd hb List.not_mem_nil
  | succ rounds ih =>
    intro b hb
    have hrest : b ∈ scanWordsBytes m bitmap bitmapPages pages rounds (i+1) →
        b < 8*(i+(rounds+1)) ∨ 8*b < bitmapPages := by
      intro hin
      have := ih (i+1) b hin
      omega
    rw [scanWordsBytes] at hb
    rcases List.mem_append.mp hb with hb | hb
    · obtain ⟨k, hk, rfl⟩ := List.mem_map.mp hb
      rw [List.mem_range] at hk
      omega
    split_ifs at hb with hfull
    · rcases List.mem_append.mp hb with hb | hb
      · exact .inr (scanWordBytes_lt m _ _ _ _ _ _ _ (le_refl _) b hb)
      · cases hscan : scanWord m bitmap bitmapPages pages (i*64) 64 0 0 with
        | some start =>
          rw [hscan] at hb
          exact absurd hb List.not_mem_nil
        | none =>
          rw [hscan] at hb
          exact hrest hb
    · exact hrest hb

/-- The search reads whole words, so it may touch the rest of the last one. -/
theorem pallocBytes_lt {s : State} (pages : ℕ)
    (hcached : ∀ i < s.pmm.cacheIndex, s.pmm.pageCache i < s.pmm.bitmapPages) :
    ∀ b ∈ pallocBytes pages s, b < 8*((s.pmm.bitmapPages+63)/64) := by
  intro b hb
  rw [pallocBytes] at hb
  split_ifs at hb with hrefuse hcache
  · exact absurd hb List.not_mem_nil
  · obtain rfl := List.mem_singleton.mp hb
    have := hcached (s.pmm.cacheIndex-1) (by omega)
    omega
  · have := scanWordsBytes_lt _ _ _ _ _ _ b hb
    omega

theorem pfreeBytes_lt {s : State} (hhdmOffset ptr pages : ℕ)
    (hfit : pfreeStart hhdmOffset ptr+pages ≤ s.pmm.bitmapPages) :
    ∀ b ∈ pfreeBytes hhdmOffset ptr pages s, 8*b < s.pmm.bitmapPages := by
  intro b hb
  rw [pfreeBytes] at hb
  split_ifs at hb
  · exact absurd hb List.not_mem_nil
  · exact absurd hb List.not_mem_nil
  · obtain ⟨k, hk, rfl⟩ := List.mem_map.mp hb
    rw [List.mem_range] at hk
    omega

end Bounds

/-- The end of the highest usable entry. -/
def usableTop : List MemmapEntry → ℕ
  | [] => 0
  | e::es => if e.type = .usable then max (wrap (e.base+e.length)) (usableTop es) else usableTop es

theorem scanMemmap_usableTop (high free : ℕ) (es : List MemmapEntry) :
    (scanMemmap high free es).1 = max high (usableTop es) := by
  induction es generalizing high free with
  | nil => exact (Nat.max_zero high).symm
  | cons e es ih =>
    rw [scanMemmap, usableTop]
    split_ifs with hu
    · rw [ih]
      split_ifs <;> omega
    · exact ih _ _

theorem bitmapPagesFor_usableTop (memmap : List MemmapEntry) :
    bitmapPagesFor memmap = usableTop memmap/4096 := by
  rw [bitmapPagesFor, scanMemmap_usableTop, Nat.zero_max]

/-- Every byte index touched, from the clearing pass of `pmm_init` on, lies
inside the bitmap. -/
def BitmapCovers (hhdmOffset : ℕ) (memmap : List MemmapEntry) : Prop :=
  (∀ b ∈ clearUsableBytes (bitmapPagesFor memmap) (placeBitmap (bitmapSizeFor memmap) memmap).2,
    b < bitmapSizeFor memmap) ∧
  ∀ s, Reached hhdmOffset memmap s →
    (∀ pages, ∀ b ∈ pallocBytes pages s, b < s.pmm.bitmapSize) ∧
    ∀ ptr < 2^64, ∀ pages, pfreeStart hhdmOffset ptr+pages ≤ s.pmm.bitmapPages →
      ∀ b ∈ pfreeBytes hhdmOffset ptr pages s, b < s.pmm.bitmapSize

theorem bitmapSizeFor_covers (memmap : List MemmapEntry) :
    bitmapPagesFor memmap ≤ 8*bitmapSizeFor memmap ↔
      usableTop memmap/4096 % 32768 = 0 ∨ 8 ≤ usableTop memmap/4096 % 32768 := by
  rw [bitmapSizeFor_eq, bitmapPagesFor_usableTop]
  omega

/-- The last page described can be freed through the direct map. -/
theorem last_page_byte {D : Layout} {s : State} (hreach : 4096*s.pmm.bitmapPages ≤ D.top)
    (hpos : 0 < s.pmm.bitmapPages) :
    pfreeStart D.hhdmOffset (D.hhdmOffset+4096*(s.pmm.bitmapPages-1))+1 ≤ s.pmm.bitmapPages ∧
      (s.pmm.bitmapPages-1)/8 ∈
        pfreeBytes D.hhdmOffset (D.hhdmOffset+4096*(s.pmm.bitmapPages-1)) 1 s := by
  have haligned := D.offset_aligned
  have hoffset := D.top_le_offset
  have haddress := D.top_le_address
  have hstart : pfreeStart D.hhdmOffset (D.hhdmOffset+4096*(s.pmm.bitmapPages-1)) =
      s.pmm.bitmapPages-1 := by
    rw [pfreeStart, if_pos (by omega)]
    omega
  refine ⟨by omega, ?_⟩
  rw [pfreeBytes, if_neg (by omega), hstart, wrap_of_lt (by omega), if_neg (by omega)]
  exact List.mem_map.mpr ⟨0, List.mem_range.mpr Nat.one_pos, rfl⟩

/-- All bytes touched lie inside the bitmap exactly when the pages below the
end of the highest usable entry are not one to seven more than a multiple of
the pages that a page of bitmap describes. -/
theorem bitmap_covers_iff (D : Layout) (memmap : List MemmapEntry)
    (hreach : 4096*bitmapPagesFor memmap ≤ D.top) :
    BitmapCovers D.hhdmOffset memmap ↔
      usableTop memmap/4096 % 32768 = 0 ∨ 8 ≤ usableTop memmap/4096 % 32768 := by
  have hsize := bitmapSizeFor_pages memmap
  rw [← bitmapSizeFor_covers]
  constructor
  · rintro ⟨-, hcalls⟩
    by_contra hshort
    have hoffset := D.top_le_offset
    have hfits := D.pointer_fits
    obtain ⟨hpages, hbytes, -⟩ := init_settled D.hhdmOffset memmap (fun _ => 0)
    obtain ⟨-, hpfree⟩ := hcalls _ (init_reached D.hhdmOffset memmap (fun _ => 0))
    obtain ⟨hfit, hlast⟩ := last_page_byte (D := D) (by rwa [hpages]) (by rw [hpages]; omega)
    have hinside := hpfree _ (by rw [hpages]; omega) 1 hfit _ hlast
    rw [hpages, hbytes] at hinside
    omega
  · intro hcover
    refine ⟨fun b hb => ?_, fun s hr => ?_⟩
    · have := clearUsableBytes_lt _ _ b hb
      omega
    · obtain ⟨hpages, hbytes, hcached⟩ := reached_settled hr
      refine ⟨fun pages b hb => ?_, fun ptr _ pages hfit b hb => ?_⟩
      · have := pallocBytes_lt pages hcached b hb
        omega
      · have := pfreeBytes_lt D.hhdmOffset ptr pages hfit b hb
        omega

theorem bitmap_covers_iff_small :
    BitmapCovers smallLayout.hhdmOffset smallMap ↔
      usableTop smallMap/4096 % 32768 = 0 ∨ 8 ≤ usableTop smallMap/4096 % 32768 :=
  bitmap_covers_iff smallLayout smallMap (by decide)

theorem clearEntryBytes_mem (bitmapPages last rounds j p : ℕ) (hj : j % 4096 = 0)
    (hl : last+4096 ≤ 2^64) (hp : p < bitmapPages) (hlo : j ≤ 4096*p) (hhi : 4096*p < last)
    (hr : 4096*p < j+4096*rounds) : p/8 ∈ clearEntryBytes bitmapPages last rounds j := by
  induction rounds generalizing j with
  | zero => omega
  | succ rounds ih =>
    rw [clearEntryBytes, if_pos (by omega), wrap_of_lt (by omega)]
    by_cases hpage : j = 4096*p
    · rw [hpage, Nat.mul_div_cancel_left _ (by decide), if_pos hp]
      exact List.mem_append_left _ (List.mem_singleton_self _)
    · exact List.mem_append_right _ (ih (j+4096) (by omega) (by omega) (by omega))

/-- Usable memory from 1 MiB up to one page past 128 MiB. -/
def edgeMap : List MemmapEntry := [⟨0x100000, 0x7f01000, .usable⟩]

/-- The bitmap has 4096 bytes, and clearing the last page writes byte 4096. -/
theorem bitmap_overrun :
    (placeBitmap (bitmapSizeFor edgeMap) edgeMap).1 ≠ none ∧
      ∃ b ∈ clearUsableBytes (bitmapPagesFor edgeMap)
          (placeBitmap (bitmapSizeFor edgeMap) edgeMap).2,
        ¬ b < bitmapSizeFor edgeMap := by
  have hsize : bitmapSizeFor edgeMap = 4096 := by decide +kernel
  have hpages : bitmapPagesFor edgeMap = 32769 := by decide +kernel
  have hleft : (placeBitmap 4096 edgeMap).2 = [⟨0x101000, 0x7f00000, .usable⟩] := by
    decide +kernel
  refine ⟨by decide +kernel, 32768/8, ?_, by omega⟩
  rw [hsize, hpages, hleft, clearUsableBytes, if_pos rfl]
  refine List.mem_append_left _ (clearEntryBytes_mem _ _ _ _ _ ?_ ?_ ?_ ?_ ?_ ?_)
  · decide
  · decide +kernel
  · decide
  · decide
  · decide +kernel
  · decide +kernel

end Emk.PmmFootprint
