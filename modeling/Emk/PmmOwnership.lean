import Emk.PmmInit
import Emk.Transition

/-!
# Which pages the page allocator hands out

Ownership is a ghost list of page numbers: a grant adds the pages it
returns, a free removes the pages it names. The allocator's own record is
the bitmap and the page cache. Ownership stays inside the set bits, and a
grant from the cache is fresh exactly as long as the bitmap agrees with it.
-/

set_option autoImplicit false

namespace Emk.PmmOwnership
open Emk.ByteMemory Emk.MachineWord Emk.DirectMap Emk.PageAllocator Emk.Pmm Emk.Transition

inductive Op where
  | palloc (pages : ℕ) (hh : Bool)
  | pfree (ptr pages : ℕ)

structure World where
  state : State
  owned : List ℕ

/-- The page numbers behind a pointer returned by `palloc`. -/
def granted (hhdmOffset ptr pages : ℕ) (hh : Bool) : List ℕ :=
  (List.range pages).map (fun k => (if hh then ptr-hhdmOffset else ptr)/4096+k)

def step (hhdmOffset : ℕ) (w : World) : Op → World
  | .palloc pages hh =>
    let r := palloc hhdmOffset pages hh w.state
    ⟨r.2, if r.1 = 0 then w.owned else granted hhdmOffset r.1 pages hh ++ w.owned⟩
  | .pfree ptr pages =>
    ⟨pfree hhdmOffset ptr pages w.state, w.owned.filter (fun q =>
      !decide (pfreeStart hhdmOffset ptr ≤ q ∧ q < pfreeStart hhdmOffset ptr+pages))⟩

/-- Callers free only pages they own. -/
def FreesOwned (hhdmOffset : ℕ) (w : World) : Op → Prop
  | .palloc _ _ => True
  | .pfree ptr pages => ∀ k < pages, pfreeStart hhdmOffset ptr+k ∈ w.owned

/-- A request for one page does not meet a cached page that the bitmap
already marks as used. -/
def CacheCurrent (w : World) : Op → Prop
  | .palloc pages _ => pages = 1 → 0 < w.state.pmm.cacheIndex →
      bitmapGet w.state.mem w.state.pmm.bitmap
        (w.state.pmm.pageCache (w.state.pmm.cacheIndex-1)) = false
  | .pfree _ _ => True

def GrantsFresh (hhdmOffset : ℕ) (w : World) : Op → Prop
  | .palloc pages hh => (palloc hhdmOffset pages hh w.state).1 ≠ 0 →
      ∀ q ∈ granted hhdmOffset (palloc hhdmOffset pages hh w.state).1 pages hh, q ∉ w.owned
  | .pfree _ _ => True

instance (hhdmOffset : ℕ) (w : World) (o : Op) : Decidable (FreesOwned hhdmOffset w o) :=
  match o with
  | .palloc _ _ => .isTrue trivial
  | .pfree ptr pages => inferInstanceAs
      (Decidable (∀ k < pages, pfreeStart hhdmOffset ptr+k ∈ w.owned))

instance (w : World) (o : Op) : Decidable (CacheCurrent w o) :=
  match o with
  | .palloc pages _ => inferInstanceAs (Decidable (pages = 1 → 0 < w.state.pmm.cacheIndex →
      bitmapGet w.state.mem w.state.pmm.bitmap
        (w.state.pmm.pageCache (w.state.pmm.cacheIndex-1)) = false))
  | .pfree _ _ => .isTrue trivial

instance (hhdmOffset : ℕ) (w : World) (o : Op) : Decidable (GrantsFresh hhdmOffset w o) :=
  match o with
  | .palloc pages hh => inferInstanceAs (Decidable
      ((palloc hhdmOffset pages hh w.state).1 ≠ 0 →
        ∀ q ∈ granted hhdmOffset (palloc hhdmOffset pages hh w.state).1 pages hh, q ∉ w.owned))
  | .pfree _ _ => .isTrue trivial

/-- The bitmap covers every page it describes and lies outside `avail`, the
pages that may be handed out; clear bits, cached and owned pages are among
those, and owned pages have their bit set. -/
structure Sound (D : Layout) (avail : Set ℕ) (w : World) : Prop where
  covers : w.state.pmm.bitmapPages ≤ 8*w.state.pmm.bitmapSize
  reach : 4096*w.state.pmm.bitmapPages ≤ D.top
  avail_lt : ∀ p ∈ avail, p < w.state.pmm.bitmapPages
  apart : ∀ p ∈ avail, D.hhdmOffset+4096*p+4096 ≤ w.state.pmm.bitmap ∨
    w.state.pmm.bitmap+w.state.pmm.bitmapSize ≤ D.hhdmOffset+4096*p
  clear_avail : ∀ p < w.state.pmm.bitmapPages,
    bitmapGet w.state.mem w.state.pmm.bitmap p = false → p ∈ avail
  cache_avail : ∀ i < w.state.pmm.cacheIndex, w.state.pmm.pageCache i ∈ avail
  owned_avail : ∀ p ∈ w.owned, p ∈ avail
  owned_set : ∀ p ∈ w.owned, bitmapGet w.state.mem w.state.pmm.bitmap p = true

variable {D : Layout} {avail : Set ℕ} {w : World}

theorem granted_pages (p pages : ℕ) (hh : Bool) (hp : 4096*p < D.top) :
    granted D.hhdmOffset (pageAddress D.hhdmOffset (4096*p) hh) pages hh =
      (List.range pages).map (fun k => p+k) := by
  rw [granted, pageAddress_eq D hp]
  cases hh <;> simp

/-- A run of available pages can be zeroed without touching the bitmap. -/
theorem fill_keeps_bit (hs : Sound D avail w) (m : Mem) (p pages i : ℕ)
    (hp : ∀ k < pages, p+k ∈ avail) (h0 : 0 < pages) (hi : i < w.state.pmm.bitmapPages) :
    bitmapGet (fill m (higherHalf D.hhdmOffset (4096*p)) 0 (4096*pages)) w.state.pmm.bitmap i =
      bitmapGet m w.state.pmm.bitmap i := by
  have hlt := hs.avail_lt p (by simpa using hp 0 h0)
  have hr := hs.reach
  have hc := hs.covers
  rw [higherHalf_frame D _ (by omega)]
  apply bitmapGet_fill
  by_contra hin
  obtain ⟨k, hk, hlo, hhi⟩ : ∃ k < pages, D.hhdmOffset+4096*(p+k) ≤ w.state.pmm.bitmap+i/8 ∧
      w.state.pmm.bitmap+i/8 < D.hhdmOffset+4096*(p+k)+4096 :=
    ⟨(w.state.pmm.bitmap+i/8-(D.hhdmOffset+4096*p))/4096, by omega, by omega, by omega⟩
  have ha := hs.apart (p+k) (hp k hk)
  omega

/-- Taking a run of available pages: mark, zero, and record the new owner. -/
theorem take_sound (hs : Sound D avail w) (p pages : ℕ) (h0 : 0 < pages)
    (hp : ∀ k < pages, p+k ∈ avail) (m : Mem) (v : Vars) (owned : List ℕ)
    (hbits : ∀ i, bitmapGet m w.state.pmm.bitmap i =
      (bitmapGet w.state.mem w.state.pmm.bitmap i || decide (p ≤ i ∧ i < p+pages)))
    (hpages : v.bitmapPages = w.state.pmm.bitmapPages)
    (hsize : v.bitmapSize = w.state.pmm.bitmapSize) (hbitmap : v.bitmap = w.state.pmm.bitmap)
    (hcache : v.pageCache = w.state.pmm.pageCache)
    (hindex : v.cacheIndex ≤ w.state.pmm.cacheIndex)
    (howned : ∀ q ∈ owned, q ∈ w.owned ∨ ∃ k < pages, q = p+k) :
    Sound D avail
      ⟨⟨fill m (higherHalf D.hhdmOffset (4096*p)) 0 (4096*pages), v⟩, owned⟩ := by
  have hbit : ∀ i < w.state.pmm.bitmapPages,
      bitmapGet (fill m (higherHalf D.hhdmOffset (4096*p)) 0 (4096*pages)) v.bitmap i =
        (bitmapGet w.state.mem w.state.pmm.bitmap i || decide (p ≤ i ∧ i < p+pages)) := by
    intro i hi
    rw [hbitmap, fill_keeps_bit hs m p pages i hp h0 hi, hbits]
  constructor
  · simpa only [hpages, hsize] using hs.covers
  · simpa only [hpages] using hs.reach
  · simpa only [hpages] using hs.avail_lt
  · simpa only [hbitmap, hsize] using hs.apart
  · intro i hi hz
    rw [hpages] at hi
    rw [hbit i hi, Bool.or_eq_false_iff] at hz
    exact hs.clear_avail i hi hz.1
  · intro i hi
    simpa only [hcache] using hs.cache_avail i (lt_of_lt_of_le hi hindex)
  · intro q hq
    rcases howned q hq with h | ⟨k, hk, rfl⟩
    · exact hs.owned_avail q h
    · exact hp k hk
  · intro q hq
    rcases howned q hq with h | ⟨k, hk, rfl⟩
    · rw [hbit q (hs.avail_lt q (hs.owned_avail q h)), hs.owned_set q h, Bool.true_or]
    · rw [hbit _ (hs.avail_lt _ (hp k hk)), decide_eq_true (by omega), Bool.or_true]

theorem palloc_sound (hs : Sound D avail w) (pages : ℕ) (hh : Bool) :
    Sound D avail (step D.hhdmOffset w (.palloc pages hh)) := by
  have hr := hs.reach
  rw [step]
  rcases palloc_cases D.hhdmOffset pages hh w.state with h | ⟨rfl, h0, h⟩ | ⟨p, h0, hfit, hz, h⟩
  · simpa only [h, if_true] using hs
  · have hp := hs.cache_avail (w.state.pmm.cacheIndex-1) (by omega)
    have hlt := hs.avail_lt _ hp
    have htop : 4096*w.state.pmm.pageCache (w.state.pmm.cacheIndex-1) < D.top := by omega
    simp only [h, granted_pages _ _ _ htop]
    apply take_sound hs _ 1 (by decide) (by simpa using hp)
    · intro i
      rw [bitmapGet_set]
      congr 1
      rw [decide_eq_decide]
      omega
    · rfl
    · rfl
    · rfl
    · rfl
    · exact Nat.sub_le _ _
    · intro q hq
      split_ifs at hq
      · exact .inl hq
      · simpa [or_comm] using hq
  · simp only [h, granted_pages p _ _ (show 4096*p < D.top by omega)]
    apply take_sound hs p pages h0
    · exact fun k hk => hs.clear_avail (p+k) (by omega) (hz k hk)
    · exact fun i => bitmapGet_setRun _ _ _ _ _
    · rfl
    · rfl
    · rfl
    · rfl
    · exact le_refl _
    · intro q hq
      split_ifs at hq
      · exact .inl hq
      · simp only [List.mem_append, List.mem_map, List.mem_range] at hq
        rcases hq with ⟨k, hk, rfl⟩ | hq
        · exact .inr ⟨k, hk, rfl⟩
        · exact .inl hq

theorem palloc_fresh (hs : Sound D avail w) (pages : ℕ) (hh : Bool)
    (hcurrent : CacheCurrent w (.palloc pages hh)) :
    GrantsFresh D.hhdmOffset w (.palloc pages hh) := by
  have hr := hs.reach
  intro hne q hq ho
  have hset := hs.owned_set q ho
  rcases palloc_cases D.hhdmOffset pages hh w.state with h | ⟨rfl, h0, h⟩ | ⟨p, h0, hfit, hz, h⟩
  · simp [h] at hne
  · have hlt := hs.avail_lt _ (hs.cache_avail (w.state.pmm.cacheIndex-1) (by omega))
    rw [h, granted_pages _ _ _ (by omega)] at hq
    obtain rfl : q = w.state.pmm.pageCache (w.state.pmm.cacheIndex-1) := by simpa using hq
    simp [hcurrent rfl h0] at hset
  · rw [h, granted_pages _ _ _ (by omega)] at hq
    obtain ⟨k, hk, rfl⟩ := List.mem_map.mp hq
    simp [hz k (by simpa using hk)] at hset

theorem Sound.shrink (hs : Sound D avail w) (owned : List ℕ) (h : ∀ q ∈ owned, q ∈ w.owned) :
    Sound D avail ⟨w.state, owned⟩ :=
  { hs with
    owned_avail := fun q hq => hs.owned_avail q (h q hq)
    owned_set := fun q hq => hs.owned_set q (h q hq) }

theorem pfreePage_sound (hs : Sound D avail w) (start pages i : ℕ)
    (hi : start+i ∈ avail) (hout : start+i ∉ w.owned) (hstart : start ∈ avail) :
    Sound D avail ⟨pfreePage start pages i w.state, w.owned⟩ := by
  rw [pfreePage]
  split_ifs with hget hpush
  · refine { hs with clear_avail := ?_, cache_avail := ?_, owned_set := ?_ }
    · intro p hp hz
      rw [bitmapGet_clear, Bool.and_eq_false_iff] at hz
      rcases hz with hz | hz
      · exact hs.clear_avail p hp hz
      · obtain rfl : start+i = p := by simpa using hz
        exact hi
    · intro j hj
      by_cases hjl : j = w.state.pmm.cacheIndex
      · simpa [hjl] using hstart
      · have := hs.cache_avail j (by simp only at hj; omega)
        simpa [Function.update_of_ne hjl] using this
    · intro q hq
      have hne : start+i ≠ q := fun h => hout (h ▸ hq)
      simp [bitmapGet_clear, hs.owned_set q hq, hne]
  · refine { hs with clear_avail := ?_, owned_set := ?_ }
    · intro p hp hz
      rw [bitmapGet_clear, Bool.and_eq_false_iff] at hz
      rcases hz with hz | hz
      · exact hs.clear_avail p hp hz
      · obtain rfl : start+i = p := by simpa using hz
        exact hi
    · intro q hq
      have hne : start+i ≠ q := fun h => hout (h ▸ hq)
      simp [bitmapGet_clear, hs.owned_set q hq, hne]
  · exact hs

theorem pfree_sound (hs : Sound D avail w) (ptr pages : ℕ)
    (hfree : FreesOwned D.hhdmOffset w (.pfree ptr pages)) :
    Sound D avail (step D.hhdmOffset w (.pfree ptr pages)) := by
  have havail : ∀ k < pages, pfreeStart D.hhdmOffset ptr+k ∈ avail :=
    fun k hk => hs.owned_avail _ (hfree k hk)
  refine pfree_keeps (I := fun t => Sound D avail ⟨t, _⟩)
    (hs.shrink _ fun q hq => List.mem_of_mem_filter hq) fun _ i hi t ht => ?_
  apply pfreePage_sound ht _ _ _ (havail i hi)
  · simp [hi]
  · simpa using havail 0 (by omega)

theorem step_sound (w : World) (o : Op) (hs : Sound D avail w)
    (hc : FreesOwned D.hhdmOffset w o ∧ CacheCurrent w o) :
    Sound D avail (step D.hhdmOffset w o) := by
  cases o with
  | palloc pages hh => exact palloc_sound hs pages hh
  | pfree ptr pages => exact pfree_sound hs ptr pages hc.1

theorem step_fresh (w : World) (o : Op) (hs : Sound D avail w)
    (hc : FreesOwned D.hhdmOffset w o ∧ CacheCurrent w o) : GrantsFresh D.hhdmOffset w o := by
  cases o with
  | palloc pages hh => exact palloc_fresh hs pages hh hc.2
  | pfree ptr pages => trivial

/-- After `pmm_init` the pages that may be handed out are the pages of the
remaining usable memory that the bitmap has a bit for. -/
theorem init_sound (memmap : List MemmapEntry) (m : Mem) (base : ℕ) (hmap : LimineMap D memmap)
    (hroom : (placeBitmap (bitmapSizeFor memmap) memmap).1 = some base)
    (hcover : bitmapPagesFor memmap ≤ 8*bitmapSizeFor memmap) :
    Sound D {p | p < bitmapPagesFor memmap ∧
        InUsable (placeBitmap (bitmapSizeFor memmap) memmap).2 p}
      ⟨(pmmInit D.hhdmOffset memmap m).1, []⟩ := by
  obtain ⟨es₁, e, es₂, hes, hu, hlen, rfl, hleft⟩ := placeBitmap_some _ _ _ hroom
  have htop := bitmapPagesFor_top D memmap hmap
  have hsize := bitmapSizeFor_pages memmap
  obtain ⟨hbase, hlength, hend⟩ := hmap.pages e (by simp [hes]) hu
  have hfit := D.pointer_fits
  have hadd := D.top_le_address
  have hpair := hmap.disjoint
  rw [hes, List.pairwise_append, List.pairwise_cons] at hpair
  have hmem : ∀ f ∈ (placeBitmap (bitmapSizeFor memmap) memmap).2, f.type = .usable →
      (f.base = e.base+bitmapSizeFor memmap ∧ f.length = e.length-bitmapSizeFor memmap) ∨
      (f ∈ memmap ∧ (f.base+f.length ≤ e.base ∨ e.base+e.length ≤ f.base)) := by
    intro f hf hfu
    rw [hleft] at hf
    simp only [List.mem_append, List.mem_cons] at hf
    rcases hf with hf | rfl | hf
    · exact .inr ⟨by simp [hes, hf], hpair.2.2 f hf e (by simp) hfu hu⟩
    · exact .inl ⟨wrap_of_lt (by omega), rfl⟩
    · exact .inr ⟨by simp [hes, hf], (hpair.2.1.1 f hf hu hfu).symm⟩
  rw [pmmInit_eq D.hhdmOffset e.base memmap m hroom]
  constructor
  · exact hcover
  · exact htop
  · exact fun p hp => hp.1
  · rintro p ⟨hlt, f, hf, hfu, hlo, hhi⟩
    have hw : wrap (e.base+D.hhdmOffset) = e.base+D.hhdmOffset := wrap_of_lt (by omega)
    simp only [hw]
    rcases hmem f hf hfu with ⟨hb, hl⟩ | ⟨hin, hbefore | hafter⟩
    · omega
    · obtain ⟨hb, hl, -⟩ := hmap.pages f hin hfu
      omega
    · omega
  · intro p hp hz
    rw [clearUsable_bit _ _ _ _ _ (placed_whole hmap.wholePages hroom).1.pages] at hz
    rcases hz with hz | hz
    · rw [bitmapGet_filled _ _ _ _ (by simp only at hp; omega)] at hz
      simp at hz
    · exact hz
  · simp
  · simp
  · simp

/-- In every run from `pmm_init` on a boot-protocol map whose pages all have a
bit, as long as no single-page request meets a cached page that a larger
request has taken in the meantime, each grant is disjoint from all pages owned. -/
theorem palloc_grants_fresh (D : Layout) (memmap : List MemmapEntry) (m : Mem) (ops : List Op)
    (hmap : LimineMap D memmap)
    (hroom : (placeBitmap (bitmapSizeFor memmap) memmap).1 ≠ none)
    (hcover : bitmapPagesFor memmap ≤ 8*bitmapSizeFor memmap)
    (hops : Along (step D.hhdmOffset) (fun w o => FreesOwned D.hhdmOffset w o ∧ CacheCurrent w o)
      ⟨(pmmInit D.hhdmOffset memmap m).1, []⟩ ops) :
    Along (step D.hhdmOffset) (GrantsFresh D.hhdmOffset)
      ⟨(pmmInit D.hhdmOffset memmap m).1, []⟩ ops := by
  obtain ⟨base, hbase⟩ := Option.ne_none_iff_exists'.mp hroom
  exact along_of_invariant step_sound step_fresh (init_sound memmap m base hmap hbase hcover) hops

/-- Eight usable pages after an unusable page 0, under the usual offset. -/
def smallLayout : Layout where
  hhdmOffset := 0xffff800000000000
  top := 0x9000
  top_le_offset := by decide
  top_le_address := by decide
  pointer_fits := by decide
  offset_aligned := limine_offset_aligned

def smallMap : List MemmapEntry := [⟨0x1000, 0x8000, .usable⟩]

theorem smallMap_limine : LimineMap smallLayout smallMap where
  pages := by decide
  disjoint := by simp [smallMap]

def smallWorld : World := ⟨(pmmInit smallLayout.hhdmOffset smallMap (fun _ => 0)).1, []⟩

theorem palloc_grants_fresh_small :
    Along (step smallLayout.hhdmOffset) (GrantsFresh smallLayout.hhdmOffset) smallWorld
      [.palloc 2 false, .palloc 1 true, .pfree 0x2000 2, .palloc 1 false] :=
  palloc_grants_fresh smallLayout smallMap (fun _ => 0) _ smallMap_limine (by decide) (by decide)
    (by decide +kernel)

/-- Free one page, take it again as part of a run of two, then ask for one
page: the cache still holds the page and hands it out a second time. -/
theorem palloc_cached_page_granted_twice :
    Along (step smallLayout.hhdmOffset) (FreesOwned smallLayout.hhdmOffset) smallWorld
      [.palloc 1 true, .pfree 0xffff800000002000 1, .palloc 2 false, .palloc 1 false] ∧
    ¬ Along (step smallLayout.hhdmOffset) (GrantsFresh smallLayout.hhdmOffset) smallWorld
      [.palloc 1 true, .pfree 0xffff800000002000 1, .palloc 2 false, .palloc 1 false] := by
  decide +kernel

end Emk.PmmOwnership
