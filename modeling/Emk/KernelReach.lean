import Emk.KernelSpace
import Emk.PmmClients

/-!
# The allocator's memory under the kernel's own page map

`pmm_init` takes the bitmap out of the memory map, and `paging_init` maps the
pages of the map that is left. So a page of the bitmap keeps its direct
mapping only where something else covers it: the first 4 GiB, another entry
or the boot stack. The pages that can be handed out are those of the usable
entries, which are mapped unless their entry starts at address zero.
-/

set_option autoImplicit false

namespace Emk.KernelReach
open Emk.ByteMemory Emk.MachineWord Emk.DirectMap Emk.PageAllocator Emk.Paging Emk.PagingForest
open Emk.PagingWrites Emk.PagingInit Emk.PagingRoom Emk.KernelSpace Emk.Pmm Emk.PmmOwnership
open Emk.PmmClients

variable {D : Layout} {B : BootInfo}

/-- What `paging_init` finds once `pmm_init` has run. -/
def afterPmm (hhdmOffset : ℕ) (B : BootInfo) (m : Mem) : BootInfo :=
  { B with memmap := (pmmInit hhdmOffset B.memmap m).2 }

/-- The memory map without the pages of the bitmap. -/
def leftMap (B : BootInfo) : List MemmapEntry :=
  (placeBitmap (bitmapSizeFor B.memmap) B.memmap).2

/-- The page keeps its direct mapping: it lies in the first 4 GiB, in an entry
that the loop does not skip, or in the boot stack. -/
def Kept (D : Layout) (B : BootInfo) (q : ℕ) : Prop :=
  Direct { B with memmap := leftMap B } q ∨ D.hhdmOffset+q ∈ stackPages B

/-- The bitmap and every page that `palloc` can ever return are mapped as the
allocator reaches them. -/
structure AllocatorMapped (D : Layout) (s : State) (kernelPagemap : ℕ) (m : Mem) : Prop where
  bitmap : ∀ a, a % 4096 = 0 → s.pmm.bitmap ≤ a → a < s.pmm.bitmap+s.pmm.bitmapSize →
    D.hhdmOffset ≤ a ∧ virtToPhys D.hhdmOffset m kernelPagemap a = a-D.hhdmOffset
  pages : ∀ p, Returnable D s p →
    virtToPhys D.hhdmOffset m kernelPagemap (wrap (D.hhdmOffset+4096*p)) = 4096*p

/-- The bitmap has a place, and its pages and those of the usable entries that
are left keep their direct mapping. -/
structure MapsAllocator (D : Layout) (B : BootInfo) : Prop where
  placed : Placed B.memmap
  bitmap : ∀ base, (placeBitmap (bitmapSizeFor B.memmap) B.memmap).1 = some base →
    ∀ q, q % 4096 = 0 → base ≤ q → q < base+bitmapSizeFor B.memmap → Kept D B q
  pages : ∀ p, InUsable (leftMap B) p → Kept D B (4096*p)

section Layout

theorem afterPmm_eq (hhdmOffset : ℕ) (B : BootInfo) (m : Mem) :
    afterPmm hhdmOffset B m = { B with memmap := leftMap B } := by
  cases h : (placeBitmap (bitmapSizeFor B.memmap) B.memmap).1 <;>
    simp [afterPmm, leftMap, pmmInit, h]

/-- An entry only loses bytes at its start. -/
theorem placeBitmap_end (size : ℕ) (es : List MemmapEntry) :
    ∀ f ∈ (placeBitmap size es).2, ∃ e ∈ es, f.base+f.length ≤ e.base+e.length := by
  induction es with
  | nil => exact fun f hf => absurd hf List.not_mem_nil
  | cons e es ih =>
    intro f hf
    rw [placeBitmap] at hf
    split_ifs at hf with hu
    · rcases List.mem_cons.mp hf with rfl | hf
      · have hwrap := Nat.mod_le (e.base+size) (2^64)
        refine ⟨e, List.mem_cons_self, ?_⟩
        dsimp only [wrap]
        omega
      · exact ⟨f, List.mem_cons_of_mem _ hf, le_refl _⟩
    · rcases List.mem_cons.mp hf with rfl | hf
      · exact ⟨f, List.mem_cons_self, le_refl _⟩
      · obtain ⟨g, hg, hle⟩ := ih f hf
        exact ⟨g, List.mem_cons_of_mem _ hg, hle⟩

theorem placeBitmap_none (size : ℕ) (es : List MemmapEntry) (h : (placeBitmap size es).1 = none) :
    ∀ e ∈ es, e.type = .usable → e.length < size := by
  induction es with
  | nil => exact fun e he => absurd he List.not_mem_nil
  | cons e es ih =>
    rw [placeBitmap] at h
    split_ifs at h with hu
    intro f hf hfu
    rcases List.mem_cons.mp hf with rfl | hf
    · exact Nat.lt_of_not_le fun hle => hu ⟨hfu, hle⟩
    · exact ih h f hf hfu

theorem left_layout (h : KernelLayout D B) : KernelLayout D { B with memmap := leftMap B } where
  entries := fun f hf => by
    obtain ⟨e, he, hle⟩ := placeBitmap_end _ _ f hf
    exact le_trans hle (h.entries e he)
  below := fun f hf => by
    obtain ⟨e, he, hle⟩ := placeBitmap_end _ _ f hf
    exact le_trans hle (h.below e he)
  window := h.window
  kvirt := h.kvirt
  kphys := h.kphys
  image := h.image
  distinct := h.distinct
  apart := h.apart

end Layout

section Kept
variable {σ : Type} {A : Ops σ} {C : Contract D A} {pm : ℕ} {s : Phys σ}

/-- A page has its direct mapping only where the list of mappings provides it. -/
theorem kept_iff (h : KernelLayout D B)
    (hstack : ∀ a ∈ stackPages B, D.hhdmOffset ≤ a ∧ a < D.hhdmOffset+2^46)
    (hm : Mapped C pm (initMaps D.hhdmOffset { B with memmap := leftMap B }) s) {q : ℕ}
    (hq : q % 4096 = 0) (hlt : q < 2^46) :
    virtToPhys D.hhdmOffset s.mem pm (wrap (D.hhdmOffset+q)) = q ↔ Kept D B q := by
  have hleft := left_layout h
  have ho := D.offset_aligned
  constructor
  · intro htranslates
    by_contra hno
    have habsent : ∀ y ∈ initMaps D.hhdmOffset { B with memmap := leftMap B },
        y.page ≠ pageNumber (wrap (D.hhdmOffset+q)) := by
      intro y hy hpage
      have hcases := (mapped_iff hleft _).mp ⟨y, hy, hpage⟩
      rw [pageNumber_wrap] at hcases
      rcases hcases with ⟨p, hp, heq⟩ | ⟨a, ha, heq⟩
      · exact hno (.inl (direct_unique hleft hp hq hlt heq.symm ▸ hp))
      · rcases List.mem_append.mp ha with ha | ha
        · exact h.apart a ha q hlt heq.symm
        · obtain ⟨hlo, hhi⟩ := hstack a ha
          obtain ⟨hpage, -⟩ := mem_stackPages.mp ha
          have hsum : D.hhdmOffset+(a-D.hhdmOffset) = a := by omega
          rw [← hsum] at heq
          have hsame := pageNumber_direct ho hq (by omega) hlt (by omega) heq
          exact hno (.inr (by rwa [hsame, hsum]))
    rw [hm.untranslated habsent] at htranslates
    exact hno (.inl ⟨hq, .inl (by omega)⟩)
  · rintro (hd | hin)
    · exact direct_translates hleft hm hd
    · have hbelow := alignUp_lt B.kstackTop
      rw [← stackTop] at hbelow
      have htop := (mem_stackPages.mp hin).2.2.2
      rw [wrap_of_lt (by omega), stack_translates hleft hm hin (by omega) (by omega)]
      omega

end Kept

section Boot

/-- A boot in which `pmm_init` placed a bitmap with a bit for every page. -/
structure Placement (D : Layout) (B : BootInfo) (base : ℕ) : Prop where
  map : LimineMap D B.memmap
  place : (placeBitmap (bitmapSizeFor B.memmap) B.memmap).1 = some base
  cover : bitmapPagesFor B.memmap ≤ 8*bitmapSizeFor B.memmap

variable {base : ℕ}

/-- The pages that may be handed out. -/
def availPages (B : BootInfo) : Set ℕ :=
  {p | p < bitmapPagesFor B.memmap ∧ InUsable (leftMap B) p}

theorem Placement.balanced (h : Placement D B base) (m : Mem) :
    Balanced D (availPages B) ⟨(pmmInit D.hhdmOffset B.memmap m).1, []⟩ :=
  init_balanced B.memmap m base h.map h.place h.cover

theorem Placement.bitmap (h : Placement D B base) (m : Mem) :
    (pmmInit D.hhdmOffset B.memmap m).1.pmm.bitmapSize = bitmapSizeFor B.memmap ∧
      (0 < bitmapSizeFor B.memmap →
        (pmmInit D.hhdmOffset B.memmap m).1.pmm.bitmap = D.hhdmOffset+base) := by
  rw [pmmInit_eq D.hhdmOffset base B.memmap m h.place]
  refine ⟨rfl, fun hpos => ?_⟩
  obtain ⟨es₁, e, es₂, hes, hu, hlen, rfl, -⟩ := placeBitmap_some _ _ _ h.place
  obtain ⟨-, -, htop⟩ := h.map.pages e (by simp [hes]) hu
  have hfits := D.pointer_fits
  dsimp only
  rw [wrap_of_lt (by omega), Nat.add_comm]

theorem Placement.bitmap_lt (h : Placement D B base) (hlayout : KernelLayout D B) :
    base+bitmapSizeFor B.memmap ≤ 2^46 ∧ base+bitmapSizeFor B.memmap ≤ D.top ∧
      base % 4096 = 0 := by
  obtain ⟨es₁, e, es₂, hes, hu, hlen, rfl, -⟩ := placeBitmap_some _ _ _ h.place
  obtain ⟨hpage, -, htop⟩ := h.map.pages e (by simp [hes]) hu
  have hentry := hlayout.entries e (by simp [hes])
  omega

theorem Placement.usable_lt (h : Placement D B base) (hlayout : KernelLayout D B) {p : ℕ}
    (hp : InUsable (leftMap B) p) : p ∈ availPages B ∧ 4096*p < 2^46 := by
  obtain ⟨f, hf, hfu, hlo, hhi⟩ := id hp
  have hfits := (left_fits h.map.wholePages h.place f hf hfu).2.2
  have hentry := (left_layout hlayout).entries f hf
  exact ⟨⟨by omega, hp⟩, by omega⟩

/-- What can be returned is the usable memory that is left. -/
theorem Placement.returnable (h : Placement D B base) (hlayout : KernelLayout D B) (m : Mem)
    (p : ℕ) : Returnable D (pmmInit D.hhdmOffset B.memmap m).1 p ↔ InUsable (leftMap B) p := by
  have hwindow := hlayout.window
  have hclear : ∀ p ∈ availPages B, p ∈ clearPages (pmmInit D.hhdmOffset B.memmap m).1 := by
    classical
    intro p hp
    rw [init_clear D.hhdmOffset B.memmap m base h.map.wholePages h.place h.cover,
      Finset.mem_filter, Finset.mem_range]
    exact hp
  rw [returnable_iff (h.balanced m) hclear (by omega)]
  exact ⟨fun hp => hp.2, fun hp => (h.usable_lt hlayout hp).1⟩

theorem Placement.reach_iff (h : Placement D B base) (hlayout : KernelLayout D B)
    (hstack : ∀ a ∈ stackPages B, D.hhdmOffset ≤ a ∧ a < D.hhdmOffset+2^46) (m : Mem)
    {pm : ℕ} {s : State} (hm : Mapped (contract D (availPages B)) pm
      (initMaps D.hhdmOffset { B with memmap := leftMap B }) s) :
    AllocatorMapped D (pmmInit D.hhdmOffset B.memmap m).1 pm s.mem ↔ MapsAllocator D B := by
  obtain ⟨hsize, hplace⟩ := h.bitmap m
  obtain ⟨hlt46, htop, hbase⟩ := h.bitmap_lt hlayout
  have ho := D.offset_aligned
  have hfits := D.pointer_fits
  constructor
  · intro hmapped
    refine ⟨fun _ => by rw [h.place]; exact Option.some_ne_none _, ?_, ?_⟩
    · intro b hb q hq hlo hhi
      obtain rfl : base = b := Option.some.inj (h.place.symm.trans hb)
      obtain ⟨-, htr⟩ := hmapped.bitmap (D.hhdmOffset+q) (by omega)
        (by rw [hplace (by omega)]; omega) (by rw [hplace (by omega), hsize]; omega)
      refine (kept_iff hlayout hstack hm hq (by omega)).mp ?_
      rw [wrap_of_lt (by omega), htr]
      omega
    · intro p hp
      have hlt := (h.usable_lt hlayout hp).2
      have hreturn := (h.returnable hlayout m p).mpr hp
      exact (kept_iff hlayout hstack hm (by omega) hlt).mp (hmapped.pages p hreturn)
  · intro hkept
    refine ⟨?_, ?_⟩
    · intro a ha hlo hhi
      rw [hsize] at hhi
      have hpos : 0 < bitmapSizeFor B.memmap := by omega
      rw [hplace hpos] at hlo hhi
      have hq : (a-D.hhdmOffset) % 4096 = 0 ∧ a-D.hhdmOffset < 2^46 := by omega
      have hsum : D.hhdmOffset+(a-D.hhdmOffset) = a := by omega
      have htr := (kept_iff hlayout hstack hm hq.1 hq.2).mpr
        (hkept.bitmap base h.place _ hq.1 (by omega) (by omega))
      rw [hsum, wrap_of_lt (by omega)] at htr
      exact ⟨by omega, htr⟩
    · intro p hp
      have husable := (h.returnable hlayout m p).mp hp
      exact (kept_iff hlayout hstack hm (by omega) (h.usable_lt hlayout husable).2).mpr
        (hkept.pages p husable)

theorem Placement.init_mapped (h : Placement D B base) (hlayout : KernelLayout D B) (m : Mem)
    (hp : PallocSucceeds (pmmAllocator D.hhdmOffset) D.hhdmOffset (afterPmm D.hhdmOffset B m)
      (pmmInit D.hhdmOffset B.memmap m).1) :
    ∃ kernelPagemap s', pagingInit (pmmAllocator D.hhdmOffset) D.hhdmOffset
        (afterPmm D.hhdmOffset B m) (pmmInit D.hhdmOffset B.memmap m).1 =
          some (kernelPagemap, s') ∧
      Mapped (contract D (availPages B)) kernelPagemap
        (initMaps D.hhdmOffset { B with memmap := leftMap B }) s' := by
  rw [afterPmm_eq] at hp ⊢
  obtain ⟨f, s', hinit, hmapped⟩ :=
    pagingInit_mapped (contract D (availPages B)) (left_layout hlayout) (h.balanced m) hp
  exact ⟨_, s', hinit, hmapped⟩

/-- Three free pages for each 2 MiB region and one for the page map are enough. -/
theorem Placement.succeeds (h : Placement D B base) (hlayout : KernelLayout D B) (m : Mem)
    (ho : D.hhdmOffset % 2^21 = 0) {n : ℕ} (hn : 2^32 ≤ 2^21*n)
    (hentries : ∀ e ∈ leftMap B, e.base+e.length ≤ 2^21*n)
    (hfree : 3*(n+((imagePages B).length+(stackPages B).length)) <
      (pmmInit D.hhdmOffset B.memmap m).1.pmm.freePages) :
    PallocSucceeds (pmmAllocator D.hhdmOffset) D.hhdmOffset (afterPmm D.hhdmOffset B m)
      (pmmInit D.hhdmOffset B.memmap m).1 := by
  have hbalanced := h.balanced m
  have hwindow := hlayout.window
  rw [afterPmm_eq]
  refine pallocSucceeds_of_room (contract_room D (availPages B) (by omega)) (left_layout hlayout)
    hbalanced ho hn hentries ?_
  rw [← hbalanced.counted]
  exact hfree

end Boot

section Unplaced

theorem pmmInit_unplaced (hhdmOffset : ℕ) (memmap : List MemmapEntry) (m : Mem)
    (h : (placeBitmap (bitmapSizeFor memmap) memmap).1 = none) :
    (pmmInit hhdmOffset memmap m).1.pmm.bitmap = 0 ∧
      (pmmInit hhdmOffset memmap m).1.pmm.bitmapSize = bitmapSizeFor memmap ∧
      (pmmInit hhdmOffset memmap m).1.pmm.freePages = (scanMemmap 0 0 memmap).2 := by
  simp [pmmInit, h]

theorem palloc_aligned (D : Layout) (s : State) :
    (palloc D.hhdmOffset 1 true s).1 % 4096 = 0 := by
  have ho := D.offset_aligned
  have haddress : ∀ p, pageAddress D.hhdmOffset (4096*p) true % 4096 = 0 := by
    intro p
    rw [pageAddress, if_pos rfl, wrap]
    omega
  rcases palloc_cases D.hhdmOffset 1 true s with h | ⟨-, -, h⟩ | ⟨p, -, -, -, h⟩
  · rw [h]
    exact Nat.zero_mod 4096
  · rw [h]
    exact haddress _
  · rw [h]
    exact haddress _

theorem pagingInit_returns {s : State}
    (h : (palloc D.hhdmOffset 1 true s).1 ≠ 0) : ∃ kernelPagemap s',
    pagingInit (pmmAllocator D.hhdmOffset) D.hhdmOffset B s = some (kernelPagemap, s') := by
  have ho := D.offset_aligned
  have hpage := palloc_aligned D s
  have hphysical :
      isPageAligned (physical D.hhdmOffset (palloc D.hhdmOffset 1 true s).1) = true := by
    rw [isPageAligned_iff, physical]
    split_ifs <;> omega
  rw [← isPageAligned_iff] at hpage
  have hsome : (pagingInit (pmmAllocator D.hhdmOffset) D.hhdmOffset B s).isSome = true := by
    rw [pagingInit, pmmAllocator_palloc, if_neg (by simp [h, hpage]),
      if_neg (by simp [h, hphysical]), Option.isSome_some]
  obtain ⟨r, hr⟩ := Option.isSome_iff_exists.mp hsome
  exact ⟨r.1, r.2, hr⟩

/-- Without a place for the bitmap the allocator works through the `NULL` pointer. -/
theorem unplaced_unmapped (hlayout : KernelLayout D B) (m : Mem)
    (husable : ∃ e ∈ B.memmap, e.type = .usable)
    (hnone : (placeBitmap (bitmapSizeFor B.memmap) B.memmap).1 = none) (pm : ℕ) (m' : Mem) :
    ¬ AllocatorMapped D (pmmInit D.hhdmOffset B.memmap m).1 pm m' := by
  intro hmapped
  obtain ⟨hbitmap, hsize, -⟩ := pmmInit_unplaced D.hhdmOffset B.memmap m hnone
  obtain ⟨e, he, hu⟩ := husable
  have hlt := placeBitmap_none _ _ hnone e he hu
  have hwindow := hlayout.window
  have hzero := (hmapped.bitmap 0 rfl (by rw [hbitmap]) (by rw [hbitmap, hsize]; omega)).1
  omega

theorem unusable_refuses (m : Mem) (hh : Bool) (h : ∀ e ∈ B.memmap, e.type ≠ .usable) :
    (palloc D.hhdmOffset 1 hh (pmmInit D.hhdmOffset B.memmap m).1).1 = 0 := by
  have hfree := (pmmInit_unplaced D.hhdmOffset B.memmap m (placeBitmap_unusable _ _ h)).2.2
  rw [scanMemmap_unusable 0 0 B.memmap h] at hfree
  rw [palloc, if_pos (.inr (by rw [hfree]; decide))]

end Unplaced

section Example

theorem bootInfo_with {es : List MemmapEntry} (hentries : ∀ e ∈ es, e.base+e.length ≤ 2^46) :
    KernelLayout bootLayout { bootInfo with memmap := es } where
  entries := hentries
  below := fun e he => le_trans (hentries e he) (by decide)
  window := bootInfo_layout.window
  kvirt := bootInfo_layout.kvirt
  kphys := bootInfo_layout.kphys
  image := bootInfo_layout.image
  distinct := bootInfo_layout.distinct
  apart := bootInfo_layout.apart

theorem bootInfo_stack : ∀ a ∈ stackPages bootInfo,
    bootLayout.hhdmOffset ≤ a ∧ a < bootLayout.hhdmOffset+2^46 := by decide

/-- The only usable memory lies right above the first 4 GiB. -/
def highInfo : BootInfo := { bootInfo with memmap := [⟨0x100000000, 0x4000000, .usable⟩] }

/-- The first entry takes the bitmap and lies below 4 GiB. -/
def splitInfo : BootInfo :=
  { bootInfo with
    memmap := [⟨0x1000000, 0x4000000, .usable⟩, ⟨0x100000000, 0x1000000, .usable⟩] }

theorem highInfo_layout : KernelLayout bootLayout highInfo := bootInfo_with (by decide)

theorem splitInfo_layout : KernelLayout bootLayout splitInfo := bootInfo_with (by decide)

theorem highInfo_placement : Placement bootLayout highInfo 0x100000000 where
  map := ⟨by decide, by simp [highInfo]⟩
  place := by decide
  cover := by decide

theorem splitInfo_placement : Placement bootLayout splitInfo 0x1000000 where
  map := ⟨by decide, by simp [splitInfo]⟩
  place := by decide
  cover := by decide

theorem highInfo_succeeds (m : Mem) : PallocSucceeds (pmmAllocator bootLayout.hhdmOffset)
    bootLayout.hhdmOffset (afterPmm bootLayout.hhdmOffset highInfo m)
    (pmmInit bootLayout.hhdmOffset highInfo.memmap m).1 := by
  refine highInfo_placement.succeeds highInfo_layout m (by decide) (n := 2080) (by decide)
    (by decide) ?_
  rw [pmmInit_eq _ _ _ _ highInfo_placement.place]
  dsimp only
  decide

theorem splitInfo_succeeds (m : Mem) : PallocSucceeds (pmmAllocator bootLayout.hhdmOffset)
    bootLayout.hhdmOffset (afterPmm bootLayout.hhdmOffset splitInfo m)
    (pmmInit bootLayout.hhdmOffset splitInfo.memmap m).1 := by
  refine splitInfo_placement.succeeds splitInfo_layout m (by decide) (n := 2056) (by decide)
    (by decide) ?_
  rw [pmmInit_eq _ _ _ _ splitInfo_placement.place]
  dsimp only
  decide

theorem splitInfo_left : leftMap splitInfo =
    [⟨0x1021000, 0x3fdf000, .usable⟩, ⟨0x100000000, 0x1000000, .usable⟩] := by decide

theorem splitInfo_maps : MapsAllocator bootLayout splitInfo where
  placed := fun _ => by decide
  bitmap := by
    intro base hbase q hq _ hhi
    obtain rfl : 0x1000000 = base := Option.some.inj (splitInfo_placement.place.symm.trans hbase)
    have hsize : bitmapSizeFor splitInfo.memmap = 0x21000 := by decide
    exact .inl ⟨hq, .inl (by omega)⟩
  pages := by
    intro p hp
    rw [InUsable, splitInfo_left] at hp
    obtain ⟨e, he, -, hlo, hhi⟩ := hp
    have hpage : 4096*p % 4096 = 0 := by omega
    rcases List.mem_cons.mp he with rfl | he
    · dsimp only at hhi
      exact .inl ⟨hpage, .inl (by omega)⟩
    · obtain rfl := List.mem_singleton.mp he
      refine .inl ⟨hpage, .inr ⟨_, ?_, by decide, by decide, hhi, by omega⟩⟩
      rw [splitInfo_left]
      exact List.mem_cons_of_mem _ (List.mem_singleton_self _)

end Example

/-- The bitmap at 4 GiB loses its mapping. -/
theorem bitmap_above_window_unmapped : ∃ kernelPagemap s',
    pagingInit (pmmAllocator bootLayout.hhdmOffset) bootLayout.hhdmOffset
        (afterPmm bootLayout.hhdmOffset highInfo fun _ => 0)
        (pmmInit bootLayout.hhdmOffset highInfo.memmap fun _ => 0).1 =
          some (kernelPagemap, s') ∧
      ¬ AllocatorMapped bootLayout (pmmInit bootLayout.hhdmOffset highInfo.memmap fun _ => 0).1
        kernelPagemap s'.mem := by
  obtain ⟨kernelPagemap, s', hinit, hmapped⟩ :=
    highInfo_placement.init_mapped highInfo_layout _ (highInfo_succeeds _)
  refine ⟨kernelPagemap, s', hinit, ?_⟩
  rw [highInfo_placement.reach_iff highInfo_layout bootInfo_stack _ hmapped]
  intro hmaps
  rcases hmaps.bitmap 0x100000000 highInfo_placement.place 0x100000000 (by decide) (by decide)
    (by decide) with ⟨-, hlow | ⟨e, he, -, -, -, hlo⟩⟩ | hstack
  · exact absurd hlow (by decide)
  · have hleft : leftMap highInfo = [⟨0x100021000, 0x3fdf000, .usable⟩] := by decide
    rw [hleft] at he
    obtain rfl := List.mem_singleton.mp he
    exact absurd hlo (by decide)
  · exact absurd hstack (by decide)

/-- On a boot-protocol map whose pages all have a bit, with the boot stack in
the direct map: after `pmm_init` and `paging_init` the bitmap and every page
that `palloc` can ever return are mapped as the allocator reaches them exactly
if the bitmap has a place and its pages and those of the usable entries that
are left lie in the first 4 GiB, in an entry that does not start at zero, or
in the boot stack. -/
theorem allocator_mapped_iff (D : Layout) (B : BootInfo) (m : Mem) (hmap : LimineMap D B.memmap)
    (hlayout : KernelLayout D B)
    (hstack : ∀ a ∈ stackPages B, D.hhdmOffset ≤ a ∧ a < D.hhdmOffset+2^46)
    (hcover : bitmapPagesFor B.memmap ≤ 8*bitmapSizeFor B.memmap)
    (hp : PallocSucceeds (pmmAllocator D.hhdmOffset) D.hhdmOffset (afterPmm D.hhdmOffset B m)
      (pmmInit D.hhdmOffset B.memmap m).1) :
    ∃ kernelPagemap s', pagingInit (pmmAllocator D.hhdmOffset) D.hhdmOffset
        (afterPmm D.hhdmOffset B m) (pmmInit D.hhdmOffset B.memmap m).1 =
          some (kernelPagemap, s') ∧
      (AllocatorMapped D (pmmInit D.hhdmOffset B.memmap m).1 kernelPagemap s'.mem ↔
        MapsAllocator D B) := by
  by_cases husable : ∃ e ∈ B.memmap, e.type = .usable
  · cases hplace : (placeBitmap (bitmapSizeFor B.memmap) B.memmap).1 with
    | none =>
      obtain ⟨kernelPagemap, s', hinit⟩ := pagingInit_returns (D := D)
        (B := afterPmm D.hhdmOffset B m) hp.1
      exact ⟨kernelPagemap, s', hinit,
        fun h => absurd h (unplaced_unmapped hlayout m husable hplace _ _),
        fun h => absurd hplace (h.placed husable)⟩
    | some base =>
      have h : Placement D B base := ⟨hmap, hplace, hcover⟩
      obtain ⟨kernelPagemap, s', hinit, hmapped⟩ := h.init_mapped hlayout m hp
      exact ⟨kernelPagemap, s', hinit, h.reach_iff hlayout hstack m hmapped⟩
  · push Not at husable
    exact absurd (unusable_refuses m true husable) hp.1

theorem allocator_mapped_iff_split : ∃ kernelPagemap s',
    pagingInit (pmmAllocator bootLayout.hhdmOffset) bootLayout.hhdmOffset
        (afterPmm bootLayout.hhdmOffset splitInfo fun _ => 0)
        (pmmInit bootLayout.hhdmOffset splitInfo.memmap fun _ => 0).1 =
          some (kernelPagemap, s') ∧
      AllocatorMapped bootLayout (pmmInit bootLayout.hhdmOffset splitInfo.memmap fun _ => 0).1
        kernelPagemap s'.mem := by
  obtain ⟨kernelPagemap, s', hinit, hiff⟩ := allocator_mapped_iff bootLayout splitInfo (fun _ => 0)
    splitInfo_placement.map splitInfo_layout bootInfo_stack splitInfo_placement.cover
    (splitInfo_succeeds _)
  exact ⟨kernelPagemap, s', hinit, hiff.mpr splitInfo_maps⟩

end Emk.KernelReach
