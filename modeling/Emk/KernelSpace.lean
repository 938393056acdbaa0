import Emk.PagingInit
import Emk.PagingRoom
import Mathlib.Data.List.Nodup

/-!
# What the kernel's own page map translates

The loops of `paging_init` write a list of mappings. The stack comes first,
the sections of the image next and the direct map last, so a page of the
direct map is decided by the last part whatever came before, and a page of
the image by the only section that contains it.
-/

set_option autoImplicit false

namespace Emk.KernelSpace
open Emk.ByteMemory Emk.MachineWord Emk.DirectMap Emk.PageAllocator Emk.Paging Emk.RadixForest
open Emk.PagingForest Emk.PagingPermissions Emk.PagingRefinement Emk.LastWrite Emk.PagingWrites
open Emk.PagingInit Emk.PagingRoom
open Emk.Pmm (MemmapEntry)

section Lists

/-- The page addresses from `first` up to `last`. -/
def pageList (first last : ℕ) : List ℕ :=
  (List.range ((last-first)/4096)).map fun i => first+4096*i

theorem mem_pageList {first last a : ℕ} (hf : first % 4096 = 0) (hl : last % 4096 = 0) :
    a ∈ pageList first last ↔ a % 4096 = 0 ∧ first ≤ a ∧ a < last := by
  simp only [pageList, List.mem_map, List.mem_range]
  constructor
  · rintro ⟨i, hi, rfl⟩
    omega
  · rintro ⟨ha, hlo, hhi⟩
    exact ⟨(a-first)/4096, by omega, by omega⟩

theorem pageList_nil {first last : ℕ} (h : last ≤ first) : pageList first last = [] := by
  rw [pageList, Nat.sub_eq_zero_of_le h]
  rfl

theorem pageList_cons {first last : ℕ} (hf : first % 4096 = 0) (hl : last % 4096 = 0)
    (h : first < last) : pageList first last = first::pageList (first+4096) last := by
  have hn : (last-first)/4096 = (last-(first+4096))/4096+1 := by omega
  rw [pageList, pageList, hn, List.range_succ_eq_map, List.map_cons, List.map_map]
  congr 1
  refine List.map_congr_left fun i _ => ?_
  simp only [Function.comp_apply]
  omega

def stackTop (B : BootInfo) : ℕ := alignUp B.kstackTop 4096

def stackPages (B : BootInfo) : List ℕ :=
  pageList (wrap (stackTop B+2^64-16*1024)) (stackTop B)

def sectionPages (sec : Section) : List ℕ :=
  pageList (alignDown sec.start 4096) (alignUp sec.stop 4096)

/-- The sections with the flags that `paging_init` gives them. -/
def sections (B : BootInfo) : List (Section × ℕ) :=
  [(B.limineRequests, vmmPresent ||| vmmWrite), (B.text, vmmPresent),
    (B.rodata, vmmPresent ||| vmmNx), (B.data, vmmPresent ||| vmmWrite ||| vmmNx)]

def imagePages (B : BootInfo) : List ℕ := (sections B).flatMap fun x => sectionPages x.1

def entryPages (e : MemmapEntry) : List ℕ :=
  if e.base = 0 ∨ e.length = 0 then []
  else pageList (alignDown e.base 4096) (alignUp (wrap (e.base+e.length)) 4096)

def stackMaps (hhdmOffset : ℕ) (B : BootInfo) : List Mapping :=
  (stackPages B).map fun a => ⟨a, physical hhdmOffset a, vmmPresent ||| vmmWrite ||| vmmNx⟩

def sectionMaps (B : BootInfo) (x : Section × ℕ) : List Mapping :=
  (sectionPages x.1).map fun a => ⟨a, sectionPhys B a, x.2⟩

def imageMaps (B : BootInfo) : List Mapping := (sections B).flatMap (sectionMaps B)

def directMaps (hhdmOffset : ℕ) (B : BootInfo) : List Mapping :=
  (pageList 0 0x100000000).map (fun p => ⟨higherHalf hhdmOffset p, p, vmmPresent ||| vmmWrite⟩) ++
    B.memmap.flatMap fun e => (entryPages e).map fun p => ⟨higherHalf hhdmOffset p, p, memoryFlags⟩

/-- All mappings of `paging_init` in their order. -/
def initMaps (hhdmOffset : ℕ) (B : BootInfo) : List Mapping :=
  stackMaps hhdmOffset B ++ (imageMaps B ++ directMaps hhdmOffset B)

end Lists

section Loops
variable {σ : Type} {A : Ops σ} {hhdmOffset pagemap : ℕ}

theorem alignUp_mod (x : ℕ) : alignUp x 4096 % 4096 = 0 := by
  have hdvd : (4096 : ℕ) ∣ 2^64 := by decide
  rw [alignUp, wrap, Nat.mod_mod_of_dvd _ hdvd, Nat.mul_mod_left]

theorem alignUp_lt (x : ℕ) : alignUp x 4096 < 2^64 := wrap_lt _

theorem alignDown_mod (x : ℕ) : alignDown x 4096 % 4096 = 0 := by
  rw [alignDown]
  omega

theorem mapLoop_eq (virt phys : ℕ → ℕ) (flags : ℕ) {first last rounds : ℕ} (hf : first % 4096 = 0)
    (hl : last % 4096 = 0) (hlast : last < 2^64) (hr : last ≤ first+4096*rounds) (s : Phys σ) :
    mapLoop A hhdmOffset pagemap virt phys flags last rounds first s =
      mapAll A hhdmOffset pagemap
        ((pageList first last).map fun a => ⟨virt a, phys a, flags⟩) s := by
  induction rounds generalizing first s with
  | zero =>
    rw [pageList_nil (by omega)]
    rfl
  | succ rounds ih =>
    rw [mapLoop]
    split_ifs with hlt
    · rw [pageList_cons hf hl hlt, wrap_of_lt (by omega), ih (by omega) (by omega), List.map_cons,
        mapAll]
    · rw [pageList_nil (by omega)]
      rfl

/-- `vmap_large` always fails, so the loop maps single pages. -/
theorem memoryLoop_eq {first last rounds : ℕ} (hf : first % 4096 = 0) (hl : last % 4096 = 0)
    (hlast : last < 2^64) (hr : last ≤ first+4096*rounds) (s : Phys σ) :
    memoryLoop A hhdmOffset pagemap last rounds first s =
      mapAll A hhdmOffset pagemap
        ((pageList first last).map fun p => ⟨higherHalf hhdmOffset p, p, memoryFlags⟩) s := by
  induction rounds generalizing first s with
  | zero =>
    rw [pageList_nil (by omega)]
    rfl
  | succ rounds ih =>
    rw [memoryLoop]
    dsimp only
    split_ifs with hlt hlarge
    · exact absurd hlarge.2.2.2 (by simp [vmapLarge])
    · rw [pageList_cons hf hl hlt, wrap_of_lt (by omega), ih (by omega) (by omega), List.map_cons,
        mapAll]
    · rw [pageList_nil (by omega)]
      rfl

theorem mapEntries_eq (es : List MemmapEntry) (s : Phys σ) :
    mapEntries A hhdmOffset pagemap es s = mapAll A hhdmOffset pagemap
      (es.flatMap fun e => (entryPages e).map fun p => ⟨higherHalf hhdmOffset p, p, memoryFlags⟩)
      s := by
  induction es generalizing s with
  | nil => rfl
  | cons e es ih =>
    rw [mapEntries, ih, List.flatMap_cons, mapAll_append, mapEntry, entryPages]
    split_ifs
    · rfl
    · have hlast := alignUp_lt (wrap (e.base+e.length))
      rw [memoryLoop_eq (alignDown_mod _) (alignUp_mod _) hlast (by omega)]

theorem mapSection_eq (B : BootInfo) (x : Section × ℕ) (s : Phys σ) :
    mapSection A hhdmOffset pagemap B x.1 x.2 s =
      mapAll A hhdmOffset pagemap (sectionMaps B x) s := by
  have hlast := alignUp_lt x.1.stop
  exact mapLoop_eq _ _ _ (alignDown_mod _) (alignUp_mod _) hlast (by omega) s

/-- The loops write the mappings of the list. -/
theorem mapKernelSpace_eq (B : BootInfo) (s : Phys σ) :
    mapKernelSpace A hhdmOffset pagemap B s =
      mapAll A hhdmOffset pagemap (initMaps hhdmOffset B) s := by
  have hlast := alignUp_lt B.kstackTop
  have hstart : wrap (stackTop B+2^64-16*1024) % 4096 = 0 := by
    have := alignUp_mod B.kstackTop
    rw [stackTop, wrap]
    omega
  have hstack : ∀ s : Phys σ, mapStack A hhdmOffset pagemap B.kstackTop s =
      mapAll A hhdmOffset pagemap (stackMaps hhdmOffset B) s :=
    fun s => mapLoop_eq _ _ _ hstart (alignUp_mod _) hlast (by rw [stackTop]; omega) s
  have hhhdm : ∀ s : Phys σ, mapHhdm A hhdmOffset pagemap s = mapAll A hhdmOffset pagemap
      ((pageList 0 0x100000000).map
        fun p => ⟨higherHalf hhdmOffset p, p, vmmPresent ||| vmmWrite⟩) s :=
    fun s => mapLoop_eq _ _ _ (by decide) (by decide) (by decide) (by decide) s
  have himage : ∀ s : Phys σ, mapAll A hhdmOffset pagemap (imageMaps B) s =
      mapSection A hhdmOffset pagemap B B.data (vmmPresent ||| vmmWrite ||| vmmNx)
        (mapSection A hhdmOffset pagemap B B.rodata (vmmPresent ||| vmmNx)
          (mapSection A hhdmOffset pagemap B B.text vmmPresent
            (mapSection A hhdmOffset pagemap B B.limineRequests (vmmPresent ||| vmmWrite) s))) := by
    intro s
    simp only [imageMaps, sections, List.flatMap_cons, List.flatMap_nil, List.append_nil,
      mapAll_append, ← mapSection_eq]
  rw [mapKernelSpace, initMaps, mapAll_append, mapAll_append, directMaps, mapAll_append, ← hstack,
    himage, ← hhhdm, mapEntries_eq]

end Loops

section Pages

/-- The page at `p` overlaps an entry that the loop does not skip. -/
def Touched (es : List MemmapEntry) (p : ℕ) : Prop :=
  ∃ e ∈ es, e.base ≠ 0 ∧ e.length ≠ 0 ∧ p < e.base+e.length ∧ e.base < p+4096

/-- The pages of physical memory that belong into the direct map. -/
def Direct (B : BootInfo) (p : ℕ) : Prop := p % 4096 = 0 ∧ (p < 2^32 ∨ Touched B.memmap p)

/-- What the boot loader hands over: the memory map stays below 2^46 and the
offset lies above all of it, the image is loaded at page granularity to
physical addresses, and none of its pages is a second one or one of the
direct map. -/
structure KernelLayout (D : Layout) (B : BootInfo) : Prop where
  entries : ∀ e ∈ B.memmap, e.base+e.length ≤ 2^46
  below : ∀ e ∈ B.memmap, e.base+e.length ≤ D.hhdmOffset
  window : 2^32 ≤ D.hhdmOffset
  kvirt : B.kvirt % 4096 = 0 ∧ B.kvirt < 2^64
  kphys : B.kphys % 4096 = 0
  image : ∀ a ∈ imagePages B, sectionPhys B a < 2^52
  distinct : ((imagePages B).map pageNumber).Nodup
  apart : ∀ a ∈ imagePages B, ∀ p < 2^46, pageNumber a ≠ pageNumber (D.hhdmOffset+p)

theorem alignUp_eq {x : ℕ} (h : x ≤ 2^46) : alignUp x 4096 = (x+4095)/4096*4096 := by
  have hsum : wrap (x+(4096-1)) = x+4095 := wrap_of_lt (by omega)
  rw [alignUp, divRoundUp, hsum, wrap_of_lt (by omega)]

theorem mem_entryPages {e : MemmapEntry} (h : e.base+e.length ≤ 2^46) {p : ℕ} :
    p ∈ entryPages e ↔ p % 4096 = 0 ∧ e.base ≠ 0 ∧ e.length ≠ 0 ∧ p < e.base+e.length ∧
      e.base < p+4096 := by
  rw [entryPages]
  split_ifs with hskip
  · simp only [List.not_mem_nil, false_iff]
    omega
  · rw [mem_pageList (alignDown_mod _) (alignUp_mod _), wrap_of_lt (by omega), alignUp_eq h,
      alignDown]
    omega

theorem pageNumber_wrap (v : ℕ) : pageNumber (wrap v) = pageNumber v := by
  rw [pageNumber, pageNumber, wrap]
  omega

/-- The direct map takes each page to a page of its own. -/
theorem pageNumber_direct {hhdmOffset p q : ℕ} (ho : hhdmOffset % 4096 = 0) (hp : p % 4096 = 0)
    (hq : q % 4096 = 0) (hp46 : p < 2^46) (hq46 : q < 2^46)
    (h : pageNumber (hhdmOffset+p) = pageNumber (hhdmOffset+q)) : p = q := by
  rw [pageNumber, pageNumber] at h
  omega

variable {D : Layout} {B : BootInfo}

theorem Direct.lt (h : KernelLayout D B) {p : ℕ} (hp : Direct B p) :
    p < 2^46 ∧ p < D.hhdmOffset := by
  rcases hp with ⟨-, hlow | ⟨e, he, -, -, hlt, -⟩⟩
  · have hwindow := h.window
    omega
  · have hentry := h.entries e he
    have hbelow := h.below e he
    omega

theorem mem_directMaps (h : KernelLayout D B) (y : Mapping) :
    y ∈ directMaps D.hhdmOffset B ↔
      (∃ p, p % 4096 = 0 ∧ p < 2^32 ∧
        y = ⟨higherHalf D.hhdmOffset p, p, vmmPresent ||| vmmWrite⟩) ∨
      ∃ p, p % 4096 = 0 ∧ Touched B.memmap p ∧
        y = ⟨higherHalf D.hhdmOffset p, p, memoryFlags⟩ := by
  simp only [directMaps, List.mem_append, List.mem_map, List.mem_flatMap]
  constructor
  · rintro (⟨p, hp, rfl⟩ | ⟨e, he, p, hp, rfl⟩)
    · obtain ⟨hpage, -, hlt⟩ := (mem_pageList (by decide) (by decide)).mp hp
      exact .inl ⟨p, hpage, hlt, rfl⟩
    · obtain ⟨hpage, hrest⟩ := (mem_entryPages (h.entries e he)).mp hp
      exact .inr ⟨p, hpage, ⟨e, he, hrest⟩, rfl⟩
  · rintro (⟨p, hpage, hlt, rfl⟩ | ⟨p, hpage, ⟨e, he, hrest⟩, rfl⟩)
    · exact .inl ⟨p, (mem_pageList (by decide) (by decide)).mpr ⟨hpage, Nat.zero_le p, hlt⟩, rfl⟩
    · exact .inr ⟨e, he, p, (mem_entryPages (h.entries e he)).mpr ⟨hpage, hrest⟩, rfl⟩

theorem higherHalf_below {p : ℕ} (h : p < D.hhdmOffset) :
    higherHalf D.hhdmOffset p = wrap (D.hhdmOffset+p) := by
  rw [higherHalf, if_pos h, Nat.add_comm]

theorem flagSet_window : FlagSet (vmmPresent ||| vmmWrite) :=
  And.intro (by decide) (by decide)

theorem flagSet_text : FlagSet vmmPresent := And.intro (by decide) (by decide)

theorem flagSet_rodata : FlagSet (vmmPresent ||| vmmNx) := And.intro (by decide) (by decide)

theorem flagSet_memory : FlagSet memoryFlags := And.intro (by decide) (by decide)

/-- A mapping of the direct map maps a page of it to itself. -/
theorem direct_sound (h : KernelLayout D B) {y : Mapping} (hy : y ∈ directMaps D.hhdmOffset B) :
    Direct B y.phys ∧ y.page = pageNumber (D.hhdmOffset+y.phys) ∧ FlagSet y.flags := by
  rw [mem_directMaps h] at hy
  rcases hy with ⟨p, hpage, hlt, rfl⟩ | ⟨p, hpage, ht, rfl⟩
  · have hd : Direct B p := ⟨hpage, .inl hlt⟩
    refine ⟨hd, ?_, flagSet_window⟩
    rw [Mapping.page, higherHalf_below (hd.lt h).2, pageNumber_wrap]
  · have hd : Direct B p := ⟨hpage, .inr ht⟩
    refine ⟨hd, ?_, flagSet_memory⟩
    rw [Mapping.page, higherHalf_below (hd.lt h).2, pageNumber_wrap]

theorem direct_complete (h : KernelLayout D B) {p : ℕ} (hp : Direct B p) :
    ∃ y ∈ directMaps D.hhdmOffset B, y.phys = p := by
  rcases hp with ⟨hpage, hlow | ht⟩
  · exact ⟨_, (mem_directMaps h _).mpr (.inl ⟨p, hpage, hlow, rfl⟩), rfl⟩
  · exact ⟨_, (mem_directMaps h _).mpr (.inr ⟨p, hpage, ht, rfl⟩), rfl⟩

theorem direct_unique (h : KernelLayout D B) {p q : ℕ} (hp : Direct B p) (hq : q % 4096 = 0)
    (hq46 : q < 2^46) (heq : pageNumber (D.hhdmOffset+p) = pageNumber (D.hhdmOffset+q)) : p = q :=
  pageNumber_direct D.offset_aligned hp.1 hq (hp.lt h).1 hq46 heq

theorem Direct.proper (h : KernelLayout D B) {p flags : ℕ} (hp : Direct B p) (hf : FlagSet flags)
    (v : ℕ) : Proper (.vmap v p flags) :=
  ⟨hp.1, lt_trans (hp.lt h).1 (by decide), hf⟩

theorem mem_imageMaps (y : Mapping) : y ∈ imageMaps B ↔
    ∃ x ∈ sections B, ∃ a ∈ sectionPages x.1, y = ⟨a, sectionPhys B a, x.2⟩ := by
  simp only [imageMaps, List.mem_flatMap, sectionMaps, List.mem_map, eq_comm]

theorem mem_imagePages (a : ℕ) : a ∈ imagePages B ↔ ∃ x ∈ sections B, a ∈ sectionPages x.1 := by
  simp only [imagePages, List.mem_flatMap]

theorem imageMaps_pages : (imageMaps B).map Mapping.page = (imagePages B).map pageNumber := by
  simp only [imageMaps, imagePages, List.map_flatMap, sectionMaps, List.map_map]
  rfl

theorem sections_flags {x : Section × ℕ} (hx : x ∈ sections B) : FlagSet x.2 := by
  simp only [sections, List.mem_cons, List.not_mem_nil, or_false] at hx
  rcases hx with rfl | rfl | rfl | rfl
  · exact flagSet_window
  · exact flagSet_text
  · exact flagSet_rodata
  · exact flagSet_memory

theorem image_proper (h : KernelLayout D B) {x : Section × ℕ} (hx : x ∈ sections B) {a : ℕ}
    (ha : a ∈ sectionPages x.1) (v : ℕ) : Proper (.vmap v (sectionPhys B a) x.2) := by
  have hpage := ((mem_pageList (alignDown_mod _) (alignUp_mod _)).mp ha).1
  obtain ⟨hkvirt, hkvirt64⟩ := h.kvirt
  have hkphys := h.kphys
  refine ⟨?_, h.image a ((mem_imagePages a).mpr ⟨x, hx, ha⟩), sections_flags hx⟩
  rw [sectionPhys, wrap, wrap]
  omega

/-- No two mappings of the image map one page. -/
theorem image_unique (h : KernelLayout D B) {y z : Mapping} (hy : y ∈ imageMaps B)
    (hz : z ∈ imageMaps B) (heq : y.page = z.page) : y = z := by
  have hnodup := h.distinct
  rw [← imageMaps_pages] at hnodup
  exact List.inj_on_of_nodup_map hnodup hy hz heq

theorem mem_stackPages {a : ℕ} : a ∈ stackPages B ↔
    a % 4096 = 0 ∧ 16*1024 ≤ stackTop B ∧ stackTop B ≤ a+16*1024 ∧ a < stackTop B := by
  have hmod := alignUp_mod B.kstackTop
  have hlt := alignUp_lt B.kstackTop
  rw [← stackTop] at hmod hlt
  have hstart : wrap (stackTop B+2^64-16*1024) % 4096 = 0 := by
    rw [wrap]
    omega
  rw [stackPages, mem_pageList hstart hmod, wrap]
  omega

theorem mem_stackMaps {hhdmOffset : ℕ} (y : Mapping) : y ∈ stackMaps hhdmOffset B ↔
    ∃ a ∈ stackPages B, y = ⟨a, physical hhdmOffset a, vmmPresent ||| vmmWrite ||| vmmNx⟩ := by
  simp only [stackMaps, List.mem_map, eq_comm]

end Pages

section Space
variable {σ : Type} {D : Layout} {A : Ops σ} {B : BootInfo}

/-- The part that decides a page: the direct map, else the image, else the stack. -/
theorem init_last {hhdmOffset k : ℕ} {y : Mapping}
    (h : lastWrite Mapping.page k (initMaps hhdmOffset B) = some y) :
    y.page = k ∧ (y ∈ directMaps hhdmOffset B ∨ (∀ x ∈ directMaps hhdmOffset B, x.page ≠ k) ∧
      (y ∈ imageMaps B ∨ (∀ x ∈ imageMaps B, x.page ≠ k) ∧ y ∈ stackMaps hhdmOffset B)) := by
  refine ⟨(lastWrite_mem _ h).2, ?_⟩
  rw [initMaps, lastWrite_append_some, lastWrite_append_some] at h
  rcases h with (h | ⟨hdirect, h⟩) | ⟨hlater, h⟩
  · exact .inl (lastWrite_mem _ h).1
  · exact .inr ⟨hdirect, .inl (lastWrite_mem _ h).1⟩
  · exact .inr ⟨fun x hx => hlater x (List.mem_append_right _ hx),
      .inr ⟨fun x hx => hlater x (List.mem_append_left _ hx), (lastWrite_mem _ h).1⟩⟩

theorem mem_initMaps {hhdmOffset : ℕ} (y : Mapping) : y ∈ initMaps hhdmOffset B ↔
    y ∈ stackMaps hhdmOffset B ∨ y ∈ imageMaps B ∨ y ∈ directMaps hhdmOffset B := by
  rw [initMaps, List.mem_append, List.mem_append]

/-- The address space that `paging_init` is to establish. -/
structure Intended (D : Layout) (B : BootInfo) (kernelPagemap : ℕ) (m : Mem) : Prop where
  direct : ∀ p, Direct B p → virtToPhys D.hhdmOffset m kernelPagemap (wrap (D.hhdmOffset+p)) = p
  image : ∀ x ∈ sections B, ∀ a ∈ sectionPages x.1,
    virtToPhys D.hhdmOffset m kernelPagemap a = sectionPhys B a ∧
      (pageWalk D.hhdmOffset m a walkShifts kernelPagemap).map effective = some (requested x.2)
  stack : ∀ a, a % 4096 = 0 → stackTop B ≤ a+16*1024 → a < stackTop B → D.hhdmOffset ≤ a →
    a < D.hhdmOffset+2^46 → virtToPhys D.hhdmOffset m kernelPagemap a = a-D.hhdmOffset
  only : ∀ v, (pageWalk D.hhdmOffset m v walkShifts kernelPagemap).isSome = true ↔
    (∃ p, Direct B p ∧ pageNumber v = pageNumber (D.hhdmOffset+p)) ∨
      ∃ a ∈ imagePages B ++ stackPages B, pageNumber v = pageNumber a

variable {C : Contract D A} {pm : ℕ} {s : Phys σ}

theorem direct_translates (h : KernelLayout D B)
    (hm : Mapped C pm (initMaps D.hhdmOffset B) s) {p : ℕ} (hp : Direct B p) :
    virtToPhys D.hhdmOffset s.mem pm (wrap (D.hhdmOffset+p)) = p := by
  obtain ⟨x, hx, rfl⟩ := direct_complete h hp
  have hpage : x.page = pageNumber (wrap (D.hhdmOffset+x.phys)) := by
    rw [pageNumber_wrap]
    exact (direct_sound h hx).2.1
  refine hm.translates ((mem_initMaps x).mpr (.inr (.inr hx))) hpage fun y hlast => ?_
  obtain ⟨heq, hy | ⟨hno, -⟩⟩ := init_last hlast
  · obtain ⟨hd, hypage, hflags⟩ := direct_sound h hy
    rw [hypage, pageNumber_wrap] at heq
    exact ⟨direct_unique h hd hp.1 (hp.lt h).1 heq, hd.proper h hflags _⟩
  · exact absurd hpage (hno x hx)

/-- The last mapping of an image page is the one of its section. -/
theorem image_last (h : KernelLayout D B) {x : Section × ℕ} (hx : x ∈ sections B) {a : ℕ}
    (ha : a ∈ sectionPages x.1) {y : Mapping}
    (hlast : lastWrite Mapping.page (pageNumber a) (initMaps D.hhdmOffset B) = some y) :
    y = ⟨a, sectionPhys B a, x.2⟩ := by
  have hmem : (⟨a, sectionPhys B a, x.2⟩ : Mapping) ∈ imageMaps B :=
    (mem_imageMaps _).mpr ⟨x, hx, a, ha, rfl⟩
  obtain ⟨heq, hy | ⟨-, hy | ⟨hno, -⟩⟩⟩ := init_last hlast
  · obtain ⟨hd, hypage, -⟩ := direct_sound h hy
    rw [hypage] at heq
    exact absurd heq.symm (h.apart a ((mem_imagePages a).mpr ⟨x, hx, ha⟩) _ (hd.lt h).1)
  · exact image_unique h hy hmem heq
  · exact absurd rfl (hno _ hmem)

theorem image_translates (h : KernelLayout D B) (hm : Mapped C pm (initMaps D.hhdmOffset B) s)
    {x : Section × ℕ} (hx : x ∈ sections B) {a : ℕ} (ha : a ∈ sectionPages x.1) :
    virtToPhys D.hhdmOffset s.mem pm a = sectionPhys B a ∧
      (pageWalk D.hhdmOffset s.mem a walkShifts pm).map effective = some (requested x.2) := by
  have hmem : (⟨a, sectionPhys B a, x.2⟩ : Mapping) ∈ initMaps D.hhdmOffset B :=
    (mem_initMaps _).mpr (.inr (.inl ((mem_imageMaps _).mpr ⟨x, hx, a, ha, rfl⟩)))
  constructor
  · refine hm.translates hmem rfl fun y hlast => ?_
    rw [image_last h hx ha hlast]
    exact ⟨rfl, image_proper h hx ha _⟩
  · obtain ⟨y, hlast⟩ := exists_lastWrite Mapping.page hmem rfl
    obtain rfl := image_last h hx ha hlast
    exact hm.permits hlast (image_proper h hx ha _)

/-- The stack pages that lie in the direct map are mapped as it maps them. -/
theorem stack_translates (h : KernelLayout D B) (hm : Mapped C pm (initMaps D.hhdmOffset B) s)
    {a : ℕ} (ha : a ∈ stackPages B) (hlo : D.hhdmOffset ≤ a) (hhi : a < D.hhdmOffset+2^46) :
    virtToPhys D.hhdmOffset s.mem pm a = a-D.hhdmOffset := by
  have hmem : (⟨a, physical D.hhdmOffset a, vmmPresent ||| vmmWrite ||| vmmNx⟩ : Mapping) ∈
      initMaps D.hhdmOffset B := (mem_initMaps _).mpr (.inl ((mem_stackMaps _).mpr ⟨a, ha, rfl⟩))
  have ho := D.offset_aligned
  obtain ⟨hpage, -, htop, hbelow⟩ := mem_stackPages.mp ha
  have hsum : D.hhdmOffset+(a-D.hhdmOffset) = a := by omega
  refine hm.translates hmem rfl fun y hlast => ?_
  obtain ⟨heq, hy | ⟨-, hy | ⟨-, hy⟩⟩⟩ := init_last hlast
  · obtain ⟨hd, hypage, hflags⟩ := direct_sound h hy
    rw [hypage, ← hsum] at heq
    exact ⟨direct_unique h hd (by omega) (by omega) heq, hd.proper h hflags _⟩
  · obtain ⟨x, hx, b, hb, rfl⟩ := (mem_imageMaps y).mp hy
    have hapart := h.apart b ((mem_imagePages b).mpr ⟨x, hx, hb⟩) (a-D.hhdmOffset) (by omega)
    rw [hsum] at hapart
    exact absurd heq hapart
  · obtain ⟨b, hb, rfl⟩ := (mem_stackMaps y).mp hy
    obtain ⟨hbpage, -, hbtop, hbbelow⟩ := mem_stackPages.mp hb
    have hab : b = a := by
      change pageNumber b = pageNumber a at heq
      rw [pageNumber, pageNumber] at heq
      omega
    subst hab
    have hphys : physical D.hhdmOffset b = b-D.hhdmOffset := if_pos hlo
    have hframe : (b-D.hhdmOffset) % 4096 = 0 ∧ b-D.hhdmOffset < 2^52 := by omega
    rw [hphys]
    exact ⟨rfl, hframe.1, hframe.2, flagSet_memory⟩

theorem initMaps_flags (h : KernelLayout D B) {y : Mapping} (hy : y ∈ initMaps D.hhdmOffset B) :
    FlagSet y.flags := by
  rcases (mem_initMaps y).mp hy with hy | hy | hy
  · obtain ⟨a, -, rfl⟩ := (mem_stackMaps y).mp hy
    exact flagSet_memory
  · obtain ⟨x, hx, a, -, rfl⟩ := (mem_imageMaps y).mp hy
    exact sections_flags hx
  · exact (direct_sound h hy).2.2

theorem initMaps_entry (h : KernelLayout D B) {y : Mapping} (hy : y ∈ initMaps D.hhdmOffset B) :
    y.entry < 2^64 := by
  have hphys : y.phys < 2^64 := by
    rcases (mem_initMaps y).mp hy with hy | hy | hy
    · obtain ⟨a, ha, rfl⟩ := (mem_stackMaps y).mp hy
      have hlt := alignUp_lt B.kstackTop
      obtain ⟨-, -, -, hbelow⟩ := mem_stackPages.mp ha
      rw [stackTop] at hbelow
      dsimp only [physical]
      split_ifs <;> omega
    · obtain ⟨x, hx, a, -, rfl⟩ := (mem_imageMaps y).mp hy
      exact wrap_lt _
    · exact lt_trans ((direct_sound h hy).1.lt h).1 (by decide)
  exact Nat.or_lt_two_pow hphys (initMaps_flags h hy).lt

/-- A page is mapped at all if it has a mapping in the list. -/
theorem mapped_iff (h : KernelLayout D B) (v : ℕ) :
    (∃ y ∈ initMaps D.hhdmOffset B, y.page = pageNumber v) ↔
      (∃ p, Direct B p ∧ pageNumber v = pageNumber (D.hhdmOffset+p)) ∨
        ∃ a ∈ imagePages B ++ stackPages B, pageNumber v = pageNumber a := by
  constructor
  · rintro ⟨y, hy, hpage⟩
    rcases (mem_initMaps y).mp hy with hy | hy | hy
    · obtain ⟨a, ha, rfl⟩ := (mem_stackMaps y).mp hy
      exact .inr ⟨a, List.mem_append_right _ ha, hpage.symm⟩
    · obtain ⟨x, hx, a, ha, rfl⟩ := (mem_imageMaps y).mp hy
      exact .inr ⟨a, List.mem_append_left _ ((mem_imagePages a).mpr ⟨x, hx, ha⟩), hpage.symm⟩
    · obtain ⟨hd, hypage, -⟩ := direct_sound h hy
      exact .inl ⟨_, hd, hpage.symm.trans hypage⟩
  · rintro (⟨p, hp, hv⟩ | ⟨a, ha, hv⟩)
    · obtain ⟨y, hy, rfl⟩ := direct_complete h hp
      exact ⟨y, (mem_initMaps y).mpr (.inr (.inr hy)), (direct_sound h hy).2.1.trans hv.symm⟩
    · rcases List.mem_append.mp ha with ha | ha
      · obtain ⟨x, hx, hax⟩ := (mem_imagePages a).mp ha
        exact ⟨⟨a, sectionPhys B a, x.2⟩,
          (mem_initMaps _).mpr (.inr (.inl ((mem_imageMaps _).mpr ⟨x, hx, a, hax, rfl⟩))), hv.symm⟩
      · exact ⟨⟨a, physical D.hhdmOffset a, vmmPresent ||| vmmWrite ||| vmmNx⟩,
          (mem_initMaps _).mpr (.inl ((mem_stackMaps _).mpr ⟨a, ha, rfl⟩)), hv.symm⟩

/-- The list of mappings amounts to the intended address space. -/
theorem intended_of_mapped (h : KernelLayout D B) (hm : Mapped C pm (initMaps D.hhdmOffset B) s) :
    Intended D B pm s.mem where
  direct := fun _ hp => direct_translates h hm hp
  image := fun _ hx _ ha => image_translates h hm hx ha
  stack := fun a hpage htop hbelow hlo hhi => by
    have hwindow := h.window
    exact stack_translates h hm (mem_stackPages.mpr ⟨hpage, by omega, htop, hbelow⟩) hlo hhi
  only := fun v => by
    rw [← mapped_iff h]
    constructor
    · intro hsome
      by_contra hno
      rw [hm.absent fun y hy hpage => hno ⟨y, hy, hpage⟩] at hsome
      exact absurd hsome (by decide)
    · rintro ⟨y, hy, hpage⟩
      exact hm.present hy hpage fun z hz => (initMaps_flags h hz).2

/-- No call of `palloc` fails. -/
def PallocSucceeds (A : Ops σ) (hhdmOffset : ℕ) (B : BootInfo) (s : Phys σ) : Prop :=
  let r := A.palloc 1 true s
  r.1 ≠ 0 ∧ AllGranted A hhdmOffset r.1 (initMaps hhdmOffset B)
    { r.2 with mem := fill r.2.mem r.1 0 4096 }

/-- Regions that hold all mappings: those of the direct map below `2^21*n` and
those of the pages of the image and the stack. -/
def initRegions (hhdmOffset : ℕ) (B : BootInfo) (n : ℕ) : Finset ℕ :=
  (Finset.range n).image (fun g => region (hhdmOffset+2^21*g)) ∪
    ((imagePages B ++ stackPages B).map region).toFinset

theorem initRegions_card (hhdmOffset : ℕ) (B : BootInfo) (n : ℕ) :
    (initRegions hhdmOffset B n).card ≤ n+((imagePages B).length+(stackPages B).length) := by
  refine le_trans (Finset.card_union_le _ _) (Nat.add_le_add ?_ ?_)
  · exact le_trans Finset.card_image_le (le_of_eq (Finset.card_range n))
  · refine le_trans (List.toFinset_card_le _) (le_of_eq ?_)
    rw [List.length_map, List.length_append]

theorem mem_initRegions (h : KernelLayout D B) (ho : D.hhdmOffset % 2^21 = 0) {n : ℕ}
    (hn : 2^32 ≤ 2^21*n) (hentries : ∀ e ∈ B.memmap, e.base+e.length ≤ 2^21*n) {y : Mapping}
    (hy : y ∈ initMaps D.hhdmOffset B) : region y.virt ∈ initRegions D.hhdmOffset B n := by
  rw [initRegions, Finset.mem_union, Finset.mem_image, List.mem_toFinset, List.mem_map]
  rcases (mem_initMaps y).mp hy with hy | hy | hy
  · obtain ⟨a, ha, rfl⟩ := (mem_stackMaps y).mp hy
    exact .inr ⟨a, List.mem_append_right _ ha, rfl⟩
  · obtain ⟨x, hx, a, ha, rfl⟩ := (mem_imageMaps y).mp hy
    exact .inr ⟨a, List.mem_append_left _ ((mem_imagePages a).mpr ⟨x, hx, ha⟩), rfl⟩
  · obtain ⟨hd, hpage, -⟩ := direct_sound h hy
    have hlt : y.phys < 2^21*n := by
      rcases hd with ⟨-, hlow | ⟨e, he, -, -, hlt, -⟩⟩
      · omega
      · exact lt_of_lt_of_le hlt (hentries e he)
    refine .inl ⟨y.phys/2^21, Finset.mem_range.mpr (by omega), ?_⟩
    rw [Mapping.page, pageNumber, pageNumber] at hpage
    rw [region, region]
    omega

/-- Three free pages for each 2 MiB region and one for the page map are enough. -/
theorem pallocSucceeds_of_room {room : Phys σ → ℕ} (hR : Room C room) (h : KernelLayout D B)
    (hv : C.Valid s) (ho : D.hhdmOffset % 2^21 = 0) {n : ℕ} (hn : 2^32 ≤ 2^21*n)
    (hentries : ∀ e ∈ B.memmap, e.base+e.length ≤ 2^21*n)
    (hroom : 3*(n+((imagePages B).length+(stackPages B).length)) < room s) :
    PallocSucceeds A D.hhdmOffset B s := by
  have hgrant := hR.grants hv (by omega)
  obtain ⟨f, hf, -, -, -, hzvalid, hzowned, -⟩ := grant_zeroed hv hgrant
  have hin := hzowned.symm ▸ Set.mem_insert f (C.owned s)
  have hstart := mapped_zeroed C hzvalid hin fun a ha => fill_inside _ _ _ _ _ ha
  have hspends := hR.spends hv
  have hpalloc : f ∈ C.owned (A.palloc 1 true s).2 := by
    obtain ⟨g, hg, -, -, -, howned⟩ := C.palloc_grant hv true hgrant
    rw [if_pos rfl, hf, Nat.add_right_inj] at hg
    rw [howned, hg]
    exact Set.mem_insert g _
  have hfill := hR.write (C.palloc_valid hv true) _
    (fill_frame hpalloc (A.palloc 1 true s).2.mem)
  have hcard := initRegions_card D.hhdmOffset B n
  have hmissing := fun m => missing_card (D := D) m (D.hhdmOffset+f) (initRegions D.hhdmOffset B n)
  have hall := allGranted_of_room hR (Set.mem_singleton (D.hhdmOffset+f))
    (fun y hy => mem_initRegions h ho hn hentries hy) (fun y hy => initMaps_entry h hy)
    hstart.forest (le_trans (Nat.mul_le_mul_left 3 (hmissing _)) (by omega))
  refine ⟨hgrant, ?_⟩
  rw [hf]
  exact hall

/-- The new page map after all mappings, at the frame `f` that was free before. -/
theorem pagingInit_mapped (C : Contract D A) (h : KernelLayout D B) (hv : C.Valid s)
    (hp : PallocSucceeds A D.hhdmOffset B s) : ∃ f s',
    pagingInit A D.hhdmOffset B s = some (D.hhdmOffset+f, s') ∧
      Mapped C (D.hhdmOffset+f) (initMaps D.hhdmOffset B) s' := by
  obtain ⟨hgrant, hall⟩ := hp
  obtain ⟨f, hf, hfa, hft, -, hzvalid, hzowned, -⟩ := grant_zeroed hv hgrant
  have ho := D.offset_aligned
  have hpage : isPageAligned (A.palloc 1 true s).1 = true := by
    rw [isPageAligned_iff, hf]
    omega
  have hcr3 : isPageAligned (physical D.hhdmOffset (A.palloc 1 true s).1) = true := by
    rw [isPageAligned_iff, hf, physical_pointer]
    exact hfa
  have hstart := mapped_zeroed C hzvalid (by rw [hzowned]; exact Set.mem_insert f _)
    fun a ha => fill_inside _ _ _ _ _ ha
  rw [hf] at hall
  have hend := hstart.mapAll (fun y hy => initMaps_entry h hy) hall
  rw [List.nil_append] at hend
  refine ⟨f, _, ?_, hend⟩
  rw [pagingInit, if_neg (by simp [hgrant, hpage]), if_neg (by simp [hgrant, hcr3]),
    mapKernelSpace_eq, hf]

end Space

section Example

/-- A machine with 1 TiB of physical memory, of which the loader reports two ranges. -/
def bootLayout : Layout where
  hhdmOffset := 0xffff800000000000
  top := 0x10000000000
  top_le_offset := by decide
  top_le_address := by decide
  pointer_fits := by decide
  offset_aligned := limine_offset_aligned

def bootInfo : BootInfo where
  kvirt := 0xffffffff80000000
  kphys := 0x200000
  kstackTop := 0xffff80000007f000
  limineRequests := ⟨0xffffffff80000000, 0xffffffff80000100⟩
  text := ⟨0xffffffff80001000, 0xffffffff80002800⟩
  rodata := ⟨0xffffffff80003000, 0xffffffff80003400⟩
  data := ⟨0xffffffff80004000, 0xffffffff80004800⟩
  memmap := [⟨0x100000, 0x8000, .usable⟩, ⟨0x100000800, 0x7000, .usable⟩]

theorem bootInfo_pages : imagePages bootInfo = [0xffffffff80000000, 0xffffffff80001000,
    0xffffffff80002000, 0xffffffff80003000, 0xffffffff80004000] := by decide

theorem bootInfo_layout : KernelLayout bootLayout bootInfo where
  entries := by decide
  below := by decide
  window := by decide
  kvirt := by decide
  kphys := by decide
  image := by
    rw [bootInfo_pages]
    decide
  distinct := by
    rw [bootInfo_pages]
    decide
  apart := by
    rw [bootInfo_pages]
    intro a ha p hp
    have hlow : 0xffff80000 ≤ pageNumber a := by
      revert a
      decide
    have hoffset : bootLayout.hhdmOffset = 0xffff800000000000 := rfl
    rw [pageNumber] at hlow
    rw [pageNumber, pageNumber, hoffset]
    omega

def bootPhys : Phys (List ℕ) := ⟨fun _ => 0, []⟩

theorem bootPhys_valid : (ReferenceAllocator.contract bootLayout).Valid bootPhys :=
  fun _ hq => absurd hq List.not_mem_nil

theorem bootInfo_palloc : PallocSucceeds (ReferenceAllocator.ops bootLayout) bootLayout.hhdmOffset
    bootInfo bootPhys := by
  refine pallocSucceeds_of_room (reference_room bootLayout) bootInfo_layout bootPhys_valid
    (by decide) (n := 2049) (by decide) (by decide) ?_
  rw [bootInfo_pages]
  decide

end Example

variable {σ : Type} {D : Layout} {A : Ops σ} {B : BootInfo} {s : Phys σ}

/-- If no call of `palloc` fails, `paging_init` ends with the intended address
space, whatever the memory map and wherever the image was loaded. -/
theorem kernel_space_established (C : Contract D A) (h : KernelLayout D B) (hv : C.Valid s)
    (hp : PallocSucceeds A D.hhdmOffset B s) : ∃ kernelPagemap s',
    pagingInit A D.hhdmOffset B s = some (kernelPagemap, s') ∧
      Intended D B kernelPagemap s'.mem := by
  obtain ⟨f, s', hinit, hmapped⟩ := pagingInit_mapped C h hv hp
  exact ⟨_, s', hinit, intended_of_mapped h hmapped⟩

theorem kernel_space_established_small : ∃ kernelPagemap s',
    pagingInit (ReferenceAllocator.ops bootLayout) bootLayout.hhdmOffset bootInfo bootPhys =
        some (kernelPagemap, s') ∧
      Intended bootLayout bootInfo kernelPagemap s'.mem :=
  kernel_space_established (ReferenceAllocator.contract bootLayout).toContract bootInfo_layout
    bootPhys_valid bootInfo_palloc

end Emk.KernelSpace
