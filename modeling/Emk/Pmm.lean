import Emk.PageAllocator

/-!
# The physical page allocator

`mm/pmm.c` over `lib/bitmap.h`. A set bit marks a page in use. The bitmap
lives in the first usable memory that can hold it, so it is part of the
memory whose pages it describes. Single pages go through a cache of page
indices; larger requests search the bitmap one aligned 64-bit word at a time.
-/

set_option autoImplicit false

namespace Emk.Pmm
open Emk.ByteMemory Emk.MachineWord Emk.DirectMap Emk.PageAllocator

def bitmapSet (m : Mem) (bitmap bit : ℕ) : Mem :=
  Function.update m (bitmap+bit/8) (m (bitmap+bit/8) ||| 1 <<< UInt8.ofNat (bit % 8))

def bitmapClear (m : Mem) (bitmap bit : ℕ) : Mem :=
  Function.update m (bitmap+bit/8) (m (bitmap+bit/8) &&& ~~~(1 <<< UInt8.ofNat (bit % 8)))

def bitmapGet (m : Mem) (bitmap bit : ℕ) : Bool :=
  m (bitmap+bit/8) &&& 1 <<< UInt8.ofNat (bit % 8) != 0

inductive MemmapType where
  | usable
  | reserved
  | acpiReclaimable
  | acpiNvs
  | badMemory
  | bootloaderReclaimable
  | executableAndModules
  | framebuffer
  deriving DecidableEq, Repr

structure MemmapEntry where
  base : ℕ
  length : ℕ
  type : MemmapType
  deriving DecidableEq, Repr

structure Vars where
  bitmapPages : ℕ
  bitmapSize : ℕ
  bitmap : ℕ
  freePages : ℕ
  pageCache : ℕ → ℕ
  cacheSize : ℕ
  cacheIndex : ℕ

abbrev State := Phys Vars

def pageCacheSize : ℕ := 1024

/-- The first scan: the highest usable address and the usable page count. -/
def scanMemmap (high free : ℕ) : List MemmapEntry → ℕ × ℕ
  | [] => (high, free)
  | e::es =>
    if e.type = .usable then
      let top := wrap (e.base+e.length)
      scanMemmap (if top > high then top else high) (wrap (free+e.length/4096)) es
    else scanMemmap high free es

/-- The second scan: the entry that takes the bitmap gives up its first bytes. -/
def placeBitmap (bitmapSize : ℕ) : List MemmapEntry → Option ℕ × List MemmapEntry
  | [] => (none, [])
  | e::es =>
    if e.type = .usable ∧ e.length ≥ bitmapSize then
      (some e.base, { e with base := wrap (e.base+bitmapSize), length := e.length-bitmapSize }::es)
    else ((placeBitmap bitmapSize es).1, e::(placeBitmap bitmapSize es).2)

/-- The inner loop of the third scan. It meets each page address once, so
2^52 rounds exhaust every loop that does not wrap around. -/
def clearEntry (bitmap bitmapPages last : ℕ) : ℕ → ℕ → Mem → Mem
  | 0, _, m => m
  | rounds+1, j, m =>
    if j < last then
      clearEntry bitmap bitmapPages last rounds (wrap (j+4096))
        (if j/4096 < bitmapPages then bitmapClear m bitmap (j/4096) else m)
    else m

def clearUsable (bitmap bitmapPages : ℕ) : List MemmapEntry → Mem → Mem
  | [], m => m
  | e::es, m =>
    clearUsable bitmap bitmapPages es
      (if e.type = .usable then
        clearEntry bitmap bitmapPages (wrap (e.base+e.length)) (2^52) e.base m
      else m)

def bitmapPagesFor (memmap : List MemmapEntry) : ℕ := (scanMemmap 0 0 memmap).1/4096

def bitmapSizeFor (memmap : List MemmapEntry) : ℕ := alignUp (bitmapPagesFor memmap/8) 4096

/-- `pmm_init`; it also returns the memory map it leaves behind. When no
entry can hold the bitmap the pointer keeps its initial value `NULL`. -/
def pmmInit (hhdmOffset : ℕ) (memmap : List MemmapEntry) (m : Mem) : State × List MemmapEntry :=
  let bitmapPages := bitmapPagesFor memmap
  let bitmapSize := bitmapSizeFor memmap
  let free := (scanMemmap 0 0 memmap).2
  let placed := placeBitmap bitmapSize memmap
  let (bitmap, m, freePages) := match placed.1 with
    | some base => (wrap (base+hhdmOffset), fill m (wrap (base+hhdmOffset)) 0xFF bitmapSize,
        wrap (free+2^64-bitmapSize/4096))
    | none => (0, m, free)
  (⟨clearUsable bitmap bitmapPages placed.2 m,
    { bitmapPages, bitmapSize, bitmap, freePages, pageCache := fun _ => 0,
      cacheSize := pageCacheSize, cacheIndex := 0 }⟩, placed.2)

/-- The loop over one bitmap word: `c` clear bits end right before bit `j`. -/
def scanWord (m : Mem) (bitmap bitmapPages pages startBit : ℕ) : ℕ → ℕ → ℕ → Option ℕ
  | 0, _, _ => none
  | rounds+1, j, c =>
    if startBit+j < bitmapPages then
      if bitmapGet m bitmap (startBit+j) then
        scanWord m bitmap bitmapPages pages startBit rounds (j+1) 0
      else if c+1 = pages then some (startBit+j+1-pages)
      else scanWord m bitmap bitmapPages pages startBit rounds (j+1) (c+1)
    else none

def scanWords (m : Mem) (bitmap bitmapPages pages : ℕ) : ℕ → ℕ → Option ℕ
  | 0, _ => none
  | rounds+1, i =>
    if load64 m (bitmap+8*i) ≠ 2^64-1 then
      match scanWord m bitmap bitmapPages pages (i*64) 64 0 0 with
      | some start => some start
      | none => scanWords m bitmap bitmapPages pages rounds (i+1)
    else scanWords m bitmap bitmapPages pages rounds (i+1)

def setRun (m : Mem) (bitmap start : ℕ) : ℕ → Mem
  | 0 => m
  | n+1 => bitmapSet (setRun m bitmap start n) bitmap (start+n)

def pageAddress (hhdmOffset addr : ℕ) (hh : Bool) : ℕ :=
  if hh then wrap (addr+hhdmOffset) else addr

def palloc (hhdmOffset pages : ℕ) (hh : Bool) (s : State) : ℕ × State :=
  let v := s.pmm
  if pages = 0 ∨ pages > v.freePages then (0, s)
  else if pages = 1 ∧ v.cacheIndex > 0 then
    let addr := 4096*v.pageCache (v.cacheIndex-1)
    let m := bitmapSet s.mem v.bitmap (addr/4096)
    (pageAddress hhdmOffset addr hh,
      ⟨fill m (higherHalf hhdmOffset addr) 0 (4096*pages),
        { v with cacheIndex := v.cacheIndex-1, freePages := v.freePages-1 }⟩)
  else
    match scanWords s.mem v.bitmap v.bitmapPages pages ((v.bitmapPages+64-1)/64) 0 with
    | some start =>
      let addr := 4096*start
      let m := setRun s.mem v.bitmap start pages
      (pageAddress hhdmOffset addr hh,
        ⟨fill m (higherHalf hhdmOffset addr) 0 (4096*pages),
          { v with freePages := v.freePages-pages }⟩)
    | none => (0, s)

/-- One round of the loop of `pfree` at page `start+i`. -/
def pfreePage (start pages i : ℕ) (s : State) : State :=
  let v := s.pmm
  if bitmapGet s.mem v.bitmap (start+i) then
    ⟨bitmapClear s.mem v.bitmap (start+i),
      if pages = 1 ∧ v.cacheIndex < v.cacheSize then
        { v with freePages := v.freePages+1,
                 pageCache := Function.update v.pageCache v.cacheIndex start,
                 cacheIndex := v.cacheIndex+1 }
      else { v with freePages := v.freePages+1 }⟩
  else s

def pfreePages (start pages : ℕ) : ℕ → State → State
  | 0, s => s
  | n+1, s => pfreePage start pages n (pfreePages start pages n s)

def pfreeStart (hhdmOffset ptr : ℕ) : ℕ :=
  (ptr-hhdmOffset*(if ptr ≥ hhdmOffset then 1 else 0))/4096

def pfree (hhdmOffset ptr pages : ℕ) (s : State) : State :=
  if ptr = 0 ∨ ptr % 4096 ≠ 0 then s
  else if wrap (pfreeStart hhdmOffset ptr+pages) > s.pmm.bitmapPages then s
  else pfreePages (pfreeStart hhdmOffset ptr) pages pages s

def pmmAllocator (hhdmOffset : ℕ) : Ops Vars where
  palloc := palloc hhdmOffset
  pfree := pfree hhdmOffset

end Emk.Pmm
