import Emk.PagingPermissions
import Emk.Pmm

/-!
# The kernel's own page map

`paging_init` of `arch/paging.c` without large pages. It takes a page for the
page map and maps the boot stack, the sections of the kernel image, the first
4 GiB of physical memory and the entries of the memory map, in this order.
-/

set_option autoImplicit false

namespace Emk.PagingInit
open Emk.ByteMemory Emk.MachineWord Emk.DirectMap Emk.PageAllocator Emk.Paging
open Emk.Pmm (MemmapEntry)

def pageSize2M : ℕ := 0x200000

/-- The linker symbols around a section. -/
structure Section where
  start : ℕ
  stop : ℕ
  deriving DecidableEq, Repr

/-- What the boot loader and the linker script provide. -/
structure BootInfo where
  kvirt : ℕ
  kphys : ℕ
  kstackTop : ℕ
  limineRequests : Section
  text : Section
  rodata : Section
  data : Section
  memmap : List MemmapEntry

variable {σ : Type} (A : Ops σ) (hhdmOffset pagemap : ℕ)

/-- `for (addr = ..; addr < last; addr += PAGE_SIZE) vmap(pagemap, ..)`. It meets
each page address once, so 2^52 rounds exhaust the loop. -/
def mapLoop (virt phys : ℕ → ℕ) (flags last : ℕ) : ℕ → ℕ → Phys σ → Phys σ
  | 0, _, s => s
  | rounds+1, addr, s =>
    if addr < last then
      mapLoop virt phys flags last rounds (wrap (addr+4096))
        (vmap A hhdmOffset pagemap (virt addr) (phys addr) flags s).2
    else s

/-- Map the kernel stack. -/
def mapStack (kstackTop : ℕ) (s : Phys σ) : Phys σ :=
  let stackTop := alignUp kstackTop 4096
  mapLoop A hhdmOffset pagemap id (physical hhdmOffset) (vmmPresent ||| vmmWrite ||| vmmNx) stackTop
    (2^52) (wrap (stackTop+2^64-16*1024)) s

def sectionPhys (B : BootInfo) (addr : ℕ) : ℕ := wrap (wrap (addr+2^64-B.kvirt)+B.kphys)

def mapSection (B : BootInfo) (sec : Section) (flags : ℕ) (s : Phys σ) : Phys σ :=
  mapLoop A hhdmOffset pagemap id (sectionPhys B) flags (alignUp sec.stop 4096) (2^52)
    (alignDown sec.start 4096) s

/-- Map the HHDM. -/
def mapHhdm (s : Phys σ) : Phys σ :=
  mapLoop A hhdmOffset pagemap (higherHalf hhdmOffset) id (vmmPresent ||| vmmWrite) 0x100000000
    (2^52) 0 s

/-- `vmap_large` when large pages are disabled. -/
def vmapLarge (_pagemap _virt _phys _flags : ℕ) : ℤ := -1

def memoryFlags : ℕ := vmmPresent ||| vmmWrite ||| vmmNx

/-- The inner loop over the pages of an entry of the memory map. -/
def memoryLoop (last : ℕ) : ℕ → ℕ → Phys σ → Phys σ
  | 0, _, s => s
  | rounds+1, addr, s =>
    if addr < last then
      let virt := higherHalf hhdmOffset addr
      if addr &&& (pageSize2M-1) = 0 ∧ virt &&& (pageSize2M-1) = 0 ∧ last-addr ≥ pageSize2M ∧
          vmapLarge pagemap virt addr memoryFlags = 0 then
        memoryLoop last rounds (wrap (addr+pageSize2M)) s
      else
        memoryLoop last rounds (wrap (addr+4096))
          (vmap A hhdmOffset pagemap virt addr memoryFlags s).2
    else s

def mapEntry (e : MemmapEntry) (s : Phys σ) : Phys σ :=
  if e.base = 0 ∨ e.length = 0 then s
  else memoryLoop A hhdmOffset pagemap (alignUp (wrap (e.base+e.length)) 4096) (2^52)
    (alignDown e.base 4096) s

def mapEntries : List MemmapEntry → Phys σ → Phys σ
  | [], s => s
  | e::es, s => mapEntries es (mapEntry A hhdmOffset pagemap e s)

/-- Everything that `paging_init` maps. -/
def mapKernelSpace (B : BootInfo) (s : Phys σ) : Phys σ :=
  let s := mapStack A hhdmOffset pagemap B.kstackTop s
  let s := mapSection A hhdmOffset pagemap B B.limineRequests (vmmPresent ||| vmmWrite) s
  let s := mapSection A hhdmOffset pagemap B B.text vmmPresent s
  let s := mapSection A hhdmOffset pagemap B B.rodata (vmmPresent ||| vmmNx) s
  let s := mapSection A hhdmOffset pagemap B B.data (vmmPresent ||| vmmWrite ||| vmmNx) s
  let s := mapHhdm A hhdmOffset pagemap s
  mapEntries A hhdmOffset pagemap B.memmap s

/-- `paging_init`: the new `kernel_pagemap`, which is then the one in `cr3`.
The result is `none` when it ends in a kernel panic. -/
def pagingInit (B : BootInfo) (s : Phys σ) : Option (ℕ × Phys σ) :=
  let r := A.palloc 1 true s
  if r.1 = 0 ∨ isPageAligned r.1 = false then none
  else
    let s := mapKernelSpace A hhdmOffset r.1 B { r.2 with mem := fill r.2.mem r.1 0 4096 }
    if r.1 = 0 ∨ isPageAligned (physical hhdmOffset r.1) = false then none else some (r.1, s)

end Emk.PagingInit
