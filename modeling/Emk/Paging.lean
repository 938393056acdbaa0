import Emk.PageAllocator

/-!
# Four-level page tables

`arch/paging.c` without large pages. A table is a frame of 512 entries of
eight bytes, named by its direct-map pointer; a zero pointer is `NULL`.
Tables are allocated on the way down and never given back.
-/

set_option autoImplicit false

namespace Emk.Paging
open Emk.ByteMemory Emk.MachineWord Emk.DirectMap Emk.PageAllocator

def vmmPresent : ℕ := 1 <<< 0
def vmmWrite : ℕ := 1 <<< 1
def vmmUser : ℕ := 1 <<< 2
def vmmNx : ℕ := 1 <<< 63

def pageMask : ℕ := 0x000FFFFFFFFFF000
def pageIndexMask : ℕ := 0x1FF

def pml1Shift : ℕ := 12
def pml2Shift : ℕ := 21
def pml3Shift : ℕ := 30
def pml4Shift : ℕ := 39

def pageIndex (virt shift : ℕ) : ℕ := (virt >>> shift) &&& pageIndexMask

def getTable (hhdmOffset : ℕ) (m : Mem) (table index : ℕ) : ℕ :=
  if table = 0 ∨ load64 m (table+8*index) &&& vmmPresent = 0 then 0
  else higherHalf hhdmOffset (load64 m (table+8*index) &&& pageMask)

variable {σ : Type} (A : Ops σ) (hhdmOffset : ℕ)

/-- The last two statements of `get_or_alloc_table`. -/
def orFlags (table index flags : ℕ) (s : Phys σ) : ℕ × Phys σ :=
  let e := load64 s.mem (table+8*index) ||| (flags &&& 0xFF)
  (higherHalf hhdmOffset (e &&& pageMask), { s with mem := store64 s.mem (table+8*index) e })

def getOrAllocTable (table index flags : ℕ) (s : Phys σ) : ℕ × Phys σ :=
  if table = 0 then (0, s)
  else if load64 s.mem (table+8*index) &&& vmmPresent = 0 then
    let r := A.palloc 1 true s
    if r.1 = 0 ∨ isPageAligned r.1 = false then (0, r.2)
    else
      let m := fill r.2.mem r.1 0 4096
      orFlags hhdmOffset table index flags
        { r.2 with mem := store64 m (table+8*index) (physical hhdmOffset r.1 ||| 0b111) }
  else orFlags hhdmOffset table index flags s

def virtToPhys (m : Mem) (pagemap virt : ℕ) : ℕ :=
  if pagemap = 0 then 0
  else
    let pml3 := getTable hhdmOffset m pagemap (pageIndex virt pml4Shift)
    if pml3 = 0 then 0
    else
      let pml2 := getTable hhdmOffset m pml3 (pageIndex virt pml3Shift)
      if pml2 = 0 then 0
      else
        let pml1 := getTable hhdmOffset m pml2 (pageIndex virt pml2Shift)
        if pml1 = 0 then 0
        else
          let e := load64 m (pml1+8*pageIndex virt pml1Shift)
          if e &&& vmmPresent = 0 then 0 else e &&& pageMask

/-- `pmnew`; `none` when it ends in a kernel panic. -/
def pmnew (kernelPagemap : ℕ) (s : Phys σ) : Option (ℕ × Phys σ) :=
  let r := A.palloc 1 true s
  if r.1 = 0 then none
  else
    let zeroed := fill r.2.mem r.1 0 4096
    let filled := if kernelPagemap = 0 then zeroed
      else copy zeroed (r.1+8*256) (fun k => zeroed (kernelPagemap+8*256+k)) (256*8)
    some (r.1, { r.2 with mem := filled })

def vmap (pagemap virt phys flags : ℕ) (s : Phys σ) : Int × Phys σ :=
  if pagemap = 0 then (-1, s)
  else
    let r3 := getOrAllocTable A hhdmOffset pagemap (pageIndex virt pml4Shift) flags s
    if r3.1 = 0 then (-1, r3.2)
    else
      let r2 := getOrAllocTable A hhdmOffset r3.1 (pageIndex virt pml3Shift) flags r3.2
      if r2.1 = 0 then (-1, r2.2)
      else
        let r1 := getOrAllocTable A hhdmOffset r2.1 (pageIndex virt pml2Shift) flags r2.2
        if r1.1 = 0 then (-1, r1.2)
        else
          (0, { r1.2 with
            mem := store64 r1.2.mem (r1.1+8*pageIndex virt pml1Shift) (phys ||| flags) })

def vunmap (pagemap virt : ℕ) (s : Phys σ) : Int × Phys σ :=
  if pagemap = 0 ∨ virt &&& (4096-1) ≠ 0 then (-1, s)
  else
    let pml3 := getTable hhdmOffset s.mem pagemap (pageIndex virt pml4Shift)
    if pml3 = 0 then (0, s)
    else
      let pml2 := getTable hhdmOffset s.mem pml3 (pageIndex virt pml3Shift)
      if pml2 = 0 then (0, s)
      else
        let pml1 := getTable hhdmOffset s.mem pml2 (pageIndex virt pml2Shift)
        if pml1 = 0 then (0, s)
        else (0, { s with mem := store64 s.mem (pml1+8*pageIndex virt pml1Shift) 0 })

end Emk.Paging
