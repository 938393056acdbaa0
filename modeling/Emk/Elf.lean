import Emk.Vmm

/-!
# Loading executables

`sys/data/elf.c`. The image is a sequence of bytes; header fields are read
little-endian at their packed offsets. Each loadable segment is rounded to
pages, backed by a contiguous run of frames, added to the context and filled
through the direct map. `none` means that the call does not return.
-/

set_option autoImplicit false

namespace Emk.Elf
open Emk.ByteMemory Emk.MachineWord Emk.DirectMap Emk.PageAllocator Emk.Vmm

def elfMagic : ℕ := 0x464C457F
def ptLoad : ℕ := 1
def pfX : ℕ := 0x1
def pfW : ℕ := 0x2

abbrev Image := ℕ → UInt8

structure ElfPheader where
  pType : ℕ
  pFlags : ℕ
  pOffset : ℕ
  pVaddr : ℕ
  pFilesz : ℕ
  pMemsz : ℕ
  deriving DecidableEq, Repr

def eMagic (data : Image) : ℕ := load data 0 4
def eClass (data : Image) : ℕ := load data 4 1
def eType (data : Image) : ℕ := load data 16 2
def eEntry (data : Image) : ℕ := load data 24 8
def ePhoff (data : Image) : ℕ := load data 32 8
def ePhnum (data : Image) : ℕ := load data 56 2

def pheader (data : Image) (i : ℕ) : ElfPheader :=
  let ph := wrap (ePhoff data+56*i)
  ⟨load data ph 4, load data (ph+4) 4, load data (ph+8) 8, load data (ph+16) 8,
    load data (ph+32) 8, load data (ph+40) 8⟩

def pheaders (data : Image) : List ElfPheader := (List.range (ePhnum data)).map (pheader data)

def segmentStart (ph : ElfPheader) : ℕ := alignDown ph.pVaddr 4096

def segmentEnd (ph : ElfPheader) : ℕ := alignUp (wrap (ph.pVaddr+ph.pMemsz)) 4096

def segmentPages (ph : ElfPheader) : ℕ := wrap (segmentEnd ph+2^64-segmentStart ph) / 4096

def segmentFlags (user : Bool) (ph : ElfPheader) : ℕ :=
  vallocRead ||| (if ph.pFlags &&& pfW ≠ 0 then vallocWrite else 0) |||
    (if ph.pFlags &&& pfX ≠ 0 then vallocExec else 0) ||| (if user then vallocUser else 0)

inductive LoadError where
  | invalidMagic
  | unsupportedClass
  | unsupportedType
  | outOfMemory
  | mappingFailed
  deriving DecidableEq, Repr

/-- Zero the frames of a segment and copy its file bytes in. -/
def fillSegment (hhdmOffset phys : ℕ) (data : Image) (ph : ElfPheader) (m : Mem) : Mem :=
  copy (fill m (higherHalf hhdmOffset phys) 0 (wrap (4096*segmentPages ph)))
    (wrap (higherHalf hhdmOffset phys+(ph.pVaddr-segmentStart ph)))
    (fun k => data (wrap (ph.pOffset+k))) ph.pFilesz

variable {σ : Type} (A : Ops σ) (hhdmOffset : ℕ) (user : Bool) (data : Image) (ctx : ℕ)

def loadSegment (ph : ElfPheader) (s : State σ) : Option (Except LoadError Unit × State σ) :=
  if ph.pType ≠ ptLoad then some (.ok (), s)
  else
    let r := A.palloc (segmentPages ph) false s.phys
    let s := { s with phys := r.2 }
    if r.1 = 0 then some (.error .outOfMemory, s)
    else (vadd A hhdmOffset ctx (segmentStart ph) r.1 (segmentPages ph)
      (segmentFlags user ph) s).map
      fun v =>
        if v.1 = 0 then
          (.error .mappingFailed, { v.2 with phys := A.pfree r.1 (segmentPages ph) v.2.phys })
        else
          (.ok (), { v.2 with phys := ⟨fillSegment hhdmOffset r.1 data ph v.2.phys.mem,
            v.2.phys.pmm⟩ })

def loadSegments : List ElfPheader → State σ → Option (Except LoadError Unit × State σ)
  | [], s => some (.ok (), s)
  | ph::phs, s => (loadSegment A hhdmOffset user data ctx ph s).bind fun r =>
      match r.1 with
      | .ok () => loadSegments phs r.2
      | .error e => some (.error e, r.2)

/-- The entry point, or the error logged before returning `0`. -/
def elfLoad (s : State σ) : Option (Except LoadError ℕ × State σ) :=
  if ctx = 0 then none
  else if eMagic data ≠ elfMagic then some (.error .invalidMagic, s)
  else if eClass data ≠ 2 then some (.error .unsupportedClass, s)
  else if eType data ≠ 2 then some (.error .unsupportedType, s)
  else (loadSegments A hhdmOffset user data ctx (pheaders data) s).map fun r =>
    (r.1.map (fun _ => eEntry data), r.2)

end Emk.Elf
