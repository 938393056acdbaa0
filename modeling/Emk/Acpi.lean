import Emk.DirectMap
import Emk.ReadLog

/-!
# Looking up a system description table

`acpi_find_table` of `sys/acpi.c`. The root table, whose entries are four or
eight bytes wide, lists physical addresses of tables; the first one with the
signature asked for is returned, or `NULL`.
-/

set_option autoImplicit false

namespace Emk.Acpi
open Emk.ByteMemory Emk.MachineWord Emk.DirectMap Emk.Calls Emk.ReadLog

/-- What `acpi_init` found. -/
structure AcpiState where
  usesXsdt : Bool
  rsdtPtr : ℕ

/-- The size of `acpi_sdt_header_t`, and the place of `length` in it. -/
def sdtHeaderSize : ℕ := 36
def sdtLength : ℕ := 4

variable {G : Type} (m : Mem) (hhdmOffset : ℕ)

/-- `memcmp` finds no difference. -/
def sameBytes : ℕ → List UInt8 → Call (Scan G) Bool
  | _, [] => pure true
  | a, c::cs => do
    let b ← peek m a 1
    if b ≠ c.toNat then pure false else sameBytes (a+1) cs

/-- The entries from `i` on. -/
def findLoop (table width : ℕ) (name : List UInt8) : ℕ → ℕ → Call (Scan G) ℕ
  | 0, _ => pure 0
  | n+1, i => do
    let entry ← peek m (table+width*i) width
    let sdt := higherHalf hhdmOffset entry
    let found ← sameBytes m sdt name
    if found then pure sdt else findLoop table width name n (i+1)

def acpiFindTable (acpi : AcpiState) (name : List UInt8) : Call (Scan G) ℕ := do
  let width := if acpi.usesXsdt then 8 else 4
  let length ← peek m (acpi.rsdtPtr+sdtLength) 4
  let entries := wrap (length+(2^64-sdtHeaderSize)) / width % 2^32
  findLoop m hhdmOffset (acpi.rsdtPtr+sdtHeaderSize) width name entries 0

variable {m hhdmOffset}

theorem sameBytes_reads (a : ℕ) (cs : List UInt8) :
    OnlyReads (sameBytes m a cs : Call (Scan G) Bool) := by
  induction cs generalizing a with
  | nil => exact onlyReads_pure true
  | cons c cs ih =>
    refine (onlyReads_peek m a 1).bind (fun b => ?_)
    split_ifs
    · exact onlyReads_pure false
    · exact ih (a+1)

theorem findLoop_reads (table width : ℕ) (name : List UInt8) (n i : ℕ) :
    OnlyReads (findLoop m hhdmOffset table width name n i : Call (Scan G) ℕ) := by
  induction n generalizing i with
  | zero => exact onlyReads_pure 0
  | succ n ih =>
    refine (onlyReads_peek _ _ _).bind (fun entry => (sameBytes_reads _ _).bind (fun found => ?_))
    split_ifs
    · exact onlyReads_pure _
    · exact ih (i+1)

theorem acpiFindTable_reads (acpi : AcpiState) (name : List UInt8) :
    OnlyReads (acpiFindTable m hhdmOffset acpi name : Call (Scan G) ℕ) :=
  (onlyReads_peek _ _ _).bind (fun _ => findLoop_reads _ _ _ _ _)

end Emk.Acpi
