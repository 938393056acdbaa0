import Emk.ElfFaithful

/-!
# Where `elf_load` writes

A segment is zeroed over the pages that were allocated for it, and its file
bytes are copied from an offset inside the first page on. The number of pages
comes from the size in memory, the number of bytes from the size in the file,
and nothing compares the two.
-/

set_option autoImplicit false

namespace Emk.Elf
open Emk.ByteMemory Emk.MachineWord Emk.DirectMap Emk.PageAllocator Emk.Paging Emk.Vmm
open Emk.PagingForest Emk.ReferenceAllocator

variable {σ : Type}

variable {D : Layout} {A : Ops σ} {R : RunContract D A} {roots : Set ℕ} {shared : Set (Fin 512)}
  {ctx pm : ℕ} {user : Bool} {data : Image}

end Emk.Elf
