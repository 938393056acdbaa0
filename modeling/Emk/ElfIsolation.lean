import Emk.ElfFaithful
import Emk.PagingShare

/-!
# What a loaded image can change in the kernel's page map

A process page map shares the kernel's tables below the upper-half slots that
were present when it was made. Loading leaves every translation of the kernel
alone as long as no segment reaches a shared slot and the file bytes of each
segment stay inside its pages.
-/

set_option autoImplicit false

namespace Emk.Elf
open Emk.ByteMemory Emk.MachineWord Emk.DirectMap Emk.PageAllocator Emk.Paging Emk.Vmm
open Emk.PagingForest Emk.LinkedPath Emk.ReferenceAllocator

variable {σ : Type} {D : Layout} {A : Ops σ} {R : RunContract D A} {roots : Set ℕ}
  {shared : Set (Fin 512)} {user : Bool} {data : Image} {ctx pm K : ℕ}

end Emk.Elf
