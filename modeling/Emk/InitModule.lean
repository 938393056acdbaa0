import Emk.CommandLine
import Mathlib.Data.Nat.Digits.Lemmas

/-!
# The init module

`atoi` of `lib/ctype.c` and the choice of the init module in `emk_entry`. The
value of the option `init` is read as a decimal number; an index that no module
has stands for module 0.
-/

set_option autoImplicit false

namespace Emk.InitModule
open Emk.ByteMemory Emk.MachineWord Emk.FirstFitHeap Emk.Calls Emk.ReadLog Emk.StringLib
open Emk.HeapBlocks Emk.HeapRuns Emk.Tokens Emk.Transition Emk.CommandLine

section Numbers
variable {cs ds : List UInt8}

end Numbers

section Reading
variable {m : Mem} {R : Set ℕ} {a r : ℕ} {cs ds rest : List UInt8}

/-- A number as an `int` holds it. -/
def bounded (n : ℕ) : Call (Scan Mem) ℕ := if n < 2^31 then pure n else never

end Reading

section Choosing
variable {w : World} {lo hi cmdline key moduleCount : ℕ} {cs ks : List UInt8}

end Choosing

end Emk.InitModule
