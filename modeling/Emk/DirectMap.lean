import Emk.ByteMemory
import Emk.MachineWord

/-!
# Page rounding and the higher-half direct map

The rounding macros of `util/align.h` and the pointer macros of
`boot/emk.h`. Pages have 4096 bytes. The kernel reaches physical memory
only through the direct map, so memory is addressed by direct-map pointers
and the physical frame `p` occupies the bytes from `hhdmOffset+p`.
-/

set_option autoImplicit false

namespace Emk.DirectMap
open Emk.ByteMemory Emk.MachineWord

def divRoundUp (x y : ℕ) : ℕ := wrap (x+(y-1)) / y

def alignUp (x y : ℕ) : ℕ := wrap (divRoundUp x y*y)

def alignDown (x y : ℕ) : ℕ := x / y*y

def isPageAligned (x : ℕ) : Bool := x &&& (4096-1) == 0

theorem isPageAligned_iff (x : ℕ) : isPageAligned x = true ↔ x % 4096 = 0 := by
  rw [isPageAligned, beq_iff_eq, show (4096-1 : ℕ) = 2^12-1 by rfl,
    Nat.and_two_pow_sub_one_eq_mod]

def higherHalf (hhdmOffset ptr : ℕ) : ℕ :=
  if ptr < hhdmOffset then wrap (ptr+hhdmOffset) else ptr

def physical (hhdmOffset ptr : ℕ) : ℕ :=
  if ptr ≥ hhdmOffset then ptr-hhdmOffset else ptr

/-- The boot loader's direct map: every physical address lies below the
offset, below the 52 address bits of a page-table entry, and has a 64-bit
higher-half pointer. -/
structure Layout where
  hhdmOffset : ℕ
  top : ℕ
  top_le_offset : top ≤ hhdmOffset
  top_le_address : top ≤ 2^52
  pointer_fits : hhdmOffset+top ≤ 2^64
  offset_aligned : hhdmOffset % 4096 = 0

theorem limine_offset_aligned : 0xffff800000000000 % 4096 = 0 := by decide

variable (D : Layout)

theorem higherHalf_frame (p : ℕ) (h : p < D.top) :
    higherHalf D.hhdmOffset p = D.hhdmOffset+p := by
  have ho := D.top_le_offset
  have hp := D.pointer_fits
  rw [higherHalf, if_pos (by omega), wrap_of_lt (by omega), Nat.add_comm]

theorem physical_pointer (p : ℕ) : physical D.hhdmOffset (D.hhdmOffset+p) = p := by
  rw [physical, if_pos (by omega), Nat.add_sub_cancel_left]

theorem physical_frame (p : ℕ) (h : p < D.top) : physical D.hhdmOffset p = p := by
  have ho := D.top_le_offset
  rw [physical, if_neg (by omega)]

/-- The bytes of the frame at physical address `p`. -/
def frame (p : ℕ) : Set ℕ := Range (D.hhdmOffset+p) 4096

def frames (ps : Set ℕ) : Set ℕ := {a | ∃ p ∈ ps, a ∈ frame D p}

theorem frames_mono {ps qs : Set ℕ} (h : ps ⊆ qs) : frames D ps ⊆ frames D qs :=
  fun _ ⟨p, hp, ha⟩ => ⟨p, h hp, ha⟩

/-- Distinct page-aligned frames share no byte. -/
theorem frame_unique {p q a : ℕ} (hp : p % 4096 = 0) (hq : q % 4096 = 0)
    (ha : a ∈ frame D p) (hb : a ∈ frame D q) : p = q := by
  simp only [frame, mem_range] at ha hb
  omega

end Emk.DirectMap
