import Mathlib.Data.Nat.Bitwise
import Mathlib.Tactic.Ring
import Mathlib.Tactic.Linarith

/-!
# Bit fields of machine words

Machine words are natural numbers. A field of a word is isolated with a
shifted mask; flags or-ed in outside the field do not change what the mask
returns, and a value that lives inside the field is returned unchanged.
-/

set_option autoImplicit false

namespace Emk.MachineWord

/-- Unsigned 64-bit arithmetic. -/
def wrap (n : ℕ) : ℕ := n % 2^64

theorem wrap_of_lt {n : ℕ} (h : n < 2^64) : wrap n = n := Nat.mod_eq_of_lt h

theorem wrap_lt (n : ℕ) : wrap n < 2^64 := Nat.mod_lt _ (by decide)

def fieldMask (k n : ℕ) : ℕ := (2^n-1) <<< k

theorem testBit_fieldMask (k n i : ℕ) :
    (fieldMask k n).testBit i = (decide (k ≤ i) && decide (i < k+n)) := by
  rw [fieldMask, Nat.testBit_shiftLeft, Nat.testBit_two_pow_sub_one]
  by_cases h : k ≤ i
  · simp only [h, decide_true, Bool.true_and, decide_eq_decide]
    omega
  · simp [h]

theorem and_fieldMask (x k n : ℕ) : x &&& fieldMask k n = x / 2^k % 2^n * 2^k := by
  apply Nat.eq_of_testBit_eq
  intro i
  rw [Nat.testBit_and, testBit_fieldMask, ← Nat.shiftLeft_eq, Nat.testBit_shiftLeft,
    Nat.testBit_mod_two_pow, Nat.testBit_div_two_pow]
  by_cases h : k ≤ i
  · have hi : decide (i < k+n) = decide (i-k < n) := by
      rw [decide_eq_decide]
      omega
    simp only [h, decide_true, Bool.true_and, Nat.sub_add_cancel h, hi, Bool.and_comm]
  · simp [h]

theorem and_fieldMask_self (x k n : ℕ) (ha : x % 2^k = 0) (hb : x < 2^(k+n)) :
    x &&& fieldMask k n = x := by
  have hd : x / 2^k < 2^n := by
    apply Nat.div_lt_of_lt_mul
    rwa [← pow_add]
  rw [and_fieldMask, Nat.mod_eq_of_lt hd]
  exact Nat.div_mul_cancel (Nat.dvd_of_mod_eq_zero ha)

/-- Flags that avoid the field can be or-ed into a word without changing it. -/
theorem or_and_fieldMask (x f mask : ℕ) (h : f &&& mask = 0) :
    (x ||| f) &&& mask = x &&& mask := by
  rw [Nat.and_or_distrib_right, h, Nat.or_zero]

theorem and_eq_zero_of_subset (f g mask : ℕ) (hf : f &&& g = f) (hg : g &&& mask = 0) :
    f &&& mask = 0 := by
  rw [← hf, Nat.and_assoc, hg, Nat.and_zero]

theorem or_one_bit (x f b : ℕ) (h : f &&& b ≠ 0) : (x ||| f) &&& b ≠ 0 := by
  intro hz
  rw [Nat.and_or_distrib_right] at hz
  exact h (Nat.or_eq_zero_iff.mp hz).2

end Emk.MachineWord
