import Mathlib.Data.Set.Function
import Mathlib.Tactic.Ring
import Mathlib.Tactic.Linarith

/-!
# Byte-addressed memory with little-endian words

A memory is a total assignment of bytes to addresses. Words are read and
written little-endian, at any width. Every write names the exact range it
touches, so a reader outside that range is answered by the older memory.
-/

set_option autoImplicit false

namespace Emk.ByteMemory

abbrev Mem := ℕ → UInt8

def load (m : Mem) (a : ℕ) : ℕ → ℕ
  | 0 => 0
  | n+1 => (m a).toNat + 256*load m (a+1) n

def store (m : Mem) (a n v : ℕ) : Mem :=
  fun x => if a ≤ x ∧ x < a+n then UInt8.ofNat (v / 256^(x-a)) else m x

def fill (m : Mem) (a : ℕ) (c : UInt8) (n : ℕ) : Mem :=
  fun x => if a ≤ x ∧ x < a+n then c else m x

/-- The bytes written need not come from the memory written to. -/
def copy (m : Mem) (a : ℕ) (source : ℕ → UInt8) (n : ℕ) : Mem :=
  fun x => if a ≤ x ∧ x < a+n then source (x-a) else m x

abbrev load64 (m : Mem) (a : ℕ) : ℕ := load m a 8

abbrev store64 (m : Mem) (a v : ℕ) : Mem := store m a 8 v

def Range (a n : ℕ) : Set ℕ := {x | a ≤ x ∧ x < a+n}

@[simp] theorem mem_range (a n x : ℕ) : x ∈ Range a n ↔ a ≤ x ∧ x < a+n := Iff.rfl

theorem store_outside (m : Mem) (a n v x : ℕ) (h : x ∉ Range a n) : store m a n v x = m x :=
  if_neg h

theorem fill_outside (m : Mem) (a n x : ℕ) (c : UInt8) (h : x ∉ Range a n) :
    fill m a c n x = m x := if_neg h

theorem fill_inside (m : Mem) (a n x : ℕ) (c : UInt8) (h : x ∈ Range a n) :
    fill m a c n x = c := if_pos h

theorem copy_outside (m : Mem) (a n x : ℕ) (source : ℕ → UInt8) (h : x ∉ Range a n) :
    copy m a source n x = m x := if_neg h

theorem copy_inside (m : Mem) (a n x : ℕ) (source : ℕ → UInt8) (h : x ∈ Range a n) :
    copy m a source n x = source (x-a) := if_pos h

theorem copy_none (m : Mem) (a : ℕ) (source : ℕ → UInt8) : copy m a source 0 = m := by
  funext x
  exact copy_outside m a 0 x source (by rw [mem_range]; omega)

theorem copy_join (m : Mem) (a j k : ℕ) (source : ℕ → UInt8) :
    copy (copy m a source j) (a+j) (fun i => source (j+i)) k = copy m a source (j+k) := by
  funext x
  by_cases hlow : x ∈ Range a j
  · rw [mem_range] at hlow
    rw [copy_outside _ _ _ _ _ (by rw [mem_range]; omega), copy_inside _ _ _ _ _ hlow,
      copy_inside _ _ _ _ _ (by rw [mem_range]; omega)]
  · by_cases hhigh : x ∈ Range (a+j) k
    · rw [copy_inside _ _ _ _ _ hhigh]
      rw [mem_range] at hhigh
      rw [copy_inside _ _ _ _ _ (by rw [mem_range]; omega)]
      congr 1
      omega
    · rw [copy_outside _ _ _ _ _ hhigh, copy_outside _ _ _ _ _ hlow, copy_outside]
      rw [mem_range] at hlow hhigh ⊢
      omega

/-- The second part may be copied before the first. -/
theorem copy_join_front (m : Mem) (a j k : ℕ) (source : ℕ → UInt8) :
    copy (copy m (a+j) (fun i => source (j+i)) k) a source j = copy m a source (j+k) := by
  rw [← copy_join]
  funext x
  by_cases hlow : x ∈ Range a j
  · have hhigh : x ∉ Range (a+j) k := by
      rw [mem_range] at hlow ⊢
      omega
    rw [copy_inside _ _ _ _ _ hlow, copy_outside _ _ _ _ _ hhigh, copy_inside _ _ _ _ _ hlow]
  · rw [copy_outside _ _ _ _ _ hlow]
    by_cases hhigh : x ∈ Range (a+j) k
    · rw [copy_inside _ _ _ _ _ hhigh, copy_inside _ _ _ _ _ hhigh]
    · rw [copy_outside _ _ _ _ _ hhigh, copy_outside _ _ _ _ _ hhigh,
        copy_outside _ _ _ _ _ hlow]

theorem copy_one (m : Mem) (a : ℕ) (source : ℕ → UInt8) :
    copy m a source 1 = fill m a (source 0) 1 := by
  funext x
  by_cases hx : x ∈ Range a 1
  · rw [copy_inside _ _ _ _ _ hx, fill_inside _ _ _ _ _ hx]
    rw [mem_range] at hx
    rw [show x-a = 0 by omega]
  · rw [copy_outside _ _ _ _ _ hx, fill_outside _ _ _ _ _ hx]

theorem copy_self (m : Mem) (a n : ℕ) : copy m a (fun i => m (a+i)) n = m := by
  funext x
  by_cases hx : x ∈ Range a n
  · rw [copy_inside _ _ _ _ _ hx, Nat.add_sub_cancel' hx.1]
  · exact copy_outside _ _ _ _ _ hx

theorem load_congr (m m' : Mem) (a n : ℕ) (h : Set.EqOn m m' (Range a n)) :
    load m a n = load m' a n := by
  induction n generalizing a with
  | zero => rfl
  | succ n ih =>
    have h0 : m a = m' a := h (by simp)
    rw [load, load, h0, ih (a+1) (fun x hx => h (by simp only [mem_range] at *; omega))]

theorem load_move (m m' : Mem) (a b n : ℕ) (h : ∀ k < n, m (a+k) = m' (b+k)) :
    load m a n = load m' b n := by
  induction n generalizing a b with
  | zero => rfl
  | succ n ih =>
    have h0 : m a = m' b := h 0 (by omega)
    have hs := ih (a+1) (b+1) (fun k hk => by
      have := h (k+1) (by omega)
      rwa [show a+1+k = a+(k+1) by omega, show b+1+k = b+(k+1) by omega])
    rw [load, load, h0, hs]

theorem load_lt (m : Mem) (a n : ℕ) : load m a n < 256^n := by
  induction n generalizing a with
  | zero => simp [load]
  | succ n ih =>
    have hb := (m a).toNat_lt
    have ht := ih (a+1)
    rw [load, pow_succ]
    omega

/-- A word with all bits set is made of bytes with all bits set. -/
theorem load_full (m : Mem) (a n : ℕ) (h : load m a n+1 = 256^n) (k : ℕ) (hk : k < n) :
    (m (a+k)).toNat = 255 := by
  induction n generalizing a k with
  | zero => omega
  | succ n ih =>
    have hb := (m a).toNat_lt
    have ht := load_lt m (a+1) n
    rw [load, pow_succ] at h
    cases k with
    | zero =>
      rw [Nat.add_zero]
      omega
    | succ k =>
      rw [show a+(k+1) = a+1+k by omega]
      exact ih (a+1) (by omega) k (by omega)

theorem load64_lt (m : Mem) (a : ℕ) : load64 m a < 2^64 := load_lt m a 8

/-- Any memory that carries the bytes of `v` at `a` reads back `v`. -/
theorem load_bytes (m : Mem) (a n v : ℕ)
    (h : ∀ k < n, m (a+k) = UInt8.ofNat (v / 256^k)) : load m a n = v % 256^n := by
  induction n generalizing a v with
  | zero => simp [load, Nat.mod_one]
  | succ n ih =>
    have h0 := h 0 (by omega)
    have hs := ih (a+1) (v/256) (fun k hk => by
      have hk' := h (k+1) (by omega)
      rw [show a+1+k = a+(k+1) by omega, hk', Nat.div_div_eq_div_mul, ← pow_succ'])
    simp only [pow_zero, Nat.div_one, Nat.add_zero] at h0
    rw [load, h0, hs, pow_succ', Nat.mod_mul]
    simp

theorem load_store (m : Mem) (a n v : ℕ) : load (store m a n v) a n = v % 256^n := by
  apply load_bytes
  intro k hk
  simp [store, hk]

theorem load_store64 (m : Mem) (a v : ℕ) (h : v < 2^64) :
    load64 (store64 m a v) a = v :=
  (load_store m a 8 v).trans (Nat.mod_eq_of_lt h)

theorem load_store_apart (m : Mem) (a n v b k : ℕ) (h : b+k ≤ a ∨ a+n ≤ b) :
    load (store m a n v) b k = load m b k := by
  apply load_congr
  intro x hx
  apply store_outside
  simp only [mem_range] at *
  omega

theorem load_fill_apart (m : Mem) (a n b k : ℕ) (c : UInt8) (h : b+k ≤ a ∨ a+n ≤ b) :
    load (fill m a c n) b k = load m b k := by
  apply load_congr
  intro x hx
  apply fill_outside
  simp only [mem_range] at *
  omega

theorem load_zero (m : Mem) (a n : ℕ) (h : ∀ x ∈ Range a n, m x = 0) : load m a n = 0 := by
  have hb := load_bytes m a n 0 (fun k hk => by simpa using h (a+k) (by simp; omega))
  simpa using hb

end Emk.ByteMemory
