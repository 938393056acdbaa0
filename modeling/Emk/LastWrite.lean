import Mathlib.Data.List.Basic
import Mathlib.Logic.Function.Basic

/-!
# Writes in sequence

A list of writes, each to the cell that its key names. A cell keeps what was
written to it last, so that an earlier write shows only where no later one
names the same cell.
-/

set_option autoImplicit false

namespace Emk.LastWrite

variable {α K : Type*} [DecidableEq K] (key : α → K)

/-- The last write to the cell `k`. -/
def lastWrite (k : K) : List α → Option α
  | [] => none
  | x::xs => (lastWrite k xs).or (if key x = k then some x else none)

theorem lastWrite_append (k : K) (xs ys : List α) :
    lastWrite key k (xs ++ ys) = (lastWrite key k ys).or (lastWrite key k xs) := by
  induction xs with
  | nil => rw [List.nil_append, lastWrite, Option.or_none]
  | cons x xs ih => rw [List.cons_append, lastWrite, lastWrite, ih, Option.or_assoc]

theorem lastWrite_none {k : K} {xs : List α} :
    lastWrite key k xs = none ↔ ∀ x ∈ xs, key x ≠ k := by
  induction xs with
  | nil => simp [lastWrite]
  | cons x xs ih => simp [lastWrite, Option.or_eq_none_iff, ih, and_comm]

theorem lastWrite_mem {k : K} {x : α} {xs : List α} (h : lastWrite key k xs = some x) :
    x ∈ xs ∧ key x = k := by
  induction xs with
  | nil => exact nomatch h
  | cons y xs ih =>
    rw [lastWrite, Option.or_eq_some_iff] at h
    rcases h with h | ⟨-, h⟩
    · exact ⟨List.mem_cons_of_mem _ (ih h).1, (ih h).2⟩
    · split_ifs at h with hy
      obtain rfl := Option.some.inj h
      exact ⟨List.mem_cons_self, hy⟩

/-- A later part of the list decides wherever it writes. -/
theorem lastWrite_append_some {k : K} {x : α} {xs ys : List α} :
    lastWrite key k (xs ++ ys) = some x ↔
      lastWrite key k ys = some x ∨ (∀ y ∈ ys, key y ≠ k) ∧ lastWrite key k xs = some x := by
  rw [lastWrite_append, Option.or_eq_some_iff, lastWrite_none]

/-- A cell that is written at all was written last by some member of the list. -/
theorem exists_lastWrite {k : K} {x : α} {xs : List α} (hx : x ∈ xs) (hk : key x = k) :
    ∃ y, lastWrite key k xs = some y := by
  rcases h : lastWrite key k xs with _ | y
  · exact absurd hk ((lastWrite_none key).mp h x hx)
  · exact ⟨y, rfl⟩

/-- A cell after a series of updates. -/
theorem foldl_update {V : Type*} (ws : List (K × V)) (f : K → V) (k : K) :
    ws.foldl (fun f w => Function.update f w.1 w.2) f k =
      ((lastWrite Prod.fst k ws).map Prod.snd).getD (f k) := by
  induction ws generalizing f with
  | nil => rfl
  | cons w ws ih =>
    rw [List.foldl_cons, ih, lastWrite]
    rcases lastWrite Prod.fst k ws with _ | x
    · by_cases hk : w.1 = k
      · rw [if_pos hk, ← hk, Function.update_self]
        rfl
      · rw [if_neg hk, Function.update_of_ne (Ne.symm hk)]
        rfl
    · rfl

end Emk.LastWrite
