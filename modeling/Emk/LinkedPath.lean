import Mathlib.Data.Finset.Card
import Mathlib.Data.Finset.Range

/-!
# Paths through a singly linked structure

`Path next a xs b` says that following `next` from `a` visits `xs` in this
order and then arrives at `b`. A list with a head variable is a path from a
sentinel that stands for that variable. Linking and unlinking rewrite the
last link of a prefix.
-/

set_option autoImplicit false

namespace Emk.LinkedPath

variable {α : Type*} {next next' : α → α}

def Path (next : α → α) : α → List α → α → Prop
  | a, [], b => next a = b
  | a, x::xs, b => next a = x ∧ Path next x xs b

instance decidablePath [DecidableEq α] (next : α → α) :
    ∀ (a : α) (xs : List α) (b : α), Decidable (Path next a xs b)
  | a, [], b => inferInstanceAs (Decidable (next a = b))
  | _, x::xs, b => @instDecidableAnd _ _ _ (decidablePath next x xs b)

theorem path_append {a b y : α} {xs ys : List α} :
    Path next a (xs ++ y::ys) b ↔ Path next a xs y ∧ Path next y ys b := by
  induction xs generalizing a with
  | nil => rfl
  | cons x xs ih => simp [Path, ih, and_assoc]

theorem path_congr {a b : α} {xs : List α} (h : ∀ x ∈ a::xs, next' x = next x)
    (hp : Path next a xs b) : Path next' a xs b := by
  induction xs generalizing a with
  | nil => exact (h a (by simp)).trans hp
  | cons x xs ih =>
    exact ⟨(h a (by simp)).trans hp.1, ih (fun y hy => h y (List.mem_cons_of_mem a hy)) hp.2⟩

/-- The node whose link leaves the path. -/
def tip : α → List α → α
  | a, [] => a
  | _, x::xs => tip x xs

theorem tip_mem (a : α) (xs : List α) : tip a xs ∈ a::xs := by
  induction xs generalizing a with
  | nil => simp [tip]
  | cons x xs ih => exact List.mem_cons_of_mem a (ih x)

theorem tip_append (a y : α) (xs ys : List α) : tip a (xs ++ y::ys) = tip y ys := by
  induction xs generalizing a with
  | nil => rfl
  | cons x xs ih => exact ih x

theorem path_tip {a b : α} {xs : List α} (hp : Path next a xs b) : next (tip a xs) = b := by
  induction xs generalizing a with
  | nil => exact hp
  | cons x xs ih => exact ih hp.2

/-- A path may start at another node with the same link. -/
theorem path_rehead {a a' b : α} {xs : List α} (hp : Path next a xs b) (ha : next' a' = next a)
    (h : ∀ x ∈ xs, next' x = next x) : Path next' a' xs b := by
  cases xs with
  | nil => exact ha.trans hp
  | cons x xs => exact ⟨ha.trans hp.1, path_congr h hp.2⟩

section Relink
variable {a b y y' : α} {xs ys : List α} (hn : (a::xs).Nodup)
  (hxs : ∀ x ∈ a::xs, x ≠ tip a xs → next' x = next x) (hys : ∀ x ∈ ys, next' x = next x)
include hn hxs hys

/-- Linking `y` in behind a prefix. -/
theorem path_insert (hp : Path next a (xs ++ ys) b) (ht : next' (tip a xs) = y)
    (hy : next' y = next (tip a xs)) : Path next' a (xs ++ y::ys) b := by
  induction xs generalizing a with
  | nil => exact ⟨ht, path_rehead hp hy hys⟩
  | cons x xs ih =>
    obtain ⟨hout, hnx⟩ := List.nodup_cons.mp hn
    have hne : a ≠ tip a (x::xs) := fun he => hout (he ▸ tip_mem x xs)
    refine ⟨(hxs a (by simp) hne).trans hp.1, ih hnx (fun z hz hz' => ?_) hp.2 ht hy⟩
    exact hxs z (List.mem_cons_of_mem a hz) hz'

/-- Unlinking the node behind a prefix. -/
theorem path_remove (hp : Path next a (xs ++ y::ys) b) (ht : next' (tip a xs) = next y) :
    Path next' a (xs ++ ys) b := by
  induction xs generalizing a with
  | nil => exact path_rehead hp.2 ht hys
  | cons x xs ih =>
    obtain ⟨hout, hnx⟩ := List.nodup_cons.mp hn
    have hne : a ≠ tip a (x::xs) := fun he => hout (he ▸ tip_mem x xs)
    refine ⟨(hxs a (by simp) hne).trans hp.1, ih hnx (fun z hz hz' => ?_) hp.2 ht⟩
    exact hxs z (List.mem_cons_of_mem a hz) hz'

/-- Putting another node in the place of the one behind a prefix. -/
theorem path_replace (hp : Path next a (xs ++ y::ys) b) (ht : next' (tip a xs) = y')
    (hy : next' y' = next y) : Path next' a (xs ++ y'::ys) b := by
  induction xs generalizing a with
  | nil => exact ⟨ht, path_rehead hp.2 hy hys⟩
  | cons x xs ih =>
    obtain ⟨hout, hnx⟩ := List.nodup_cons.mp hn
    have hne : a ≠ tip a (x::xs) := fun he => hout (he ▸ tip_mem x xs)
    refine ⟨(hxs a (by simp) hne).trans hp.1, ih hnx (fun z hz hz' => ?_) hp.2 ht⟩
    exact hxs z (List.mem_cons_of_mem a hz) hz'

end Relink

/-- Every node of a list points back to the one before it, the first to `a`. -/
def Back (prev : α → α) : α → List α → Prop
  | _, [] => True
  | a, x::xs => prev x = a ∧ Back prev x xs

theorem back_append {prev : α → α} {a : α} {xs ys : List α} :
    Back prev a (xs ++ ys) ↔ Back prev a xs ∧ Back prev (tip a xs) ys := by
  induction xs generalizing a with
  | nil => simp [Back, tip]
  | cons x xs ih => simp [Back, tip, ih, and_assoc]

theorem back_congr {prev prev' : α → α} {a : α} {xs : List α} (h : ∀ x ∈ xs, prev' x = prev x)
    (hb : Back prev a xs) : Back prev' a xs := by
  induction xs generalizing a with
  | nil => trivial
  | cons x xs ih =>
    exact ⟨(h x (by simp)).trans hb.1, ih (fun y hy => h y (List.mem_cons_of_mem x hy)) hb.2⟩

theorem nodup_length_le {l : List ℕ} {n : ℕ} (hn : l.Nodup) (hb : ∀ x ∈ l, x < n) :
    l.length ≤ n := by
  have hsub : l.toFinset ⊆ Finset.range n := by
    intro x hx
    exact Finset.mem_range.mpr (hb x (List.mem_toFinset.mp hx))
  calc l.length = l.toFinset.card := (List.toFinset_card_of_nodup hn).symm
    _ ≤ (Finset.range n).card := Finset.card_le_card hsub
    _ = n := Finset.card_range n

end Emk.LinkedPath
