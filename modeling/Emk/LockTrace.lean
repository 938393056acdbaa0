import Mathlib.Data.Finset.Basic

/-!
# Lock discipline of an event trace

The locks that one party holds are determined by its trace of acquisitions
and releases. A trace is disciplined when no lock is acquired while held and
none is released while not held.
-/

set_option autoImplicit false

namespace Emk.LockTrace

inductive Event (L : Type) where
  | acquire (lock : L)
  | release (lock : L)
  deriving DecidableEq, Repr

variable {L : Type} [DecidableEq L]

def after (held : Finset L) : Event L → Finset L
  | .acquire l => insert l held
  | .release l => held.erase l

def Allowed (held : Finset L) : Event L → Prop
  | .acquire l => l ∉ held
  | .release l => l ∈ held

instance decidableAllowed (held : Finset L) (e : Event L) : Decidable (Allowed held e) :=
  match e with
  | .acquire l => inferInstanceAs (Decidable (l ∉ held))
  | .release l => inferInstanceAs (Decidable (l ∈ held))

def held : Finset L → List (Event L) → Finset L
  | h, [] => h
  | h, e::es => held (after h e) es

def Disciplined : Finset L → List (Event L) → Prop
  | _, [] => True
  | h, e::es => Allowed h e ∧ Disciplined (after h e) es

instance decidableDisciplined : ∀ (h : Finset L) (es : List (Event L)), Decidable (Disciplined h es)
  | _, [] => .isTrue trivial
  | h, e::es => @instDecidableAnd _ _ _ (decidableDisciplined (after h e) es)

theorem held_append (h : Finset L) (es es' : List (Event L)) :
    held h (es ++ es') = held (held h es) es' := by
  induction es generalizing h with
  | nil => rfl
  | cons e es ih => exact ih _

theorem disciplined_append (h : Finset L) (es es' : List (Event L)) :
    Disciplined h (es ++ es') ↔ Disciplined h es ∧ Disciplined (held h es) es' := by
  induction es generalizing h with
  | nil => simp [Disciplined, held]
  | cons e es ih => simp [Disciplined, held, ih, and_assoc]

/-- A lock taken and given back. -/
theorem disciplined_pair (l : L) :
    Disciplined ∅ [Event.acquire l, .release l] ∧ held ∅ [Event.acquire l, .release l] = ∅ := by
  refine ⟨⟨Finset.notMem_empty l, Finset.mem_insert_self l ∅, trivial⟩, ?_⟩
  simp [held, after]

/-- Parts that return everything they take can follow one another. -/
theorem disciplined_flatMap {ι : Type} (f : ι → List (Event L)) (is : List ι)
    (hf : ∀ i ∈ is, Disciplined ∅ (f i) ∧ held ∅ (f i) = ∅) :
    Disciplined ∅ (is.flatMap f) ∧ held ∅ (is.flatMap f) = ∅ := by
  induction is with
  | nil => exact ⟨trivial, rfl⟩
  | cons i is ih =>
    obtain ⟨h1, h2⟩ := hf i (by simp)
    obtain ⟨h3, h4⟩ := ih (fun j hj => hf j (by simp [hj]))
    rw [List.flatMap_cons, disciplined_append, held_append, h2]
    exact ⟨⟨h1, h3⟩, h4⟩

end Emk.LockTrace
