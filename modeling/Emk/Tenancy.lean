import Mathlib.Data.Set.Basic

/-!
# Tenants and the rooms they hold

Tenants hold rooms out of those that are let. Each room has one tenant, and
no tenant holds a room that the house itself uses. Letting a vacant room and
vacating one keep this order.
-/

set_option autoImplicit false

namespace Emk.Tenancy

variable {T R : Type}

structure Tidy (holds : T → R → Prop) (rented house : Set R) : Prop where
  rented : ∀ t r, holds t r → r ∈ rented
  apart : ∀ t r, holds t r → r ∉ house
  single : ∀ t u r, holds t r → holds u r → t = u

variable {holds holds' : T → R → Prop} {rented rented' house house' : Set R}

/-- The house takes at most rooms that were vacant, and nobody moves in. -/
theorem Tidy.shrink (h : Tidy holds rented house) (hsub : ∀ t r, holds' t r → holds t r)
    (hrented : ∀ t r, holds' t r → r ∈ rented') (hhouse : ∀ r ∈ house', r ∈ rented → r ∈ house) :
    Tidy holds' rented' house' where
  rented := hrented
  apart := fun t r hr hin =>
    h.apart t r (hsub t r hr) (hhouse r hin (h.rented t r (hsub t r hr)))
  single := fun t u r ht hu => h.single t u r (hsub t r ht) (hsub u r hu)

/-- One tenant moves into a room that was vacant. -/
theorem Tidy.admit (h : Tidy holds rented house) (t₀ : T) (r₀ : R)
    (hsub : ∀ t r, holds' t r → holds t r ∨ (t = t₀ ∧ r = r₀)) (hvacant : r₀ ∉ rented)
    (hrented : rented ⊆ rented') (hlet : r₀ ∈ rented') (hout : r₀ ∉ house')
    (hhouse : ∀ r ∈ house', r ∈ rented → r ∈ house) : Tidy holds' rented' house' where
  rented := by
    intro t r hr
    rcases hsub t r hr with hold | ⟨-, rfl⟩
    · exact hrented (h.rented t r hold)
    · exact hlet
  apart := by
    intro t r hr hin
    rcases hsub t r hr with hold | ⟨-, rfl⟩
    · exact h.apart t r hold (hhouse r hin (h.rented t r hold))
    · exact hout hin
  single := by
    intro t u r ht hu
    rcases hsub t r ht with ht | ⟨rfl, rfl⟩
    · rcases hsub u r hu with hu | ⟨-, rfl⟩
      · exact h.single t u r ht hu
      · exact absurd (h.rented t r ht) hvacant
    · rcases hsub u r hu with hu | ⟨rfl, -⟩
      · exact absurd (h.rented u r hu) hvacant
      · rfl

/-- One tenant leaves, and its room is no longer let. -/
theorem Tidy.vacate (h : Tidy holds rented house) {t₀ : T} {r₀ : R} (hold : holds t₀ r₀)
    (hsub : ∀ t r, holds' t r → holds t r ∧ t ≠ t₀) (hrented : rented \ {r₀} ⊆ rented')
    (hhouse : ∀ r ∈ house', r ∈ rented → r ∈ house) : Tidy holds' rented' house' := by
  apply h.shrink (fun t r hr => (hsub t r hr).1) _ hhouse
  intro t r hr
  obtain ⟨hr, hne⟩ := hsub t r hr
  apply hrented
  refine ⟨h.rented t r hr, ?_⟩
  rintro rfl
  exact hne (h.single t t₀ r hr hold)

end Emk.Tenancy
