import Mathlib.Logic.Basic

/-!
# Who is inside a test-and-set lock

A lock is a bit that parties set and test in one step. The bit is set exactly
while one party is inside.
-/

set_option autoImplicit false

namespace Emk.SpinLock

variable {P : Type*}

structure Guarded (inside : P → Prop) (locked : Bool) : Prop where
  held : locked = true ↔ ∃ p, inside p
  alone : ∀ p q, inside p → inside q → p = q

variable {inside inside' : P → Prop} {locked : Bool} {p q : P}

theorem Guarded.congr (h : Guarded inside locked) (hin : ∀ p, inside' p ↔ inside p) :
    Guarded inside' locked := by
  rwa [show inside' = inside from funext fun p => propext (hin p)]

theorem Guarded.free (h : Guarded inside false) (p : P) : ¬ inside p :=
  fun hp => absurd (h.held.mpr ⟨p, hp⟩) (by simp)

theorem Guarded.locked_of (h : Guarded inside locked) (hp : inside p) : locked = true :=
  h.held.mpr ⟨p, hp⟩

/-- A party that finds the bit clear goes in. -/
theorem Guarded.enter (h : Guarded inside false) (hin : ∀ q, inside' q ↔ inside q ∨ q = p) :
    Guarded inside' true := by
  have honly : ∀ q, inside' q → q = p := fun q hq => ((hin q).mp hq).resolve_left (h.free q)
  refine ⟨⟨fun _ => ⟨p, (hin p).mpr (.inr rfl)⟩, fun _ => rfl⟩, fun q r hq hr => ?_⟩
  rw [honly q hq, honly r hr]

/-- The party inside clears the bit. -/
theorem Guarded.leave (h : Guarded inside locked) (hp : inside p)
    (hin : ∀ q, inside' q ↔ inside q ∧ q ≠ p) : Guarded inside' false := by
  have hnone : ∀ q, ¬ inside' q := by
    intro q hq
    obtain ⟨hold, hne⟩ := (hin q).mp hq
    exact hne (h.alone q p hold hp)
  exact ⟨⟨fun he => absurd he (by simp), fun ⟨q, hq⟩ => absurd hq (hnone q)⟩,
    fun q r hq _ => absurd hq (hnone q)⟩

end Emk.SpinLock
