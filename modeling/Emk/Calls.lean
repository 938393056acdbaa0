import Mathlib.Data.List.Basic

/-!
# Calls that may not return

A call acts on a state and either returns a value or never returns. What it
did to the state before is visible in both cases, so that laws about a log
kept in the state cover calls that end in a panic or in an endless loop.
-/

set_option autoImplicit false

namespace Emk.Calls

def Call (S α : Type) : Type := S → Option α × S

section Monad
variable {S α β : Type}

def Call.bind (m : Call S α) (f : α → Call S β) : Call S β := fun s =>
  match m s with
  | (some a, s') => f a s'
  | (none, s') => (none, s')

instance instMonadCall : Monad (Call S) where
  pure a := fun s => (some a, s)
  bind := Call.bind

def observe (f : S → α) : Call S α := fun s => (some (f s), s)

def update (g : S → S) : Call S Unit := fun s => (some (), g s)

def never : Call S α := fun s => (none, s)

/-- An operation that fails when it does not return. -/
def attempt (f : S → Option (α × S)) : Call S α := fun s =>
  match f s with
  | some (a, s') => (some a, s')
  | none => (none, s)

theorem pure_apply (a : α) (s : S) : (pure a : Call S α) s = (some a, s) := rfl

theorem bind_apply (m : Call S α) (f : α → Call S β) (s : S) :
    (m >>= f) s = match m s with
      | (some a, s') => f a s'
      | (none, s') => (none, s') := rfl

theorem observe_bind (g : S → α) (f : α → Call S β) (s : S) :
    (observe g >>= f) s = f (g s) s := rfl

theorem update_bind (g : S → S) (f : Unit → Call S β) (s : S) :
    (update g >>= f) s = f () (g s) := rfl

theorem bind_assoc_apply {γ : Type} (m : Call S α) (f : α → Call S β) (g : β → Call S γ) (s : S) :
    ((m >>= f) >>= g) s = (m >>= fun a => f a >>= g) s := by
  rw [bind_apply, bind_apply, bind_apply]
  rcases m s with ⟨_ | a, s'⟩ <;> rfl

theorem bind_pure_apply (m : Call S α) (f : α → β) (s : S) :
    (m >>= fun a => pure (f a)) s = ((m s).1.map f, (m s).2) := by
  rw [bind_apply]
  rcases m s with ⟨_ | a, s'⟩ <;> rfl

/-- Two continuations that agree on what the call returns. -/
theorem bind_congr_returned {m : Call S α} {f g : α → Call S β} {s : S}
    (h : ∀ a s', m s = (some a, s') → f a s' = g a s') : (m >>= f) s = (m >>= g) s := by
  rw [bind_apply, bind_apply]
  rcases hm : m s with ⟨_ | a, s'⟩
  · rfl
  · exact h a s' hm

theorem bind_of_returned {m : Call S α} {f : α → Call S β} {s s' : S} {a : α}
    (h : m s = (some a, s')) : (m >>= f) s = f a s' := by
  rw [bind_apply, h]

theorem bind_of_never {m : Call S α} {f : α → Call S β} {s s' : S}
    (h : m s = (none, s')) : (m >>= f) s = (none, s') := by
  rw [bind_apply, h]

theorem bind_of_fst_some {m : Call S α} {f : α → Call S β} {s : S} {a : α}
    (h : (m s).1 = some a) : (m >>= f) s = f a (m s).2 :=
  bind_of_returned (Prod.ext h rfl)

theorem bind_of_fst_none {m : Call S α} {f : α → Call S β} {s : S}
    (h : (m s).1 = none) : (m >>= f) s = (none, (m s).2) :=
  bind_of_never (Prod.ext h rfl)

theorem bind_returned {m : Call S α} {f : α → Call S β} {s s' : S} {b : β}
    (h : (m >>= f) s = (some b, s')) :
    ∃ a s₁, m s = (some a, s₁) ∧ f a s₁ = (some b, s') := by
  rw [bind_apply] at h
  rcases hm : m s with ⟨_ | a, s₁⟩
  · rw [hm] at h
    exact absurd (Prod.mk.inj h).1 (by simp)
  · rw [hm] at h
    exact ⟨a, s₁, rfl, h⟩

theorem attempt_returned {f : S → Option (α × S)} {s s' : S} {a : α}
    (h : attempt f s = (some a, s')) : f s = some (a, s') := by
  rw [attempt] at h
  rcases hf : f s with _ | ⟨b, s₁⟩
  · rw [hf] at h
    exact absurd (Prod.mk.inj h).1 (by simp)
  · rw [hf] at h
    obtain ⟨h1, h2⟩ := Prod.mk.inj h
    rw [Option.some.inj h1, h2]

end Monad

section Posts
variable {S α β : Type}

/-- A relation between the state before a call, its result and the state after. -/
def Meets (m : Call S α) (Q : S → Option α → S → Prop) : Prop := ∀ s, Q s (m s).1 (m s).2

theorem Meets.bind {m : Call S α} {f : α → Call S β} {Q : S → Option α → S → Prop}
    {R : S → Option β → S → Prop} (hm : Meets m Q)
    (hret : ∀ s s₁ a b s₂, Q s (some a) s₁ → f a s₁ = (b, s₂) → R s b s₂)
    (hnone : ∀ s s₁, Q s none s₁ → R s none s₁) : Meets (m >>= f) R := by
  intro s
  have h := hm s
  rw [bind_apply]
  rcases hms : m s with ⟨_ | a, s₁⟩
  · rw [hms] at h
    exact hnone s s₁ h
  · rw [hms] at h
    exact hret s s₁ a _ _ h rfl

end Posts

section Logs
variable {S T E α β : Type} (view : S → T) (log : S → List E)

/-- The call leaves this part of the state alone. -/
def Silent (m : Call S α) : Prop := Meets m (fun s _ s' => view s' = view s)

/-- The call writes exactly one entry, unless it gets stuck before. -/
def Ends (e : E) (m : Call S α) : Prop :=
  Meets m (fun s r s' => log s' = log s ++ [e] ∨ (r = none ∧ log s' = log s))

variable {view log}

theorem Silent.bind {m : Call S α} {f : α → Call S β} (hm : Silent view m)
    (hf : ∀ a, Silent view (f a)) : Silent view (m >>= f) :=
  Meets.bind hm
    (fun _ s₁ a _ _ h hfa => by
      have := hf a s₁
      rw [hfa] at this
      exact this.trans h)
    (fun _ _ h => h)

theorem Silent.ite {p : Prop} [Decidable p] {m m' : Call S α} (h : Silent view m)
    (h' : Silent view m') : Silent view (if p then m else m') := by
  split_ifs
  · exact h
  · exact h'

theorem Ends.bind {e : E} {m : Call S α} {f : α → Call S β} (hm : Silent log m)
    (hf : ∀ a, Ends log e (f a)) : Ends log e (m >>= f) :=
  Meets.bind hm
    (fun _ s₁ a _ _ h hfa => by
      have := hf a s₁
      rw [hfa, h] at this
      exact this)
    (fun _ _ h => .inr ⟨rfl, h⟩)

/-- The entry is written first; what follows writes nothing. -/
theorem Ends.first {e : E} {m : Call S α} {f : α → Call S β}
    (hm : ∀ s, ∃ a, (m s).1 = some a ∧ log (m s).2 = log s ++ [e])
    (hf : ∀ a, Silent log (f a)) : Ends log e (m >>= f) :=
  Meets.bind (Q := fun s r s' => (∃ a, r = some a) ∧ log s' = log s ++ [e])
    (fun s => by
      obtain ⟨a, ha, hl⟩ := hm s
      exact ⟨⟨a, ha⟩, hl⟩)
    (fun _ s₁ a _ _ h hfa => by
      have := hf a s₁
      rw [hfa] at this
      exact .inl (this.trans h.2))
    (fun _ _ h => absurd h.1 (by simp))

theorem Ends.before {e : E} {m : Call S α} {f : α → Call S β} (hm : Ends log e m)
    (hf : ∀ a, Silent log (f a)) : Ends log e (m >>= f) :=
  Meets.bind hm
    (fun _ s₁ a _ _ h hfa => by
      have := hf a s₁
      rw [hfa] at this
      rcases h with h | ⟨h, -⟩
      · exact .inl (this.trans h)
      · exact absurd h (by simp))
    (fun _ _ h => h.imp_right (fun h => ⟨rfl, h.2⟩))

theorem Ends.ite {e : E} {p : Prop} [Decidable p] {m m' : Call S α} (h : Ends log e m)
    (h' : Ends log e m') : Ends log e (if p then m else m') := by
  split_ifs
  · exact h
  · exact h'

theorem silent_pure (a : α) : Silent view (pure a : Call S α) := fun _ => rfl

theorem silent_observe (f : S → α) : Silent view (observe f) := fun _ => rfl

theorem silent_never : Silent view (never : Call S α) := fun _ => rfl

theorem silent_update {g : S → S} (h : ∀ s, view (g s) = view s) : Silent view (update g) := h

theorem silent_attempt {f : S → Option (α × S)} (h : ∀ s a s', f s = some (a, s') →
    view s' = view s) :
    Silent view (attempt f) := by
  intro s
  rw [attempt]
  rcases hf : f s with _ | ⟨a, s'⟩
  · rfl
  · exact h s a s' hf

end Logs

end Emk.Calls
