import Mathlib.Data.List.Basic

/-!
# Runs of a deterministic machine

A machine is a step function from states and operations to states. `Along`
says that every operation of a run is issued in a state that meets a
condition. The two rules reduce a law about whole runs to one step.
-/

set_option autoImplicit false

namespace Emk.Transition

variable {S O : Type*} (step : S → O → S)

def run : S → List O → S
  | s, [] => s
  | s, o::os => run (step s o) os

def Along (P : S → O → Prop) : S → List O → Prop
  | _, [] => True
  | s, o::os => P s o ∧ Along P (step s o) os

instance decidableAlong (P : S → O → Prop) [∀ s o, Decidable (P s o)] :
    ∀ (s : S) (os : List O), Decidable (Along step P s os)
  | _, [] => .isTrue trivial
  | s, o::os => @instDecidableAnd _ _ _ (decidableAlong P (step s o) os)

theorem along_of_forall {step : S → O → S} {P : O → Prop} {s : S} {os : List O}
    (h : ∀ o ∈ os, P o) : Along step (fun _ o => P o) s os := by
  induction os generalizing s with
  | nil => trivial
  | cons o os ih => exact ⟨h o (by simp), ih (fun o' ho' => h o' (by simp [ho']))⟩

variable {step}

theorem run_append (s : S) (os os' : List O) :
    run step s (os ++ os') = run step (run step s os) os' := by
  induction os generalizing s with
  | nil => rfl
  | cons o os ih => exact ih (step s o)

/-- An invariant kept by every permitted step holds after every permitted run. -/
theorem run_invariant {I : S → Prop} {C : S → O → Prop}
    (hstep : ∀ s o, I s → C s o → I (step s o)) {s : S} {os : List O}
    (hs : I s) (hc : Along step C s os) : I (run step s os) := by
  induction os generalizing s with
  | nil => exact hs
  | cons o os ih => exact ih (hstep s o hs hc.1) hc.2

/-- What the invariant guarantees of each single step is met along the run. -/
theorem along_of_invariant {I : S → Prop} {C P : S → O → Prop}
    (hstep : ∀ s o, I s → C s o → I (step s o)) (hp : ∀ s o, I s → C s o → P s o)
    {s : S} {os : List O} (hs : I s) (hc : Along step C s os) : Along step P s os := by
  induction os generalizing s with
  | nil => trivial
  | cons o os ih => exact ⟨hp s o hs hc.1, ih (hstep s o hs hc.1) hc.2⟩

section Partial
variable {next : S → O → Option S}

/-- A machine that may get stuck, as a machine on optional states. -/
def lift (next : S → O → Option S) (s : Option S) (o : O) : Option S := s.bind (fun s => next s o)

def Issued (C : S → O → Prop) (s : Option S) (o : O) : Prop := ∀ s', s = some s' → C s' o

instance decidableIssued (C : S → O → Prop) [∀ s o, Decidable (C s o)] (s : Option S) (o : O) :
    Decidable (Issued C s o) :=
  match s with
  | none => .isTrue (fun _ h => nomatch h)
  | some s => decidable_of_iff (C s o) ⟨fun h _ e => Option.some.inj e ▸ h, fun h => h s rfl⟩

theorem run_lift_none (os : List O) : run (lift next) none os = none := by
  induction os with
  | nil => rfl
  | cons o os ih => exact ih

theorem run_lift_cons {s s' : S} {o : O} {os : List O}
    (h : run (lift next) (some s) (o::os) = some s') :
    ∃ t, next s o = some t ∧ run (lift next) (some t) os = some s' := by
  rw [run, lift, Option.bind_some] at h
  rcases hn : next s o with _ | t
  · rw [hn, run_lift_none] at h
    exact nomatch h
  · rw [hn] at h
    exact ⟨t, rfl, h⟩

/-- Permitted runs neither get stuck nor leave the invariant. -/
theorem run_lift_invariant {I : S → Prop} {C : S → O → Prop}
    (hstep : ∀ s o, I s → C s o → ∃ s', next s o = some s' ∧ I s') {s : S} {os : List O}
    (hs : I s) (hc : Along (lift next) (Issued C) (some s) os) :
    ∃ s', run (lift next) (some s) os = some s' ∧ I s' := by
  apply run_invariant (I := fun s => ∃ s', s = some s' ∧ I s') _ ⟨s, rfl, hs⟩ hc
  rintro _ o ⟨s', rfl, hi⟩ ho
  exact hstep s' o hi (ho s' rfl)

/-- What the invariant guarantees of each step of a machine that may get stuck. -/
theorem along_lift_of_invariant {I : S → Prop} {C P : S → O → Prop}
    (hstep : ∀ s o, I s → C s o → ∃ s', next s o = some s' ∧ I s') (hp : ∀ s o, I s → C s o → P s o)
    {s : S} {os : List O} (hs : I s) (hc : Along (lift next) (Issued C) (some s) os) :
    Along (lift next) (Issued P) (some s) os := by
  apply along_of_invariant (I := fun s => ∃ s', s = some s' ∧ I s') _ _ ⟨s, rfl, hs⟩ hc
  · rintro _ o ⟨s', rfl, hi⟩ ho
    exact hstep s' o hi (ho s' rfl)
  · rintro _ o ⟨s', rfl, hi⟩ ho t ht
    obtain rfl := Option.some.inj ht
    exact hp s' o hi (ho s' rfl)

/-- What every permitted step keeps holds wherever a run gets to. -/
theorem run_lift_safe {I : S → Prop} {C : S → O → Prop}
    (hstep : ∀ s o s', I s → C s o → next s o = some s' → I s') {s s' : S} {os : List O}
    (hs : I s) (hc : Along (lift next) (Issued C) (some s) os)
    (h : run (lift next) (some s) os = some s') : I s' := by
  refine run_invariant (I := fun t => ∀ t', t = some t' → I t') ?_ ?_ hc s' h
  · intro t o hi ho t' ht
    obtain ⟨t₀, rfl, hnext⟩ := Option.bind_eq_some_iff.mp ht
    exact hstep t₀ o t' (hi t₀ rfl) (ho t₀ rfl) hnext
  · intro t' ht
    exact Option.some.inj ht ▸ hs

theorem run_lift_closed {I : S → Prop} (hstep : ∀ s o s', I s → next s o = some s' → I s')
    {s s' : S} {os : List O} (hs : I s) (h : run (lift next) (some s) os = some s') : I s' := by
  refine run_lift_safe (C := fun _ _ => True) (fun s o s' hi _ => hstep s o s' hi) hs ?_ h
  have hall : Along (lift next) (fun _ _ => True) (some s) os :=
    along_of_forall (P := fun _ => True) (fun _ _ => trivial)
  exact along_of_invariant (I := fun _ => True) (fun _ _ _ _ => trivial)
    (fun _ _ _ _ _ _ => trivial) trivial hall

/-- Bounded waiting: a counted step that does not bring the event shortens the
wait and no other one lengthens it, so the event comes within that many counted
steps. -/
theorem run_lift_within {W : S → ℕ → Prop} {E : S → O → S → Prop} {C : S → O → Prop}
    (counted : O → Bool) (hpos : ∀ s n, W s n → 0 < n)
    (hstep : ∀ s o s' n, W s n → C s o → next s o = some s' →
      E s o s' ∨ ∃ m, W s' m ∧ m+(counted o).toNat ≤ n) {s s' : S} {os : List O} {n : ℕ}
    (hs : W s n) (hc : Along (lift next) (Issued C) (some s) os)
    (h : run (lift next) (some s) os = some s') (hn : n ≤ os.countP counted) :
    ∃ before o after t t', os = before ++ o::after ∧ run (lift next) (some s) before = some t ∧
      next t o = some t' ∧ E t o t' := by
  induction os generalizing s n with
  | nil =>
    have := hpos s n hs
    rw [List.countP_nil] at hn
    omega
  | cons o os ih =>
    obtain ⟨t, ho, hrun⟩ := run_lift_cons h
    have hrest := hc.2
    rw [lift, Option.bind_some, ho] at hrest
    rcases hstep s o t n hs (hc.1 s rfl) ho with he | ⟨m, hm, hle⟩
    · exact ⟨[], o, os, s, t, rfl, rfl, ho, he⟩
    · have hcount : m ≤ os.countP counted := by
        rw [List.countP_cons] at hn
        cases hb : counted o with
        | true =>
          rw [hb, Bool.toNat_true] at hle
          rw [hb, if_pos rfl] at hn
          omega
        | false =>
          rw [hb, if_neg Bool.false_ne_true] at hn
          omega
      obtain ⟨before, o', after, t₁, t₂, rfl, hb, hn', he⟩ :=
        ih hm hrest hrun hcount
      refine ⟨o::before, o', after, t₁, t₂, rfl, ?_, hn', he⟩
      rw [run, lift, Option.bind_some, ho, hb]

end Partial

end Emk.Transition
