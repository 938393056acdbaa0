import Emk.Kprintf

/-!
# No caller waits for ever unless one stops inside

From every state that can be reached, the callers and the line can go on so
that each call comes to its end. A caller that stops between taking the lock
and giving it back keeps all others out.
-/

set_option autoImplicit false

namespace Emk.KprintfProgress
open Emk.SpinLock Emk.Transition Emk.Kprintf

variable {P J : Type} [DecidableEq P] {depth : ℕ} {npf : J → Formatted} {w w' : World P J} {p q : P}

/-- The steps that a caller inside has to take, with an empty transmitter. -/
def left : Pc J → ℕ
  | .returned _ => 0
  | .acquire _ => 0
  | .format _ => 2*bufferSize+3
  | .poll out i => 2*(out.length.toNat-i)+3
  | .write out i => 2*(out.length.toNat-i)+2
  | .terminal _ => 2
  | .release _ => 1

theorem outside_cases {pc : Pc J} (h : ¬ pc.Inside) :
    (∃ n, pc = .returned n) ∨ ∃ job, pc = .acquire job := by
  cases pc with
  | returned n => exact .inl ⟨n, rfl⟩
  | acquire job => exact .inr ⟨job, rfl⟩
  | _ => exact absurd trivial h

/-- No new call is made. -/
def Quiet (acts : List (Act P J)) : Prop := ∀ a ∈ acts, ∀ p job, a ≠ .call p job

section Reach

/-- `w'` can follow `w` without a new call. -/
def Reaches (depth : ℕ) (npf : J → Formatted) (w w' : World P J) : Prop :=
  ∃ more, Quiet more ∧ run (step depth npf) w more = w'

theorem Reaches.refl : Reaches depth npf w w := ⟨[], fun a ha => absurd ha (by simp), rfl⟩

theorem Reaches.trans {w'' : World P J} (h : Reaches depth npf w w')
    (h' : Reaches depth npf w' w'') : Reaches depth npf w w'' := by
  obtain ⟨more, hq, rfl⟩ := h
  obtain ⟨more', hq', rfl⟩ := h'
  refine ⟨more ++ more', fun a ha => ?_, run_append _ _ _⟩
  exact (List.mem_append.mp ha).elim (hq a) (hq' a)

theorem Reaches.single {a : Act P J} (ha : ∀ p job, a ≠ .call p job) :
    Reaches depth npf w (step depth npf w a) :=
  ⟨[a], fun _ hb => List.mem_singleton.mp hb ▸ ha, rfl⟩

theorem reaches_caller (p : P) : Reaches depth npf w (callerStep depth npf p w) :=
  Reaches.single (a := .caller p) (fun _ _ h => by cases h)

theorem Reaches.inv (h : Reaches depth npf w w') (hdepth : 0 < depth) (hi : Inv npf w) :
    Inv npf w' := by
  obtain ⟨more, -, rfl⟩ := h
  exact run_invariant (fun w a h _ => h.step hdepth a) hi
    (along_of_forall (P := fun _ => True) fun _ _ => trivial)

variable (depth npf) in
/-- The line empties the transmitter. -/
theorem reaches_drained (bs : List ℕ) (h : w.uart.fifo = bs) :
    Reaches depth npf w { w with uart := ⟨[], w.uart.accepted⟩ } := by
  induction bs generalizing w with
  | nil =>
    rw [Uart.accepted, h, List.append_nil, ← h]
    exact .refl
  | cons b bs ih =>
    have hnext : ({ w with uart := w.uart.transmit } : World P J).uart.fifo = bs := by
      change w.uart.fifo.tail = bs
      rw [h, List.tail_cons]
    have hrest := ih hnext
    dsimp only at hrest
    rw [Uart.accepted_transmit] at hrest
    exact (Reaches.single (a := .transmit) (fun _ _ h => by cases h)).trans hrest

end Reach

/-- `w'` differs from `w` in that `p` has returned and the lock is free. -/
structure Served (p : P) (w w' : World P J) : Prop where
  returned : ∃ n, w'.callers p = .returned n
  lock : w'.lock = false
  others : ∀ q, q ≠ p → w'.callers q = w.callers q
  called : w'.called = w.called

omit [DecidableEq P] in
theorem Served.trans {w'' : World P J} (h : Served p w' w'')
    (hothers : ∀ q, q ≠ p → w'.callers q = w.callers q) (hcalled : w'.called = w.called) :
    Served p w w'' :=
  ⟨h.returned, h.lock, fun q hq => (h.others q hq).trans (hothers q hq), h.called.trans hcalled⟩

section Progress

variable (depth) in
/-- A step of the caller inside brings it nearer to its end. -/
theorem callerStep_left (hi : Inv npf w) (hp : (w.callers p).Inside) (hempty : w.uart.fifo = []) :
    (Served p w (callerStep depth npf p w) ∨
      (((callerStep depth npf p w).callers p).Inside ∧
        left ((callerStep depth npf p w).callers p) < left (w.callers p))) ∧
    (∀ q, q ≠ p → (callerStep depth npf p w).callers q = w.callers q) ∧
    (callerStep depth npf p w).called = w.called := by
  have hgoto : ∀ pc q, q ≠ p → (w.goto p pc).callers q = w.callers q :=
    fun pc q hq => goto_other hq
  obtain ⟨before, job, hb⟩ := hi.busy p hp
  have hserving := hb.serving
  rw [callerStep]
  rcases hpc : w.callers p with n | job | job | ⟨out, i⟩ | ⟨out, i⟩ | out | out <;> dsimp only <;>
    rw [hpc] at hp hserving
  · exact hp.elim
  · exact hp.elim
  · split_ifs with hfits
    · refine ⟨.inr ?_, hgoto _, rfl⟩
      rw [goto_self]
      refine ⟨trivial, ?_⟩
      have := hfits.2
      simp only [left, bufferSize] at this ⊢
      omega
    · refine ⟨.inr ?_, hgoto _, rfl⟩
      rw [goto_self]
      refine ⟨trivial, ?_⟩
      simp only [left]
      omega
  · split_ifs with hlt hthre
    · refine ⟨.inr ?_, hgoto _, rfl⟩
      rw [goto_self]
      refine ⟨trivial, ?_⟩
      simp only [left]
      omega
    · exact absurd (List.isEmpty_iff.mpr hempty) hthre
    · refine ⟨.inr ?_, hgoto _, rfl⟩
      rw [goto_self]
      refine ⟨trivial, ?_⟩
      simp only [left]
      omega
  · refine ⟨.inr ?_, hgoto _, rfl⟩
    rw [goto_self]
    refine ⟨trivial, ?_⟩
    have := hserving.2.2
    simp only [left]
    omega
  · refine ⟨.inr ?_, hgoto _, rfl⟩
    rw [goto_self]
    exact ⟨trivial, by simp [left]⟩
  · refine ⟨.inl ⟨⟨out.length, ?_⟩, rfl, hgoto _, rfl⟩, hgoto _, rfl⟩
    exact goto_self p _

/-- The caller inside can end its call. -/
theorem reaches_served (hdepth : 0 < depth) (n : ℕ) (hn : left (w.callers p) ≤ n)
    (hi : Inv npf w) (hp : (w.callers p).Inside) :
    ∃ w', Reaches depth npf w w' ∧ Served p w w' := by
  induction n generalizing w with
  | zero =>
    exfalso
    rcases hpc : w.callers p with n | job | job | ⟨out, i⟩ | ⟨out, i⟩ | out | out <;>
      rw [hpc] at hn hp <;> simp [left, Pc.Inside] at hn hp
  | succ n ih =>
    have hdrain := reaches_drained depth npf _ (rfl : w.uart.fifo = _)
    generalize hw : ({ w with uart := ⟨[], w.uart.accepted⟩ } : World P J) = v at hdrain
    have hempty : v.uart.fifo = [] := by rw [← hw]
    have hsame : v.callers = w.callers := by rw [← hw]
    have hcalled : v.called = w.called := by rw [← hw]
    have hv := hdrain.inv hdepth hi
    rw [← hsame] at hn hp
    obtain ⟨hcase, hothers, hc⟩ := callerStep_left depth hv hp hempty
    have hstep := hdrain.trans (reaches_caller p)
    rcases hcase with hserved | ⟨hin, hlt⟩
    · exact ⟨_, hstep, hserved.trans (fun q _ => congrFun hsame q) hcalled⟩
    · obtain ⟨w', hw', hserved⟩ := ih (by omega) (hstep.inv hdepth hi) hin
      refine ⟨w', hstep.trans hw', hserved.trans (fun q hq => ?_) (hc.trans hcalled)⟩
      rw [hothers q hq, hsame]

/-- A caller that waits for the free lock can end its call. -/
theorem reaches_answered (hdepth : 0 < depth) (hi : Inv npf w) {job : J}
    (hpc : w.callers p = .acquire job) (hlock : w.lock = false) :
    ∃ w', Reaches depth npf w w' ∧ Served p w w' := by
  have hstep : callerStep depth npf p w =
      { w.goto p (.format job) with lock := true, order := w.order ++ [(p, job)] } := by
    rw [callerStep, hpc]
    dsimp only
    rw [hlock]
    rfl
  have hself : (callerStep depth npf p w).callers p = .format job := by
    rw [hstep]
    exact goto_self p _
  have hreach : Reaches depth npf w (callerStep depth npf p w) := reaches_caller p
  obtain ⟨w', hw', hserved⟩ := reaches_served hdepth _ (Nat.le_refl _) (hreach.inv hdepth hi)
    (by rw [hself]; trivial)
  refine ⟨w', hreach.trans hw', hserved.trans (fun q hq => ?_) (by rw [hstep]; rfl)⟩
  rw [hstep]
  exact goto_other hq

/-- With a free lock, any callers can end their calls one after the other. -/
theorem reaches_all (hdepth : 0 < depth) (ps : List P) (hi : Inv npf w) (hlock : w.lock = false) :
    ∃ w', Reaches depth npf w w' ∧ w'.lock = false ∧ w'.called = w.called ∧
      ∀ p, (p ∈ ps ∨ ∃ n, w.callers p = .returned n) → ∃ n, w'.callers p = .returned n := by
  induction ps generalizing w with
  | nil => exact ⟨w, .refl, hlock, rfl, fun p hp => hp.resolve_left (by simp)⟩
  | cons p ps ih =>
    have hout : ¬ (w.callers p).Inside := (hlock ▸ hi.guarded : Guarded _ false).free p
    have hone : ∃ w', Reaches depth npf w w' ∧ Served p w w' := by
      rcases outside_cases hout with hback | ⟨job, hpc⟩
      · exact ⟨w, .refl, hback, hlock, fun _ _ => rfl, rfl⟩
      · exact reaches_answered hdepth hi hpc hlock
    obtain ⟨w₁, hw₁, hserved⟩ := hone
    obtain ⟨w', hw', hfree, hcalled, hall⟩ := ih (hw₁.inv hdepth hi) hserved.lock
    refine ⟨w', hw₁.trans hw', hfree, hcalled.trans hserved.called, fun q hq => hall q ?_⟩
    by_cases hqp : q = p
    · exact .inr (hqp ▸ hserved.returned)
    · rw [hserved.others q hqp]
      exact hq.imp_left fun hmem => (List.mem_cons.mp hmem).resolve_left hqp

/-- Only callers that have called are not back. -/
theorem returned_of_uncalled (hi : Inv npf w) (hp : p ∉ w.called.map Prod.fst) :
    ∃ n, w.callers p = .returned n := by
  have hnone : own p w.called = [] := by
    rw [own, List.filterMap_eq_nil_iff]
    intro e he
    exact if_neg fun heq => hp (List.mem_map.mpr ⟨e, he, heq⟩)
  have hturn := hi.turns p
  rw [hnone] at hturn
  obtain ⟨hown, hwait⟩ := List.append_eq_nil_iff.mp hturn.symm
  have hout : ¬ (w.callers p).Inside := by
    intro hin
    obtain ⟨before, job, hb⟩ := hi.busy p hin
    rw [hb.order, own_append_self] at hown
    exact absurd hown (by simp)
  rcases outside_cases hout with hback | ⟨job, hpc⟩
  · exact hback
  · rw [hpc] at hwait
    exact absurd hwait (by simp [Pc.waiting])

end Progress

/-- Nobody is stuck: from every state reached, without further calls, all
callers can return, the transmitter can run empty, and then the line has
carried every message that was asked for. -/
theorem all_can_return (depth : ℕ) (hdepth : 0 < depth) (npf : J → Formatted) (terminal : Bool)
    (acts : List (Act P J)) :
    let w := run (step depth npf) (start P J terminal) acts
    ∃ w', Reaches depth npf w w' ∧ (∀ p, ∃ n, w'.callers p = .returned n) ∧ w'.called = w.called ∧
      w'.uart = ⟨[], messages npf w'.order⟩ ∧ ∀ p, own p w'.order = own p w.called := by
  intro w
  have hi : Inv npf w := run_inv hdepth npf terminal acts
  have hfree : ∃ v, Reaches depth npf w v ∧ v.lock = false ∧ v.called = w.called := by
    rcases hlock : w.lock with _ | _
    · exact ⟨w, .refl, hlock, rfl⟩
    · obtain ⟨p, hp⟩ := hi.guarded.held.mp hlock
      obtain ⟨v, hv, hserved⟩ := reaches_served hdepth _ (Nat.le_refl _) hi hp
      exact ⟨v, hv, hserved.lock, hserved.called⟩
  obtain ⟨v, hv, hlock, hcalled⟩ := hfree
  obtain ⟨u, hu, hlock', hcalled', hall⟩ :=
    reaches_all hdepth (v.called.map Prod.fst) (hv.inv hdepth hi) hlock
  have hback : ∀ p, ∃ n, u.callers p = .returned n := by
    intro p
    by_cases hp : p ∈ v.called.map Prod.fst
    · exact hall p (.inl hp)
    · exact hall p (.inr (returned_of_uncalled (hv.inv hdepth hi) hp))
  have hdrain := reaches_drained depth npf _ (rfl : u.uart.fifo = _)
  have hiu := (hv.trans hu).inv hdepth hi
  refine ⟨_, (hv.trans hu).trans hdrain, hback, hcalled'.trans hcalled, ?_, fun p => ?_⟩
  · rw [(hiu.free hlock').1]
  · obtain ⟨n, hn⟩ := hback p
    have hturn := hiu.turns p
    rw [hn, hcalled'.trans hcalled] at hturn
    exact (hturn.trans (List.append_nil _)).symm

theorem all_can_return_two :
    let w := run (step 1 plain) (start ℕ (List ℕ) true) twoCallers
    ∃ w', Reaches 1 plain w w' ∧ w'.uart = ⟨[], messages plain w'.order⟩ := by
  obtain ⟨w', hreach, -, -, huart, -⟩ := all_can_return 1 (by decide) plain true twoCallers
  exact ⟨w', hreach, huart⟩

section Stopped

/-- `p` is where it was, and so is all that the lock protects. -/
structure Stopped (npf : J → Formatted) (p : P) (w w' : World P J) : Prop where
  inv : Inv npf w'
  holder : w'.callers p = w.callers p
  order : w'.order = w.order
  accepted : w'.uart.accepted = w.uart.accepted
  screen : w'.screen = w.screen

/-- A step of another caller while `p` is inside. -/
theorem Stopped.step (hdepth : 0 < depth) (hp : (w.callers p).Inside) {v : World P J}
    (h : Stopped npf p w v) {a : Act P J} (ha : a ≠ .caller p) :
    Stopped npf p w (step depth npf v a) := by
  have hin : (v.callers p).Inside := by
    rw [h.holder]
    exact hp
  have hinv := h.inv.step hdepth a
  cases a with
  | call q job =>
    rcases hpc : v.callers q with n | _ | _ | _ | _ | _ | _
    · have hne : p ≠ q := by
        rintro rfl
        rw [hpc] at hin
        exact hin
      rw [Kprintf.step, hpc] at hinv ⊢
      exact ⟨hinv, (goto_other hne).trans h.holder, h.order, h.accepted, h.screen⟩
    all_goals
      rw [Kprintf.step, hpc]
      exact h
  | caller q =>
    have hne : q ≠ p := fun he => ha (congrArg Act.caller he)
    have hout : ¬ (v.callers q).Inside := fun hq => hne (h.inv.guarded.alone q p hq hin)
    have hsame : callerStep depth npf q v = v := by
      rw [callerStep]
      rcases outside_cases hout with ⟨n, hpc⟩ | ⟨job, hpc⟩
      · rw [hpc]
      · rw [hpc]
        exact if_pos (h.inv.guarded.locked_of hin)
    rw [Kprintf.step, hsame]
    exact h
  | transmit => exact ⟨hinv, h.holder, h.order, (Uart.accepted_transmit _).trans h.accepted, h.screen⟩

end Stopped

/-- After a caller has stopped inside, nothing more is printed, and no other
call comes to its end, whatever the others do. -/
theorem stopped_inside_blocks (depth : ℕ) (hdepth : 0 < depth) (npf : J → Formatted)
    (terminal : Bool) (acts more : List (Act P J)) (p : P)
    (hp : ((run (step depth npf) (start P J terminal) acts).callers p).Inside)
    (hmore : ∀ a ∈ more, a ≠ .caller p) :
    let w := run (step depth npf) (start P J terminal) acts
    let w' := run (step depth npf) w more
    w'.uart.accepted = w.uart.accepted ∧ w'.screen = w.screen ∧ w'.order = w.order ∧
      ∀ q, own q w'.called = own q w.order ++ (w'.callers q).waiting := by
  intro w w'
  have hi : Inv npf w := run_inv hdepth npf terminal acts
  have h : Stopped npf p w w' := by
    refine run_invariant (C := fun _ a => a ≠ .caller p) (fun v a h ha => h.step hdepth hp ha)
      ⟨hi, rfl, rfl, rfl, rfl⟩ (along_of_forall hmore)
  refine ⟨h.accepted, h.screen, h.order, fun q => ?_⟩
  rw [← h.order]
  exact h.inv.turns q

/-- The second caller waits while the first one has stopped behind its first character. -/
theorem stopped_inside_blocks_two :
    let w := run (step 1 plain) (start ℕ (List ℕ) true) (twoCallers.take 8)
    let w' := run (step 1 plain) w [.caller 1, .transmit, .caller 1, .call 2 [33], .caller 2]
    w'.uart = ⟨[], [72]⟩ ∧ w'.uart.accepted = w.uart.accepted := by
  refine ⟨by decide +kernel, ?_⟩
  exact (stopped_inside_blocks 1 (by decide) plain true (twoCallers.take 8)
    [.caller 1, .transmit, .caller 1, .call 2 [33], .caller 2] 0 (by decide +kernel) (by
      intro a ha
      simp only [List.mem_cons, List.not_mem_nil, or_false] at ha
      rcases ha with rfl | rfl | rfl | rfl | rfl <;> simp)).1

end Emk.KprintfProgress
