import Emk.SpinLock
import Emk.Transition
import Mathlib.Data.Int.Notation
import Mathlib.Logic.Function.Basic

/-!
# Messages on the serial line

`util/kprintf.c`, `dev/serial.c` and `sys/spinlock.h`. Any number of callers
take atomic steps in any order, and so does the line, which takes the bytes
out of the transmitter. What `npf_vsnprintf` makes of a call is a parameter.
-/

set_option autoImplicit false

namespace Emk.Kprintf
open Emk.SpinLock Emk.Transition

def bufferSize : ℕ := 1024

/-- The result of `npf_vsnprintf` and what it leaves in the buffer. -/
structure Formatted where
  length : ℤ
  buffer : ℕ → ℕ

/-- The transmitter of the UART, and what has gone out on the line. -/
structure Uart where
  fifo : List ℕ := []
  line : List ℕ := []
  deriving DecidableEq, Repr

/-- Where a caller is; `poll` and `write` are in the loop of `serial_write`. -/
inductive Pc (J : Type) where
  | returned (length : ℤ)
  | acquire (job : J)
  | format (job : J)
  | poll (out : Formatted) (i : ℕ)
  | write (out : Formatted) (i : ℕ)
  | terminal (out : Formatted)
  | release (out : Formatted)

/-- `screen` is `none` without a terminal. The calls, and the acquisitions of
the lock, are recorded in their order. -/
structure World (P J : Type) where
  lock : Bool := false
  uart : Uart := {}
  screen : Option (List ℕ) := none
  callers : P → Pc J := fun _ => .returned 0
  called : List (P × J) := []
  order : List (P × J) := []

inductive Act (P J : Type) where
  | call (p : P) (job : J)
  | caller (p : P)
  | transmit

def Formatted.Fits (out : Formatted) : Prop := 0 ≤ out.length ∧ out.length < bufferSize

instance decidableFits (out : Formatted) : Decidable out.Fits :=
  inferInstanceAs (Decidable (_ ∧ _))

/-- The first `n` characters of the buffer. -/
def Formatted.chars (out : Formatted) (n : ℕ) : List ℕ := (List.range n).map out.buffer

/-- What `kprintf` prints: nothing, unless the whole text fits. -/
def Formatted.text (out : Formatted) : List ℕ :=
  if out.Fits then out.chars out.length.toNat else []

/-- `UART_LSR_THRE` -/
def Uart.thre (u : Uart) : Bool := u.fifo.isEmpty

/-- Everything that the UART has accepted. -/
def Uart.accepted (u : Uart) : List ℕ := u.line ++ u.fifo

variable (depth : ℕ)

/-- A byte that finds the transmitter full is lost. -/
def Uart.outb (value : ℕ) (u : Uart) : Uart :=
  if u.fifo.length < depth then { u with fifo := u.fifo ++ [value] } else u

def Uart.transmit (u : Uart) : Uart := ⟨u.fifo.tail, u.line ++ u.fifo.take 1⟩

section Step
variable {P J : Type} [DecidableEq P]

def World.goto (w : World P J) (p : P) (pc : Pc J) : World P J :=
  { w with callers := Function.update w.callers p pc }

def World.put (w : World P J) (value : ℕ) : World P J :=
  { w with uart := w.uart.outb depth value }

variable (npf : J → Formatted)

/-- One step of a caller. -/
def callerStep (p : P) (w : World P J) : World P J :=
  match w.callers p with
  | .returned _ => w
  | .acquire job =>
    if w.lock then w
    else { w.goto p (.format job) with lock := true, order := w.order ++ [(p, job)] }
  | .format job =>
    if (npf job).Fits then w.goto p (.poll (npf job) 0) else w.goto p (.release (npf job))
  | .poll out i =>
    if i < out.length.toNat then
      if w.uart.thre then w.goto p (.write out i) else w
    else w.goto p (.terminal out)
  | .write out i => (w.put depth (out.buffer i)).goto p (.poll out (i+1))
  | .terminal out =>
    { w.goto p (.release out) with
      screen := w.screen.map fun s => s ++ out.chars out.length.toNat }
  | .release out => { w.goto p (.returned out.length) with lock := false }

def step (w : World P J) : Act P J → World P J
  | .call p job =>
    match w.callers p with
    | .returned _ => { w.goto p (.acquire job) with called := w.called ++ [(p, job)] }
    | _ => w
  | .caller p => callerStep depth npf p w
  | .transmit => { w with uart := w.uart.transmit }

/-- The messages of these calls, one after the other. -/
def messages (calls : List (P × J)) : List ℕ := calls.flatMap fun e => (npf e.2).text

/-- The calls of one caller. -/
def own (p : P) (calls : List (P × J)) : List J :=
  calls.filterMap fun e => if e.1 = p then some e.2 else none

def Pc.waiting : Pc J → List J
  | .acquire job => [job]
  | _ => []

/-- Between `spinlock_acquire` and `spinlock_release`. -/
def Pc.Inside : Pc J → Prop
  | .returned _ => False
  | .acquire _ => False
  | _ => True

instance decidableInside (pc : Pc J) : Decidable pc.Inside :=
  match pc with
  | .returned _ => .isFalse id
  | .acquire _ => .isFalse id
  | .format _ => .isTrue trivial
  | .poll _ _ => .isTrue trivial
  | .write _ _ => .isTrue trivial
  | .terminal _ => .isTrue trivial
  | .release _ => .isTrue trivial

end Step

variable {depth : ℕ} {P J : Type} [DecidableEq P] {npf : J → Formatted} {w : World P J} {p q : P}

section Uart
variable {u : Uart}

theorem Uart.accepted_transmit (u : Uart) : u.transmit.accepted = u.accepted := by
  rw [accepted, accepted, transmit, List.append_assoc]
  congr 1
  rcases u.fifo with _ | ⟨b, bs⟩ <;> rfl

theorem Uart.accepted_outb (hdepth : 0 < depth) (h : u.fifo = []) (value : ℕ) :
    (u.outb depth value).accepted = u.accepted ++ [value] := by
  rw [accepted, accepted, outb, h, if_pos (show ([] : List ℕ).length < depth from hdepth)]
  simp

end Uart

section Records

@[simp] theorem goto_self (p : P) (pc : Pc J) : (w.goto p pc).callers p = pc :=
  Function.update_self _ _ _

theorem goto_other {pc : Pc J} (hq : q ≠ p) : (w.goto p pc).callers q = w.callers q :=
  Function.update_of_ne hq _ _

theorem chars_succ (out : Formatted) (n : ℕ) : out.chars (n+1) = out.chars n ++ [out.buffer n] := by
  rw [Formatted.chars, List.range_succ, List.map_append]
  rfl

omit [DecidableEq P] in
theorem messages_append (calls : List (P × J)) (job : J) :
    messages npf (calls ++ [(p, job)]) = messages npf calls ++ (npf job).text := by
  rw [messages, List.flatMap_append]
  simp [messages]

theorem own_append_self (calls : List (P × J)) (job : J) :
    own p (calls ++ [(p, job)]) = own p calls ++ [job] := by
  simp [own]

theorem own_append_other (hne : p ≠ q) (calls : List (P × J)) (job : J) :
    own q (calls ++ [(p, job)]) = own q calls := by
  simp [own, hne]

end Records

section Calls

/-- The caller is inside `kprintf` for this call. -/
def Serving (npf : J → Formatted) (job : J) : Pc J → Prop
  | .returned _ => False
  | .acquire _ => False
  | .format j => j = job
  | .poll out i => out = npf job ∧ out.Fits ∧ i ≤ out.length.toNat
  | .write out i => out = npf job ∧ out.Fits ∧ i < out.length.toNat
  | .terminal out => out = npf job ∧ out.Fits
  | .release out => out = npf job

/-- What the caller has written to the UART. -/
def Pc.written : Pc J → List ℕ
  | .poll out i => out.chars i
  | .write out i => out.chars i
  | .terminal out => out.text
  | .release out => out.text
  | _ => []

/-- What the caller has written to the terminal. -/
def Pc.shown : Pc J → List ℕ
  | .release out => out.text
  | _ => []

/-- The transmitter is empty when a byte is about to be written to it. -/
def Ready (u : Uart) : Pc J → Prop
  | .write _ _ => u.fifo = []
  | _ => True

/-- One call is being served, and those before it have been served. -/
structure Busy (npf : J → Formatted) (p : P) (before : List (P × J)) (job : J) (w : World P J) :
    Prop where
  order : w.order = before ++ [(p, job)]
  serving : Serving npf job (w.callers p)
  uart : w.uart.accepted = messages npf before ++ (w.callers p).written
  screen : ∀ t, w.screen = some t → t = messages npf before ++ (w.callers p).shown

structure Inv (npf : J → Formatted) (w : World P J) : Prop where
  guarded : Guarded (fun p => (w.callers p).Inside) w.lock
  free : w.lock = false → w.uart.accepted = messages npf w.order ∧
    ∀ t, w.screen = some t → t = messages npf w.order
  busy : ∀ p, (w.callers p).Inside → ∃ before job, Busy npf p before job w
  ready : ∀ p, Ready w.uart (w.callers p)
  turns : ∀ p, own p w.called = own p w.order ++ (w.callers p).waiting

end Calls

section Steps

/-- A caller inside goes on with its call. -/
theorem Inv.advance (h : Inv npf w) (pc : Pc J) {u : Uart} {screen : Option (List ℕ)}
    (hp : (w.callers p).Inside) (hin : pc.Inside)
    (hserving : ∀ job, Serving npf job (w.callers p) → Serving npf job pc)
    (hwritten : ∀ job, Serving npf job (w.callers p) →
      ∃ d, pc.written = (w.callers p).written ++ d ∧ u.accepted = w.uart.accepted ++ d)
    (hshown : ∃ d, pc.shown = (w.callers p).shown ++ d ∧ screen = w.screen.map (· ++ d))
    (hready : Ready u pc) : Inv npf { w.goto p pc with uart := u, screen := screen } := by
  have hout : ∀ q, q ≠ p → ¬ (w.callers q).Inside :=
    fun q hq hin => hq (h.guarded.alone q p hin hp)
  have hwait : ∀ pc : Pc J, pc.Inside → pc.waiting = [] := by
    intro pc hin
    cases pc with
    | acquire job => exact hin.elim
    | _ => rfl
  refine ⟨h.guarded.congr fun q => ?_, fun hfree => ?_, fun q hq => ?_, fun q => ?_, fun q => ?_⟩
  · by_cases hq : q = p
    · subst hq
      change ((w.goto q pc).callers q).Inside ↔ _
      rw [goto_self]
      exact iff_of_true hin hp
    · change ((w.goto p pc).callers q).Inside ↔ _
      rw [goto_other hq]
  · exact absurd (h.guarded.locked_of hp) (by rw [show w.lock = false from hfree]; simp)
  · obtain rfl : q = p := by
      by_contra hne
      change ((w.goto p pc).callers q).Inside at hq
      rw [goto_other hne] at hq
      exact hout q hne hq
    obtain ⟨before, job, hb⟩ := h.busy q hp
    obtain ⟨d, hd, hu⟩ := hwritten job hb.serving
    obtain ⟨e, he, hs⟩ := hshown
    refine ⟨before, job, hb.order, ?_, ?_, ?_⟩
    · change Serving npf job ((w.goto q pc).callers q)
      rw [goto_self]
      exact hserving job hb.serving
    · change u.accepted = messages npf before ++ ((w.goto q pc).callers q).written
      rw [goto_self, hu, hd, hb.uart, List.append_assoc]
    · intro t ht
      change screen = some t at ht
      change t = messages npf before ++ ((w.goto q pc).callers q).shown
      rw [hs] at ht
      obtain ⟨t', ht', rfl⟩ := Option.map_eq_some_iff.mp ht
      rw [goto_self, he, hb.screen t' ht', List.append_assoc]
  · change Ready u ((w.goto p pc).callers q)
    by_cases hq : q = p
    · rw [hq, goto_self]
      exact hready
    · rw [goto_other hq]
      have hq' := hout q hq
      cases hpc : w.callers q with
      | write out i => exact absurd (hpc ▸ trivial) hq'
      | _ => trivial
  · have hturn := h.turns q
    change own q w.called = own q w.order ++ ((w.goto p pc).callers q).waiting
    by_cases hq : q = p
    · subst hq
      rw [goto_self, hwait pc hin, hturn, hwait _ hp]
    · rw [goto_other hq, hturn]

/-- The caller that finds the lock free is the next to be served. -/
theorem Inv.enter (h : Inv npf w) {job : J} (hpc : w.callers p = .acquire job)
    (hlock : w.lock = false) :
    Inv npf { w.goto p (.format job) with lock := true, order := w.order ++ [(p, job)] } := by
  have hg : Guarded (fun p => (w.callers p).Inside) false := hlock ▸ h.guarded
  obtain ⟨huart, hscreen⟩ := h.free hlock
  refine ⟨hg.enter (p := p) fun q => ?_, fun hfree => absurd hfree (by simp), fun q hq => ?_, fun q => ?_,
    fun q => ?_⟩
  · change ((w.goto p (.format job)).callers q).Inside ↔ _
    by_cases hq : q = p
    · rw [hq, goto_self]
      exact iff_of_true trivial (.inr rfl)
    · rw [goto_other hq]
      exact ⟨.inl, fun hin => hin.resolve_right hq⟩
  · obtain rfl : q = p := by
      by_contra hne
      change ((w.goto p (.format job)).callers q).Inside at hq
      rw [goto_other hne] at hq
      exact hg.free q hq
    refine ⟨w.order, job, rfl, ?_, ?_, ?_⟩
    · change Serving npf job ((w.goto q (.format job)).callers q)
      rw [goto_self]
      rfl
    · change w.uart.accepted = messages npf w.order ++ ((w.goto q (.format job)).callers q).written
      rw [goto_self, huart]
      exact (List.append_nil _).symm
    · intro t ht
      change t = messages npf w.order ++ ((w.goto q (.format job)).callers q).shown
      rw [goto_self, hscreen t ht]
      exact (List.append_nil _).symm
  · change Ready w.uart ((w.goto p (.format job)).callers q)
    by_cases hq : q = p
    · rw [hq, goto_self]
      trivial
    · rw [goto_other hq]
      exact h.ready q
  · have hturn := h.turns q
    change own q w.called = own q (w.order ++ [(p, job)]) ++
      ((w.goto p (.format job)).callers q).waiting
    by_cases hq : q = p
    · subst hq
      rw [goto_self, hturn, hpc, own_append_self]
      exact (List.append_nil _).symm
    · rw [goto_other hq, hturn, own_append_other (Ne.symm hq)]

/-- The caller that gives the lock back has written its whole message. -/
theorem Inv.leave (h : Inv npf w) {out : Formatted} (hpc : w.callers p = .release out) :
    Inv npf { w.goto p (.returned out.length) with lock := false } := by
  have hp : (w.callers p).Inside := by
    rw [hpc]
    trivial
  obtain ⟨before, job, hb⟩ := h.busy p hp
  have hserving := hb.serving
  have huart := hb.uart
  have hscreen := hb.screen
  rw [hpc] at hserving huart hscreen
  obtain rfl : out = npf job := hserving
  have hdone : messages npf w.order = messages npf before ++ (npf job).text := by
    rw [hb.order, messages_append]
  have hg : Guarded (fun q => ((w.goto p (.returned (npf job).length)).callers q).Inside) false := by
    refine h.guarded.leave hp fun q => ?_
    by_cases hq : q = p
    · rw [hq, goto_self]
      exact iff_of_false id fun hin => hin.2 rfl
    · rw [goto_other hq]
      exact ⟨fun hin => ⟨hin, hq⟩, fun hin => hin.1⟩
  refine ⟨hg, fun _ => ⟨huart.trans hdone.symm, fun t ht => (hscreen t ht).trans hdone.symm⟩,
    fun q hq => absurd hq (hg.free q), fun q => ?_, fun q => ?_⟩
  · change Ready w.uart ((w.goto p (.returned (npf job).length)).callers q)
    by_cases hq : q = p
    · rw [hq, goto_self]
      trivial
    · rw [goto_other hq]
      exact h.ready q
  · have hturn := h.turns q
    change own q w.called = own q w.order ++
      ((w.goto p (.returned (npf job).length)).callers q).waiting
    by_cases hq : q = p
    · subst hq
      rw [goto_self, hturn, hpc]
      rfl
    · rw [goto_other hq, hturn]

theorem Inv.call (h : Inv npf w) {job : J} {n : ℤ} (hpc : w.callers p = .returned n) :
    Inv npf { w.goto p (.acquire job) with called := w.called ++ [(p, job)] } := by
  have hin : ∀ q, ((w.goto p (.acquire job)).callers q).Inside ↔ (w.callers q).Inside := by
    intro q
    by_cases hq : q = p
    · rw [hq, goto_self, hpc]
      exact Iff.rfl
    · rw [goto_other hq]
  refine ⟨h.guarded.congr hin, h.free, fun q hq => ?_, fun q => ?_, fun q => ?_⟩
  · have hold := (hin q).mp hq
    obtain ⟨before, j, hb⟩ := h.busy q hold
    have hne : q ≠ p := by
      rintro rfl
      rw [hpc] at hold
      exact hold
    refine ⟨before, j, hb.order, ?_, ?_, ?_⟩
    · change Serving npf j ((w.goto p (.acquire job)).callers q)
      rw [goto_other hne]
      exact hb.serving
    · change w.uart.accepted = messages npf before ++ ((w.goto p (.acquire job)).callers q).written
      rw [goto_other hne]
      exact hb.uart
    · intro t ht
      change t = messages npf before ++ ((w.goto p (.acquire job)).callers q).shown
      rw [goto_other hne]
      exact hb.screen t ht
  · change Ready w.uart ((w.goto p (.acquire job)).callers q)
    by_cases hq : q = p
    · rw [hq, goto_self]
      trivial
    · rw [goto_other hq]
      exact h.ready q
  · have hturn := h.turns q
    change own q (w.called ++ [(p, job)]) = own q w.order ++
      ((w.goto p (.acquire job)).callers q).waiting
    by_cases hq : q = p
    · subst hq
      rw [hpc] at hturn
      rw [goto_self, own_append_self, hturn]
      simp [Pc.waiting]
    · rw [goto_other hq, own_append_other (Ne.symm hq), hturn]

theorem Inv.transmit (h : Inv npf w) : Inv npf { w with uart := w.uart.transmit } := by
  refine ⟨h.guarded, fun hfree => ?_, fun p hp => ?_, fun p => ?_, h.turns⟩
  · obtain ⟨huart, hscreen⟩ := h.free hfree
    exact ⟨(Uart.accepted_transmit _).trans huart, hscreen⟩
  · obtain ⟨before, job, hb⟩ := h.busy p hp
    exact ⟨before, job, hb.order, hb.serving, (Uart.accepted_transmit _).trans hb.uart, hb.screen⟩
  · have hready := h.ready p
    change Ready w.uart.transmit (w.callers p)
    cases hpc : w.callers p with
    | write out i =>
      rw [hpc] at hready
      change w.uart.fifo.tail = []
      rw [show w.uart.fifo = [] from hready]
      rfl
    | _ => trivial

theorem Formatted.Fits.text {out : Formatted} (h : out.Fits) :
    out.text = out.chars out.length.toNat := if_pos h

theorem Inv.caller (hdepth : 0 < depth) (h : Inv npf w) (p : P) :
    Inv npf (callerStep depth npf p w) := by
  have same : ∀ s : Option (List ℕ), s = s.map (· ++ []) := by
    intro s
    cases s <;> simp
  rw [callerStep]
  rcases hpc : w.callers p with n | job | job | ⟨out, i⟩ | ⟨out, i⟩ | out | out <;> dsimp only
  · exact h
  · split_ifs with hlock
    · exact h
    · exact h.enter hpc (by simpa using hlock)
  · split_ifs with hfits
    · apply h.advance (.poll (npf job) 0) (by rw [hpc]; trivial) trivial _ _
        ⟨[], by rw [hpc]; rfl, same _⟩ trivial
      · intro j hj
        rw [hpc] at hj
        exact ⟨congrArg npf hj, hfits, Nat.zero_le _⟩
      · intro j hj
        rw [hpc]
        exact ⟨[], rfl, (List.append_nil _).symm⟩
    · apply h.advance (.release (npf job)) (by rw [hpc]; trivial) trivial _ _ ⟨[], ?_, same _⟩ trivial
      · intro j hj
        rw [hpc] at hj
        exact congrArg npf hj
      · intro j hj
        rw [hpc]
        exact ⟨[], if_neg hfits, (List.append_nil _).symm⟩
      · rw [hpc]
        exact if_neg hfits
  · split_ifs with hi hempty
    · apply h.advance (.write out i) (by rw [hpc]; trivial) trivial _ _ ⟨[], by rw [hpc]; rfl, same _⟩
      · exact List.isEmpty_iff.mp hempty
      · intro j hj
        rw [hpc] at hj
        exact ⟨hj.1, hj.2.1, hi⟩
      · intro j hj
        rw [hpc]
        exact ⟨[], (List.append_nil _).symm, (List.append_nil _).symm⟩
    · exact h
    · apply h.advance (.terminal out) (by rw [hpc]; trivial) trivial _ _
        ⟨[], by rw [hpc]; rfl, same _⟩ trivial
      · intro j hj
        rw [hpc] at hj
        exact ⟨hj.1, hj.2.1⟩
      · intro j hj
        rw [hpc] at hj ⊢
        obtain ⟨-, hfits, hle⟩ := hj
        refine ⟨[], ?_, (List.append_nil _).symm⟩
        rw [List.append_nil]
        exact hfits.text.trans (congrArg out.chars (by omega))
  · apply h.advance (.poll out (i+1)) (by rw [hpc]; trivial) trivial _ _
        ⟨[], by rw [hpc]; rfl, same _⟩ trivial
    · intro j hj
      rw [hpc] at hj
      exact ⟨hj.1, hj.2.1, hj.2.2⟩
    · intro j hj
      have hready := h.ready p
      rw [hpc] at hready ⊢
      exact ⟨[out.buffer i], chars_succ out i, Uart.accepted_outb hdepth hready _⟩
  · apply h.advance (.release out) (by rw [hpc]; trivial) trivial _ _ ⟨out.text, ?_, ?_⟩ trivial
    · intro j hj
      rw [hpc] at hj
      exact hj.1
    · intro j hj
      rw [hpc]
      exact ⟨[], (List.append_nil _).symm, (List.append_nil _).symm⟩
    · rw [hpc]
      rfl
    · have hserv : out.Fits := by
        obtain ⟨before, job, hb⟩ := h.busy p (by rw [hpc]; trivial)
        have hs := hb.serving
        rw [hpc] at hs
        exact hs.2
      rw [hserv.text]
  · exact h.leave hpc

theorem Inv.step (hdepth : 0 < depth) (h : Inv npf w) (a : Act P J) :
    Inv npf (step depth npf w a) := by
  cases a with
  | call p job =>
    rw [Kprintf.step]
    split
    · rename_i n hpc
      exact h.call hpc
    · exact h
  | caller p => exact h.caller hdepth p
  | transmit => exact h.transmit

end Steps

section Runs

theorem chars_prefix (out : Formatted) {m n : ℕ} (h : m ≤ n) : out.chars m <+: out.chars n := by
  induction h with
  | refl => exact List.prefix_rfl
  | step _ ih =>
    rw [chars_succ]
    exact ih.trans (List.prefix_append _ _)

theorem Serving.written_prefix {job : J} {pc : Pc J} (h : Serving npf job pc) :
    pc.written <+: (npf job).text := by
  cases pc with
  | returned n => exact h.elim
  | acquire j => exact h.elim
  | format j => exact List.nil_prefix
  | poll out i =>
    obtain ⟨rfl, hfits, hi⟩ := h
    rw [hfits.text]
    exact chars_prefix _ hi
  | write out i =>
    obtain ⟨rfl, hfits, hi⟩ := h
    rw [hfits.text]
    exact chars_prefix _ (Nat.le_of_lt hi)
  | terminal out =>
    obtain ⟨rfl, -⟩ := h
    exact List.prefix_rfl
  | release out =>
    obtain rfl := h
    exact List.prefix_rfl

theorem Serving.shown_prefix {job : J} {pc : Pc J} (h : Serving npf job pc) :
    pc.shown <+: (npf job).text := by
  cases pc with
  | release out =>
    obtain rfl := h
    exact List.prefix_rfl
  | _ => exact List.nil_prefix

/-- Whole messages but for the last one. -/
def Whole (npf : J → Formatted) (order : List (P × J)) (s : List ℕ) : Prop :=
  messages npf order.dropLast <+: s ∧ s <+: messages npf order

omit [DecidableEq P] in
theorem Whole.all (order : List (P × J)) : Whole npf order (messages npf order) := by
  refine ⟨?_, List.prefix_rfl⟩
  obtain ⟨last, hlast⟩ := List.dropLast_prefix order
  rw [messages, messages]
  nth_rewrite 2 [← hlast]
  rw [List.flatMap_append]
  exact List.prefix_append _ _

omit [DecidableEq P] in
theorem Whole.part {before : List (P × J)} {job : J} {s : List ℕ} (hs : s <+: (npf job).text) :
    Whole npf (before ++ [(p, job)]) (messages npf before ++ s) := by
  rw [Whole, List.dropLast_concat, messages_append]
  exact ⟨List.prefix_append _ _, (List.prefix_append_right_inj _).mpr hs⟩

theorem Inv.whole (h : Inv npf w) : Whole npf w.order w.uart.accepted ∧
    ∀ t, w.screen = some t → Whole npf w.order t := by
  rcases hlock : w.lock with _ | _
  · obtain ⟨huart, hscreen⟩ := h.free hlock
    rw [huart]
    exact ⟨.all _, fun t ht => hscreen t ht ▸ .all _⟩
  · obtain ⟨p, hp⟩ := h.guarded.held.mp hlock
    obtain ⟨before, job, hb⟩ := h.busy p hp
    rw [hb.order, hb.uart]
    exact ⟨.part hb.serving.written_prefix, fun t ht => hb.screen t ht ▸
      .part hb.serving.shown_prefix⟩

variable (P J) in
/-- Nobody prints yet; the terminal may be there. -/
def start (terminal : Bool) : World P J := { screen := if terminal then some [] else none }

theorem start_inv (npf : J → Formatted) (terminal : Bool) : Inv npf (start P J terminal) := by
  have hout : ∀ p, ¬ ((start P J terminal).callers p).Inside := fun p => id
  refine ⟨⟨⟨fun h => absurd h (by simp [start]), fun ⟨p, hp⟩ => absurd hp (hout p)⟩,
    fun p _ hp => absurd hp (hout p)⟩, fun _ => ⟨rfl, fun t ht => ?_⟩,
    fun p hp => absurd hp (hout p), fun p => trivial, fun p => rfl⟩
  cases terminal with
  | false => exact absurd ht (by simp [start])
  | true => exact (Option.some.inj ht).symm

theorem run_inv (hdepth : 0 < depth) (npf : J → Formatted) (terminal : Bool)
    (acts : List (Act P J)) : Inv npf (run (step depth npf) (start P J terminal) acts) := by
  apply run_invariant (fun w a h _ => h.step hdepth a) (start_inv npf terminal)
  exact along_of_forall (P := fun _ => True) fun _ _ => trivial

/-- In any order of the steps, the line and the terminal take the messages one
after the other in the order in which the lock was acquired, whole but for the
last one, and each caller's calls keep their order. -/
theorem messages_in_turn (depth : ℕ) (hdepth : 0 < depth) (npf : J → Formatted) (terminal : Bool)
    (acts : List (Act P J)) :
    let w := run (step depth npf) (start P J terminal) acts
    Whole npf w.order w.uart.accepted ∧ (∀ t, w.screen = some t → Whole npf w.order t) ∧
      (w.lock = false → w.uart.accepted = messages npf w.order ∧
        ∀ t, w.screen = some t → t = messages npf w.order) ∧
      ∀ p, own p w.called = own p w.order ++ (w.callers p).waiting := by
  have h := run_inv hdepth npf terminal acts
  exact ⟨h.whole.1, h.whole.2, h.free, h.turns⟩

/-- Two callers ask at once; the second waits for the lock. -/
def twoCallers : List (Act ℕ (List ℕ)) :=
  [.call 0 [72, 105], .call 1 [33], .caller 0, .caller 1, .caller 0, .caller 0, .caller 0,
    .caller 1, .caller 0, .transmit, .caller 0]

def plain (text : List ℕ) : Formatted := ⟨text.length, fun i => text.getD i 0⟩

theorem messages_in_turn_two :
    let w := run (step 1 plain) (start ℕ (List ℕ) true) twoCallers
    w.uart = ⟨[], [72]⟩ ∧ Whole plain w.order w.uart.accepted := by
  refine ⟨by decide +kernel, ?_⟩
  exact (messages_in_turn 1 (by decide) plain true twoCallers).1

end Runs

end Emk.Kprintf
