import Emk.ByteMemory
import Emk.Calls

/-!
# Reading memory under a log

Calls that read bytes of a memory they do not change. The addresses read are
logged in order, and a call that panics leaves its text behind, so that what
was read is known for completed and for abandoned calls alike.

A body of records that know their own lengths is covered by the records that
a walk over it visits.
-/

set_option autoImplicit false

namespace Emk.ReadLog
open Emk.ByteMemory Emk.Calls

structure Scan (G : Type) where
  globals : G
  reads : List ℕ
  panic : Option String

variable {G α β : Type}

def logged (t : Scan G) (l : List ℕ) : Scan G := { t with reads := t.reads ++ l }

def peek (m : Mem) (a n : ℕ) : Call (Scan G) ℕ :=
  fun t => (some (load m a n), logged t (List.range' a n))

def halt (text : String) : Call (Scan G) α := fun t => (none, { t with panic := some text })

def assign (f : G → G) : Call (Scan G) Unit := update fun t => { t with globals := f t.globals }

/-- Fields at offsets and with widths of their own. -/
def peekAll (m : Mem) (a : ℕ) : List (ℕ × ℕ) → Call (Scan G) Unit
  | [] => pure ()
  | f::fs => do
    let _ ← peek m (a+f.1) f.2
    peekAll m a fs

theorem logged_nil (t : Scan G) : logged t [] = t := by rw [logged, List.append_nil]

theorem logged_logged (t : Scan G) (l l' : List ℕ) :
    logged (logged t l) l' = logged t (l ++ l') := by
  rw [logged, logged, logged, List.append_assoc]

theorem peek_bind (m : Mem) (a n : ℕ) (f : ℕ → Call (Scan G) β) (t : Scan G) :
    (peek m a n >>= f) t = f (load m a n) (logged t (List.range' a n)) := rfl

theorem assign_bind (g : G → G) (f : Unit → Call (Scan G) β) (t : Scan G) :
    (assign g >>= f) t = f () { t with globals := g t.globals } := rfl

/-- The addresses of the fields. -/
def fieldBytes (a : ℕ) (fs : List (ℕ × ℕ)) : List ℕ := fs.flatMap fun f => List.range' (a+f.1) f.2

theorem peekAll_apply (m : Mem) (a : ℕ) (fs : List (ℕ × ℕ)) (t : Scan G) :
    peekAll m a fs t = (some (), logged t (fieldBytes a fs)) := by
  induction fs generalizing t with
  | nil => rw [fieldBytes, List.flatMap_nil, logged_nil, peekAll, pure_apply]
  | cons f fs ih =>
    rw [peekAll, peek_bind, ih, logged_logged]
    rfl

theorem mem_fieldBytes {a n x : ℕ} {fs : List (ℕ × ℕ)} (h : ∀ f ∈ fs, f.1+f.2 ≤ n)
    (hx : x ∈ fieldBytes a fs) : a ≤ x ∧ x < a+n := by
  obtain ⟨f, hf, hin⟩ := List.mem_flatMap.mp hx
  have := h f hf
  rw [List.mem_range'_1] at hin
  omega

/-- The call returns, and does nothing but read. -/
def OnlyReads (c : Call (Scan G) α) : Prop :=
  ∀ t, ∃ r l, c t = (some r, logged t l)

theorem OnlyReads.bind {c : Call (Scan G) α} {f : α → Call (Scan G) β}
    (hc : OnlyReads c) (hf : ∀ a, OnlyReads (f a)) : OnlyReads (c >>= f) := by
  intro t
  obtain ⟨a, l, h⟩ := hc t
  obtain ⟨b, l', h'⟩ := hf a (logged t l)
  rw [bind_of_returned h, h', logged_logged]
  exact ⟨b, l ++ l', rfl⟩

theorem onlyReads_pure (a : α) : OnlyReads (pure a : Call (Scan G) α) :=
  fun t => ⟨a, [], by rw [logged_nil, pure_apply]⟩

theorem onlyReads_peek (m : Mem) (a n : ℕ) : OnlyReads (peek m a n : Call (Scan G) ℕ) :=
  fun _ => ⟨_, _, rfl⟩

section Then
variable {g : G} {R : Set ℕ} {c d e : Call (Scan G) α}

/-- From the globals `g` the call reads inside `R`, does nothing else, and
goes on as the call `d`. -/
def ReadsThen (g : G) (R : Set ℕ) (c d : Call (Scan G) α) : Prop :=
  ∀ t, t.globals = g → ∃ l, (∀ x ∈ l, x ∈ R) ∧ c t = d (logged t l)

theorem ReadsThen.refl (g : G) (R : Set ℕ) (c : Call (Scan G) α) : ReadsThen g R c c :=
  fun t _ => ⟨[], by simp, by rw [logged_nil]⟩

theorem ReadsThen.trans (h : ReadsThen g R c d) (h' : ReadsThen g R d e) : ReadsThen g R c e := by
  intro t ht
  obtain ⟨l, hl, hc⟩ := h t ht
  obtain ⟨l', hl', hd⟩ := h' (logged t l) ht
  refine ⟨l ++ l', fun x hx => ?_, by rw [hc, hd, logged_logged]⟩
  exact (List.mem_append.mp hx).elim (hl x) (hl' x)

/-- What follows is given the value that the reads determine. -/
theorem ReadsThen.bind {a : α} (h : ReadsThen g R c (pure a)) (f : α → Call (Scan G) β) :
    ReadsThen g R (c >>= f) (f a) := by
  intro t ht
  obtain ⟨l, hl, hc⟩ := h t ht
  exact ⟨l, hl, by rw [bind_of_returned hc]⟩

end Then

section Records
variable {len : ℕ → ℕ} {a b c : ℕ} {xs ys : List ℕ}

/-- Records at the offsets `xs`, each as long as `len` says, fill the space
from `a` to `b`. -/
def Covers (len : ℕ → ℕ) : ℕ → List ℕ → ℕ → Prop
  | a, [], b => a = b
  | a, x::xs, b => x = a ∧ 0 < len a ∧ Covers len (a+len a) xs b

theorem Covers.le (h : Covers len a xs b) : a ≤ b := by
  induction xs generalizing a with
  | nil => exact h.le
  | cons x xs ih =>
    have := ih h.2.2
    omega

theorem Covers.inside (h : Covers len a xs b) {x : ℕ} (hx : x ∈ xs) :
    a ≤ x ∧ x+len x ≤ b ∧ 0 < len x := by
  induction xs generalizing a with
  | nil => exact absurd hx List.not_mem_nil
  | cons y ys ih =>
    obtain ⟨rfl, hpos, hrest⟩ := h
    rcases List.mem_cons.mp hx with rfl | hin
    · exact ⟨le_rfl, hrest.le, hpos⟩
    · obtain ⟨h1, h2, h3⟩ := ih hrest hin
      exact ⟨by omega, h2, h3⟩

theorem Covers.length_le (h : Covers len a xs b) : a+xs.length ≤ b := by
  induction xs generalizing a with
  | nil => exact h.le
  | cons x xs ih =>
    obtain ⟨-, hpos, hrest⟩ := h
    have := ih hrest
    rw [List.length_cons]
    omega

end Records

end Emk.ReadLog
