import Mathlib.Data.List.Basic
import Mathlib.Logic.Function.Basic

/-!
# A stack of words

A core has registers and a stack that grows towards lower addresses, one word
at a time. Registers that are saved and restored in the opposite order come
back with whatever their words on the stack hold by then.
-/

set_option autoImplicit false

namespace Emk.StackWords

/-- Memory, one word for each address that is a multiple of eight. -/
abbrev Words := ℕ → ℕ

/-- The words from `sp` upwards. -/
def Stacked (m : Words) : ℕ → List ℕ → Prop
  | _, [] => True
  | sp, w::ws => m sp = w ∧ Stacked m (sp+8) ws

section Stacked
variable {m m' : Words} {sp v : ℕ} {ws : List ℕ}

theorem Stacked.congr (h : Stacked m sp ws)
    (hm : ∀ a, sp ≤ a → a < sp+8*ws.length → m' a = m a) : Stacked m' sp ws := by
  induction ws generalizing sp with
  | nil => trivial
  | cons w ws ih =>
    rw [List.length_cons] at hm
    exact ⟨(hm sp (Nat.le_refl sp) (by omega)).trans h.1,
      ih h.2 (fun a ha hlt => hm a (by omega) (by omega))⟩

theorem Stacked.push (h : Stacked m sp ws) (hsp : 8 ≤ sp) :
    Stacked (Function.update m (sp-8) v) (sp-8) (v::ws) := by
  refine ⟨Function.update_self _ _ _, ?_⟩
  rw [Nat.sub_add_cancel hsp]
  exact h.congr fun a ha _ => Function.update_of_ne (by omega) _ _

end Stacked

/-- Registers, the stack pointer and memory. -/
structure Core (R : Type*) where
  reg : R → ℕ
  rsp : ℕ
  mem : Words

namespace Core
variable {R : Type*}

def push (v : ℕ) (c : Core R) : Core R :=
  { c with rsp := c.rsp-8, mem := Function.update c.mem (c.rsp-8) v }

def pushAll (vs : List ℕ) (c : Core R) : Core R := vs.foldl (fun c v => c.push v) c

def save (rs : List R) (c : Core R) : Core R := rs.foldl (fun c r => c.push (c.reg r)) c

section Push
variable {c : Core R} {ws : List ℕ}

@[simp] theorem push_reg (v : ℕ) (c : Core R) : (c.push v).reg = c.reg := rfl

@[simp] theorem push_rsp (v : ℕ) (c : Core R) : (c.push v).rsp = c.rsp-8 := rfl

@[simp] theorem pushAll_cons (v : ℕ) (vs : List ℕ) (c : Core R) :
    c.pushAll (v::vs) = (c.push v).pushAll vs := rfl

theorem pushAll_append (vs us : List ℕ) (c : Core R) :
    c.pushAll (vs ++ us) = (c.pushAll vs).pushAll us := List.foldl_append

theorem pushAll_reg (vs : List ℕ) (c : Core R) : (c.pushAll vs).reg = c.reg := by
  induction vs generalizing c with
  | nil => rfl
  | cons v vs ih => exact ih (c.push v)

theorem pushAll_rsp (vs : List ℕ) (c : Core R) : (c.pushAll vs).rsp = c.rsp-8*vs.length := by
  induction vs generalizing c with
  | nil => rfl
  | cons v vs ih =>
    rw [pushAll_cons, ih, push_rsp, List.length_cons]
    omega

/-- What is pushed lies on the stack, the last word first. -/
theorem pushAll_stacked (vs : List ℕ) (h : Stacked c.mem c.rsp ws) (hsp : 8*vs.length ≤ c.rsp) :
    Stacked (c.pushAll vs).mem (c.pushAll vs).rsp (vs.reverse ++ ws) := by
  induction vs generalizing c ws with
  | nil => exact h
  | cons v vs ih =>
    rw [List.length_cons] at hsp
    rw [pushAll_cons, List.reverse_cons, List.append_assoc]
    exact ih (h.push (by omega)) (by rw [push_rsp]; omega)

theorem stacked_pushAll (c : Core R) (vs : List ℕ) (hsp : 8*vs.length ≤ c.rsp) :
    Stacked (c.pushAll vs).mem (c.pushAll vs).rsp vs.reverse := by
  have h : Stacked (c.pushAll vs).mem (c.pushAll vs).rsp (vs.reverse ++ []) :=
    pushAll_stacked vs trivial hsp
  rwa [List.append_nil] at h

/-- Nothing above the stack pointer changes, nor below what is pushed. -/
theorem pushAll_outside (vs : List ℕ) {a : ℕ} (ha : c.rsp ≤ a ∨ a < c.rsp-8*vs.length)
    (hsp : 8*vs.length ≤ c.rsp) : (c.pushAll vs).mem a = c.mem a := by
  induction vs generalizing c with
  | nil => rfl
  | cons v vs ih =>
    rw [List.length_cons] at ha hsp
    rw [pushAll_cons, ih (by rw [push_rsp]; omega) (by rw [push_rsp]; omega)]
    exact Function.update_of_ne (by omega) _ _

theorem save_eq (rs : List R) (c : Core R) : c.save rs = c.pushAll (rs.map c.reg) := by
  induction rs generalizing c with
  | nil => rfl
  | cons r rs ih => exact ih (c.push (c.reg r))

end Push

section Pop
variable [DecidableEq R]

def pop (r : R) (c : Core R) : Core R :=
  { c with reg := Function.update c.reg r (c.mem c.rsp), rsp := c.rsp+8 }

def restore (rs : List R) (c : Core R) : Core R := rs.foldl (fun c r => c.pop r) c

/-- The registers come back with what the stack holds for them. -/
theorem restore_eq (rs : List R) (f : R → ℕ) (c : Core R)
    (h : Stacked c.mem c.rsp (rs.map f)) :
    c.restore rs = { c with reg := fun r => if r ∈ rs then f r else c.reg r
                            rsp := c.rsp+8*rs.length } := by
  induction rs generalizing c with
  | nil => simp [restore]
  | cons r rs ih =>
    rw [List.map_cons, Stacked] at h
    change (c.pop r).restore rs = _
    rw [ih (c.pop r) h.2, pop, h.1, List.length_cons]
    congr 1
    · funext q
      by_cases hq : q = r
      · simp [hq]
      · simp [hq]
    · dsimp only
      omega

end Pop

end Core

end Emk.StackWords
