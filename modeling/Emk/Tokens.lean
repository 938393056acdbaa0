import Mathlib.Data.List.TakeWhile
import Mathlib.Data.List.Infix

/-!
# Tokens of a string

A token is a maximal run of symbols other than the separator, given by its
place in the string. A scan from the left drops separators and whole tokens;
what it drops moves the places of the tokens behind and adds none.
-/

set_option autoImplicit false

namespace Emk.Tokens

variable {α : Type} {sep : α} {P : List α → Prop} {cs pre t post pre' t' post' w rest : List α}

/-- The text behind a run starts with the separator, if there is any. -/
def Stops (sep : α) (rest : List α) : Prop := ∀ c ∈ rest.head?, c = sep

/-- `t` is a maximal run without the separator, between `pre` and `post`. -/
structure Token (sep : α) (cs pre t post : List α) : Prop where
  split : cs = pre ++ (t ++ post)
  nonempty : t ≠ []
  clean : sep ∉ t
  left : ∀ c ∈ pre.getLast?, c = sep
  right : Stops sep post

/-- The first token with a property. -/
structure First (sep : α) (P : List α → Prop) (cs pre t post : List α) : Prop where
  token : Token sep cs pre t post
  holds : P t
  least : ∀ pre' t' post', Token sep cs pre' t' post' → P t' → pre.length ≤ pre'.length

def Absent (sep : α) (P : List α → Prop) (cs : List α) : Prop :=
  ∀ pre t post, Token sep cs pre t post → ¬P t

/-- A run without the separator that stops at one is determined by the text. -/
theorem run_unique (hw : sep ∉ w) (ht : sep ∉ t) (hrest : Stops sep rest) (hpost : Stops sep post)
    (h : w ++ rest = t ++ post) : w = t ∧ rest = post := by
  rcases List.append_eq_append_iff.mp h with ⟨u, rfl, hu⟩ | ⟨u, rfl, hu⟩
  · cases u with
    | nil => exact ⟨(List.append_nil w).symm, hu⟩
    | cons c u =>
      obtain rfl : c = sep := hrest c (by rw [hu]; rfl)
      exact absurd (List.mem_append_right w List.mem_cons_self) ht
  · cases u with
    | nil => exact ⟨List.append_nil t, hu.symm⟩
    | cons c u =>
      obtain rfl : c = sep := hpost c (by rw [hu]; rfl)
      exact absurd (List.mem_append_right t List.mem_cons_self) hw

/-- The text `w` in front of `cs` can be dropped in search of a token with the
property. -/
def Droppable (sep : α) (P : List α → Prop) (w cs : List α) : Prop :=
  ∀ pre t post, P t → (Token sep (w ++ cs) pre t post ↔
    ∃ pre', pre = w ++ pre' ∧ Token sep cs pre' t post)

theorem Droppable.absent (h : Droppable sep P w cs) (ha : Absent sep P cs) :
    Absent sep P (w ++ cs) := by
  intro pre t post ht hP
  obtain ⟨pre', -, ht'⟩ := (h pre t post hP).mp ht
  exact ha pre' t post ht' hP

theorem Droppable.first (h : Droppable sep P w cs) (hf : First sep P cs pre t post) :
    First sep P (w ++ cs) (w ++ pre) t post := by
  refine ⟨(h _ t post hf.holds).mpr ⟨pre, rfl, hf.token⟩, hf.holds, fun pre' t' post' ht' hP' => ?_⟩
  obtain ⟨q, rfl, hq⟩ := (h pre' t' post' hP').mp ht'
  have := hf.least q t' post' hq hP'
  rw [List.length_append, List.length_append]
  omega

theorem First.unique (h : First sep P cs pre t post) (h' : First sep P cs pre' t' post') :
    pre = pre' ∧ t = t' ∧ post = post' := by
  have hlen : pre.length = pre'.length :=
    le_antisymm (h.least pre' t' post' h'.token h'.holds) (h'.least pre t post h.token h.holds)
  obtain ⟨rfl, hrun⟩ := List.append_inj (h.token.split.symm.trans h'.token.split) hlen
  exact ⟨rfl, run_unique h.token.clean h'.token.clean h.token.right h'.token.right hrun⟩

section Scan
variable [DecidableEq α]

end Scan

end Emk.Tokens
