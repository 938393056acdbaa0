import Mathlib.Data.Set.Basic
import Mathlib.Data.List.Infix

/-!
# Forests of bounded depth stored as a child function

Several roots may share subtrees. A path lists the indices taken from a
root, the deepest first. `Separate` says that a node is found along one path
only, and from two different roots only when that path is of a shared kind.
An update of one child then reaches exactly the paths that go through it.
-/

set_option autoImplicit false

namespace Emk.RadixForest

variable {N I : Type*}

def descend (child : N → I → Option N) (root : N) : List I → Option N
  | [] => some root
  | i::p => (descend child root p).bind (fun t => child t i)

/-- The nodes at depth at most `depth` under one of the roots. -/
def Nodes (child : N → I → Option N) (roots : Set N) (depth : ℕ) : Set N :=
  {t | ∃ r ∈ roots, ∃ p : List I, p.length ≤ depth ∧ descend child r p = some t}

def Separate (child : N → I → Option N) (roots : Set N) (depth : ℕ) (Shared : List I → Prop) :
    Prop :=
  ∀ r ∈ roots, ∀ r' ∈ roots, ∀ (p q : List I) (t : N), p.length ≤ depth → q.length ≤ depth →
    descend child r p = some t → descend child r' q = some t → p = q ∧ (r = r' ∨ Shared p)

variable {child child' : N → I → Option N} {roots : Set N} {depth : ℕ} {Shared : List I → Prop}

theorem descend_cons {r : N} {p : List I} {i : I} {t : N} (h : descend child r (i::p) = some t) :
    ∃ u, descend child r p = some u ∧ child u i = some t := by
  simpa [descend, Option.bind_eq_some_iff] using h

theorem descend_congr (h : ∀ t ∈ Nodes child roots depth, ∀ i, child' t i = child t i)
    {r : N} (hr : r ∈ roots) (p : List I) (hp : p.length ≤ depth+1) :
    descend child' r p = descend child r p := by
  induction p with
  | nil => rfl
  | cons i p ih =>
    have hlen : p.length ≤ depth := by simpa using hp
    rw [descend, descend, ih (by omega)]
    cases ht : descend child r p with
    | none => rfl
    | some t => exact h t ⟨r, hr, p, hlen, ht⟩ i

theorem Separate.congr (hs : Separate child roots depth Shared)
    (h : ∀ r ∈ roots, ∀ p : List I, p.length ≤ depth → descend child' r p = descend child r p) :
    Separate child' roots depth Shared := by
  intro r hr r' hr' p q t hp hq h1 h2
  rw [h r hr p hp] at h1
  rw [h r' hr' q hq] at h2
  exact hs r hr r' hr' p q t hp hq h1 h2

theorem Nodes_congr
    (h : ∀ r ∈ roots, ∀ p : List I, p.length ≤ depth → descend child' r p = descend child r p) :
    Nodes child' roots depth = Nodes child roots depth := by
  ext t
  constructor
  · rintro ⟨r, hr, p, hp, ht⟩
    exact ⟨r, hr, p, hp, by rwa [h r hr p hp] at ht⟩
  · rintro ⟨r, hr, p, hp, ht⟩
    exact ⟨r, hr, p, hp, by rwa [h r hr p hp]⟩

/-- Only paths through the updated child can lead elsewhere. -/
theorem descend_update (hs : Separate child roots depth Shared) {r₀ : N} (hr₀ : r₀ ∈ roots)
    {p : List I} (hp : p.length ≤ depth) {t : N} (ht : descend child r₀ p = some t) {i : I}
    (h : ∀ u ∈ Nodes child roots depth, ∀ j, (u ≠ t ∨ j ≠ i) → child' u j = child u j)
    {r : N} (hr : r ∈ roots) (q : List I) (hq : q.length ≤ depth+1) (hout : ¬ (i::p) <:+ q) :
    descend child' r q = descend child r q := by
  induction q with
  | nil => rfl
  | cons j q ih =>
    have hlen : q.length ≤ depth := by simpa using hq
    rw [descend, descend, ih (by omega) (fun hsuf => hout (hsuf.trans (List.suffix_cons j q)))]
    cases hu : descend child r q with
    | none => rfl
    | some u =>
      apply h u ⟨r, hr, q, hlen, hu⟩
      by_contra hboth
      push Not at hboth
      obtain ⟨rfl, rfl⟩ := hboth
      have hqp := (hs r hr r₀ hr₀ q p u hlen hp hu ht).1
      exact hout (by rw [hqp])

/-- A fresh childless node attached under `t` at an empty index. -/
theorem descend_attach (hs : Separate child roots depth Shared) {r₀ : N} (hr₀ : r₀ ∈ roots)
    {p : List I} (hp : p.length < depth) {t : N} (ht : descend child r₀ p = some t) {i : I}
    {f : N} (hempty : child t i = none) (hnew : child' t i = some f)
    (hf : ∀ j, child' f j = none)
    (h : ∀ u ∈ Nodes child roots depth, ∀ j, (u ≠ t ∨ j ≠ i) → child' u j = child u j)
    {r : N} (hr : r ∈ roots) (q : List I) (hq : q.length ≤ depth) :
    descend child' r q = descend child r q ∨
      (q = i::p ∧ descend child r p = some t ∧ descend child r q = none ∧
        descend child' r q = some f) := by
  induction q with
  | nil => exact .inl rfl
  | cons j q ih =>
    have hlen : q.length < depth := by simpa [Nat.succ_le_iff] using hq
    rcases ih (by omega) with hsame | ⟨-, -, hold, hnow⟩
    · cases hu : descend child r q with
      | none =>
        left
        rw [descend, descend, hsame, hu]
        rfl
      | some u =>
        by_cases hboth : u = t ∧ j = i
        · obtain ⟨rfl, rfl⟩ := hboth
          have hqp := (hs r hr r₀ hr₀ q p u (by omega) (by omega) hu ht).1
          subst hqp
          right
          refine ⟨rfl, hu, ?_, ?_⟩
          · simpa [descend, hu] using hempty
          · simpa [descend, hsame, hu] using hnew
        · left
          rw [descend, descend, hsame, hu]
          exact h u ⟨r, hr, q, by omega, hu⟩ j (by tauto)
    · left
      simp [descend, hold, hnow, hf]

theorem Separate.attach (hs : Separate child roots depth Shared) {r₀ : N} (hr₀ : r₀ ∈ roots)
    {p : List I} (hp : p.length < depth) {t : N} (ht : descend child r₀ p = some t) {i : I}
    {f : N} (hempty : child t i = none) (hnew : child' t i = some f)
    (hf : ∀ j, child' f j = none)
    (h : ∀ u ∈ Nodes child roots depth, ∀ j, (u ≠ t ∨ j ≠ i) → child' u j = child u j)
    (hfresh : f ∉ Nodes child roots depth) (hcons : ∀ j q, Shared q → Shared (j::q)) :
    Separate child' roots depth Shared := by
  intro r hr r' hr' a b u ha hb h1 h2
  rcases descend_attach hs hr₀ hp ht hempty hnew hf h hr a ha with
    hsame | ⟨rfl, hra, -, hf1⟩ <;>
  rcases descend_attach hs hr₀ hp ht hempty hnew hf h hr' b hb with
    hsame' | ⟨rfl, hrb, -, hf2⟩
  · rw [hsame] at h1
    rw [hsame'] at h2
    exact hs r hr r' hr' a b u ha hb h1 h2
  · rw [hsame] at h1
    rw [hf2] at h2
    obtain rfl := Option.some.inj h2
    exact absurd ⟨r, hr, a, ha, h1⟩ hfresh
  · rw [hsame'] at h2
    rw [hf1] at h1
    obtain rfl := Option.some.inj h1
    exact absurd ⟨r', hr', b, hb, h2⟩ hfresh
  · have hpp := hs r hr r' hr' p p t (by omega) (by omega) hra hrb
    exact ⟨rfl, hpp.2.imp_right (hcons i p)⟩

theorem Nodes_attach (hs : Separate child roots depth Shared) {r₀ : N} (hr₀ : r₀ ∈ roots)
    {p : List I} (hp : p.length < depth) {t : N} (ht : descend child r₀ p = some t) {i : I}
    {f : N} (hempty : child t i = none) (hnew : child' t i = some f)
    (hf : ∀ j, child' f j = none)
    (h : ∀ u ∈ Nodes child roots depth, ∀ j, (u ≠ t ∨ j ≠ i) → child' u j = child u j) :
    Nodes child' roots depth ⊆ insert f (Nodes child roots depth) := by
  rintro u ⟨r, hr, q, hq, hu⟩
  rcases descend_attach hs hr₀ hp ht hempty hnew hf h hr q hq with hsame | ⟨-, -, -, hnow⟩
  · exact .inr ⟨r, hr, q, hq, by rwa [hsame] at hu⟩
  · rw [hnow] at hu
    exact .inl (Option.some.inj hu).symm

section Prune

/-- A path that is left when children are only taken away was there before. -/
theorem descend_of_pruned
    (h : ∀ u ∈ Nodes child roots depth, ∀ j t, child' u j = some t → child u j = some t)
    {r : N} (hr : r ∈ roots) (q : List I) (hq : q.length ≤ depth+1) {t : N}
    (ht : descend child' r q = some t) : descend child r q = some t := by
  induction q generalizing t with
  | nil => exact ht
  | cons j q ih =>
    have hlen : q.length ≤ depth := by simpa using hq
    obtain ⟨u, hu, hc⟩ := descend_cons ht
    have hold := ih (by omega) hu
    rw [descend, hold, Option.bind_some]
    exact h u ⟨r, hr, q, hlen, hold⟩ j t hc

theorem Nodes_of_pruned
    (h : ∀ u ∈ Nodes child roots depth, ∀ j t, child' u j = some t → child u j = some t) :
    Nodes child' roots depth ⊆ Nodes child roots depth := by
  rintro t ⟨r, hr, p, hp, ht⟩
  exact ⟨r, hr, p, hp, descend_of_pruned h hr p (by omega) ht⟩

theorem Separate.of_pruned (hs : Separate child roots depth Shared)
    (h : ∀ u ∈ Nodes child roots depth, ∀ j t, child' u j = some t → child u j = some t) :
    Separate child' roots depth Shared := by
  intro r hr r' hr' p q t hp hq h1 h2
  exact hs r hr r' hr' p q t hp hq (descend_of_pruned h hr p (by omega) h1)
    (descend_of_pruned h hr' q (by omega) h2)

end Prune

end Emk.RadixForest
