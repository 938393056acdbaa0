import Mathlib.Order.Interval.Set.Basic
import Mathlib.Order.Interval.Set.Disjoint
import Mathlib.Data.List.Pairwise
import Mathlib.Order.CompletePartialOrder

/-!
# Spans in order

A list of half-open spans of a linear order, sorted by their lower ends and
pairwise disjoint. A new span that begins where a listed one ends joins the
list right behind it exactly when there is room for it.
-/

set_option autoImplicit false

namespace Emk.OrderedSpans

variable {α : Type*} [LinearOrder α]

structure Span (α : Type*) where
  lo : α
  hi : α
  deriving DecidableEq, Repr

def Span.points (r : Span α) : Set α := Set.Ico r.lo r.hi

def Sorted (l : List (Span α)) : Prop := l.Pairwise (fun r q => r.lo ≤ q.lo)

structure Arranged (l : List (Span α)) : Prop where
  proper : ∀ r ∈ l, r.lo ≤ r.hi
  sorted : Sorted l
  apart : l.Pairwise (fun r q => Disjoint r.points q.points)

variable {pre post : List (Span α)} {x : Span α} {e : α}

/-- Nothing before `x` reaches past its end, and up to `e` nothing follows. -/
def RoomBehind (pre : List (Span α)) (x : Span α) (post : List (Span α)) (e : α) : Prop :=
  (∀ y ∈ pre, y.hi ≤ x.hi) ∧ ∀ y ∈ post, x.hi ≤ y.lo ∧ (y.hi ≤ y.lo ∨ e ≤ y.lo)

instance decidableSorted (l : List (Span α)) : Decidable (Sorted l) :=
  inferInstanceAs (Decidable (List.Pairwise _ _))

instance decidableRoomBehind (pre : List (Span α)) (x : Span α) (post : List (Span α)) (e : α) :
    Decidable (RoomBehind pre x post e) :=
  inferInstanceAs (Decidable ((∀ _ ∈ pre, _) ∧ ∀ _ ∈ post, _))

theorem apart_iff {r q : Span α} :
    Disjoint r.points q.points ↔ min r.hi q.hi ≤ max r.lo q.lo := Set.Ico_disjoint_Ico

theorem apart_before {r q : Span α} (h : Disjoint r.points q.points) (hr : r.lo < r.hi)
    (hle : q.lo ≤ r.lo) : q.hi ≤ r.lo := by
  rw [apart_iff, max_eq_left hle, min_le_iff] at h
  exact h.resolve_left (not_le.mpr hr)

theorem apart_of_le {r q : Span α} (h : q.hi ≤ q.lo ∨ q.hi ≤ r.lo ∨ r.hi ≤ q.lo) :
    Disjoint r.points q.points := by
  rw [apart_iff, min_le_iff]
  rcases h with h | h | h
  · exact .inr (h.trans (le_max_right _ _))
  · exact .inr (h.trans (le_max_left _ _))
  · exact .inl (h.trans (le_max_right _ _))

/-- An end of `r` lies in `q`, or `r` covers `q`. -/
def Hits (r q : Span α) : Prop :=
  (q.lo ≤ r.lo ∧ r.lo < q.hi) ∨ (q.lo < r.hi ∧ r.hi ≤ q.hi) ∨ (r.lo ≤ q.lo ∧ q.hi ≤ r.hi)

/-- For spans with points the three comparisons decide whether they meet. -/
theorem hits_iff {r q : Span α} (hr : r.lo < r.hi) (hq : q.lo < q.hi) :
    Hits r q ↔ ¬ Disjoint r.points q.points := by
  rw [apart_iff, not_le, lt_min_iff, max_lt_iff, max_lt_iff]
  constructor
  · rintro (⟨h1, h2⟩ | ⟨h1, h2⟩ | ⟨h1, h2⟩)
    · exact ⟨⟨hr, lt_of_le_of_lt h1 hr⟩, h2, hq⟩
    · exact ⟨⟨hr, h1⟩, lt_of_lt_of_le hr h2, hq⟩
    · exact ⟨⟨hr, lt_of_lt_of_le hq h2⟩, lt_of_le_of_lt h1 hq, hq⟩
  · rintro ⟨⟨-, h1⟩, h2, -⟩
    by_cases hlo : q.lo ≤ r.lo
    · exact .inl ⟨hlo, h2⟩
    · by_cases hhi : r.hi ≤ q.hi
      · exact .inr (.inl ⟨h1, hhi⟩)
      · exact .inr (.inr ⟨le_of_lt (not_le.mp hlo), le_of_lt (not_le.mp hhi)⟩)

/-- An empty span is hit wherever it lies from one end to the other. -/
theorem hits_empty {r q : Span α} (hq : q.hi = q.lo) :
    Hits r q ↔ r.lo ≤ q.lo ∧ q.lo ≤ r.hi := by
  rw [Hits, hq]
  constructor
  · rintro (⟨h1, h2⟩ | ⟨h1, h2⟩ | h)
    · exact absurd h2 (not_lt.mpr h1)
    · exact absurd h1 (not_lt.mpr h2)
    · exact h
  · exact fun h => .inr (.inr h)

theorem sorted_insert {new : Span α} (h : Sorted (pre ++ x::post)) (hx : x.lo ≤ new.lo) :
    Sorted (pre ++ x::new::post) ↔ ∀ y ∈ post, new.lo ≤ y.lo := by
  obtain ⟨hpre, htail, hcross⟩ := List.pairwise_append.mp h
  obtain ⟨hfirst, hpost⟩ := List.pairwise_cons.mp htail
  constructor
  · intro hs y hy
    obtain ⟨-, hs, -⟩ := List.pairwise_append.mp hs
    exact (List.pairwise_cons.mp (List.pairwise_cons.mp hs).2).1 y hy
  · intro hroom
    refine List.pairwise_append.mpr ⟨hpre, ?_, ?_⟩
    · refine List.pairwise_cons.mpr ⟨fun y hy => ?_, List.pairwise_cons.mpr ⟨hroom, hpost⟩⟩
      rcases List.mem_cons.mp hy with rfl | hy
      · exact hx
      · exact hfirst y hy
    · intro y hy z hz
      have hyx := hcross y hy x (by simp)
      rcases List.mem_cons.mp hz with rfl | hz
      · exact hyx
      · rcases List.mem_cons.mp hz with rfl | hz
        · exact hyx.trans hx
        · exact hcross y hy z (by simp [hz])

/-- A span behind `x` keeps clear of all others and the list in order exactly
when there is room behind `x`. -/
theorem Arranged.insert_iff (h : Arranged (pre ++ x::post)) (he : x.hi < e) :
    ((∀ y ∈ pre ++ x::post, Disjoint (Span.mk x.hi e).points y.points) ∧
      Sorted (pre ++ x::⟨x.hi, e⟩::post)) ↔ RoomBehind pre x post e := by
  have hx : x.lo ≤ x.hi := h.proper x (by simp)
  rw [sorted_insert h.sorted hx]
  constructor
  · rintro ⟨hapart, hsorted⟩
    refine ⟨fun y hy => ?_, fun y hy => ⟨hsorted y hy, ?_⟩⟩
    · have hle : y.lo ≤ x.lo := (List.pairwise_append.mp h.sorted).2.2 y hy x (by simp)
      exact apart_before (hapart y (by simp [hy])) he (hle.trans hx)
    · by_cases hempty : y.hi ≤ y.lo
      · exact .inl hempty
      · exact .inr (apart_before (hapart y (by simp [hy])).symm (not_le.mp hempty)
          (hsorted y hy))
  · rintro ⟨hbefore, hbehind⟩
    refine ⟨fun y hy => apart_of_le ?_, fun y hy => (hbehind y hy).1⟩
    rcases List.mem_append.mp hy with hy | hy
    · exact .inr (.inl (hbefore y hy))
    · rcases List.mem_cons.mp hy with rfl | hy
      · exact .inr (.inl le_rfl)
      · exact (hbehind y hy).2.imp_right .inr

end Emk.OrderedSpans
