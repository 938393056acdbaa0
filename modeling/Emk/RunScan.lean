import Mathlib.Order.Lattice.Nat

/-!
# Searching for a run

A scan walks over consecutive positions and counts how many good ones end
right before the current one. It stops at the first run of the wanted length,
and that run is the lowest one in the range scanned.
-/

set_option autoImplicit false

namespace Emk.RunScan

/-- The starts of the runs of `n` good positions between `lo` and `hi`. -/
def Runs (good : ℕ → Bool) (n lo hi : ℕ) : Set ℕ :=
  {p | lo ≤ p ∧ p+n ≤ hi ∧ ∀ k < n, good (p+k) = true}

/-- `c` good positions end right before `j`. -/
def scanRun (good : ℕ → Bool) (n : ℕ) : ℕ → ℕ → ℕ → Option ℕ
  | 0, _, _ => none
  | rounds+1, j, c =>
    if good j then
      if c+1 = n then some (j+1-n) else scanRun good n rounds (j+1) (c+1)
    else scanRun good n rounds (j+1) 0

/-- A search that answers with the least element fails only on the empty set. -/
theorem none_iff_empty {S : Set ℕ} {o : Option ℕ} (h : ∀ p, o = some p ↔ IsLeast S p) :
    o = none ↔ S = ∅ := by
  constructor
  · intro ho
    by_contra hne
    have hleast := (h _).mpr ⟨Nat.sInf_mem (Set.nonempty_iff_ne_empty.mpr hne),
      fun q hq => Nat.sInf_le hq⟩
    rw [ho] at hleast
    exact absurd hleast.symm (Option.some_ne_none _)
  · intro hS
    apply Option.eq_none_iff_forall_ne_some.mpr
    intro p hp
    have hmem := ((h p).mp hp).1
    rwa [hS] at hmem

/-- A bad position ends every run that would reach over it. -/
theorem runs_after_bad (good : ℕ → Bool) (n c j hi : ℕ) (hc : c < n) (hj : good j = false) :
    Runs good n (j-c) hi = Runs good n (j+1) hi := by
  ext p
  constructor
  · rintro ⟨hlo, hhi, hrun⟩
    refine ⟨?_, hhi, hrun⟩
    by_contra hle
    have := hrun (j-p) (by omega)
    rw [show p+(j-p) = j by omega, hj] at this
    exact absurd this Bool.false_ne_true
  · rintro ⟨hlo, hhi, hrun⟩
    exact ⟨by omega, hhi, hrun⟩

/-- The scan returns the lowest run that starts no earlier than the good
positions already counted. -/
theorem scanRun_iff (good : ℕ → Bool) (n rounds j c p : ℕ) (hcn : c < n) (hcj : c ≤ j)
    (hgood : ∀ k, j-c ≤ k → k < j → good k = true) :
    scanRun good n rounds j c = some p ↔ IsLeast (Runs good n (j-c) (j+rounds)) p := by
  induction rounds generalizing j c with
  | zero =>
    refine iff_of_false (Option.some_ne_none p).symm ?_
    rintro ⟨⟨hlo, hhi, -⟩, -⟩
    omega
  | succ rounds ih =>
    rw [scanRun]
    split_ifs with hj heq
    · have hleast : IsLeast (Runs good n (j-c) (j+(rounds+1))) (j+1-n) := by
        refine ⟨⟨by omega, by omega, fun k hk => ?_⟩, fun q hq => ?_⟩
        · by_cases hlast : j+1-n+k = j
          · rw [hlast, hj]
          · exact hgood _ (by omega) (by omega)
        · have := hq.1
          omega
      rw [Option.some_inj]
      exact ⟨fun h => h ▸ hleast, fun h => hleast.unique h⟩
    · rw [ih (j+1) (c+1) (by omega) (by omega)]
      · rw [show j+1-(c+1) = j-c by omega, show j+1+rounds = j+(rounds+1) by omega]
      · intro k hlo hhi
        by_cases hlast : k = j
        · rw [hlast, hj]
        · exact hgood k (by omega) (by omega)
    · rw [ih (j+1) 0 (by omega) (by omega) (fun k hlo hhi => by omega),
        runs_after_bad good n c j _ hcn (Bool.not_eq_true _ ▸ hj),
        show j+1+rounds = j+(rounds+1) by omega, Nat.sub_zero]

/-- Two parts of a range searched one after the other. -/
theorem isLeast_union_iff {A B : Set ℕ} (h : ∀ a ∈ A, ∀ b ∈ B, a < b) (p : ℕ) :
    IsLeast (A ∪ B) p ↔ IsLeast A p ∨ (A = ∅ ∧ IsLeast B p) := by
  constructor
  · rintro ⟨hp | hp, hle⟩
    · exact .inl ⟨hp, fun a ha => hle (.inl ha)⟩
    · refine .inr ⟨Set.eq_empty_iff_forall_notMem.mpr fun a ha => ?_, hp, fun b hb => hle (.inr hb)⟩
      exact absurd (hle (.inl ha)) (not_le.mpr (h a ha p hp))
  · rintro (⟨hp, hle⟩ | ⟨rfl, hleast⟩)
    · refine ⟨.inl hp, ?_⟩
      rintro q (hq | hq)
      · exact hle hq
      · exact le_of_lt (h p hp q hq)
    · rwa [Set.empty_union]

end Emk.RunScan
