import Emk.ByteMemory

/-!
# Memory seen through a placement

Addresses are placed somewhere in a memory, and the memory itself may decide
where. On a set of addresses whose places are distinct and do not depend on
what is stored there, loads and stores through the placement behave as on a
memory of its own.
-/

set_option autoImplicit false

namespace Emk.SeenMemory
open Emk.ByteMemory

variable (place : Mem → ℕ → ℕ)

def seen (m : Mem) : Mem := fun v => m (place m v)

/-- One byte stored at `v`. -/
def poke (m : Mem) (v : ℕ) (c : UInt8) : Mem := fill m (place m v) c 1

/-- The `n` bytes that `vm` has from `a` on, stored one after the other. -/
def pokes (vm : Mem) (a : ℕ) : ℕ → Mem → Mem
  | 0, m => m
  | n+1, m => poke place (pokes vm a n m) (a+n) (vm (a+n))

/-- The addresses of `S` have places of their own, and what is stored there
moves no address. -/
structure Steady (S : Set ℕ) (m : Mem) : Prop where
  apart : Set.InjOn (place m) S
  kept : ∀ m', Set.EqOn m' m (Set.image (place m) S)ᶜ → place m' = place m

/-- From `m` to `m'` the bytes seen in `W` become those of `vm`. -/
structure Stored (S W : Set ℕ) (vm m m' : Mem) : Prop where
  place_eq : place m' = place m
  inside : ∀ x ∈ W, seen place m' x = vm x
  outside : ∀ x ∈ S, x ∉ W → seen place m' x = seen place m x
  rest : Set.EqOn m' m (Set.image (place m) W)ᶜ

variable {place} {S W : Set ℕ} {vm m m' : Mem} {v a n : ℕ} {c : UInt8}

theorem Stored.steady (h : Stored place S W vm m m') (hs : Steady place S m) (hW : W ⊆ S) :
    Steady place S m' where
  apart := by
    rw [h.place_eq]
    exact hs.apart
  kept := by
    intro m'' hm
    rw [h.place_eq] at hm ⊢
    apply hs.kept
    intro x hx
    have hout : x ∉ Set.image (place m) W := fun hin => hx (Set.image_mono hW hin)
    exact (hm hx).trans (h.rest hout)

theorem poke_outside {x : ℕ} (hx : x ≠ place m v) : poke place m v c x = m x := by
  apply fill_outside
  rw [mem_range]
  omega

theorem poke_inside : poke place m v c (place m v) = c := by
  apply fill_inside
  rw [mem_range]
  omega

/-- One byte stored is seen where it was stored and nowhere else. -/
theorem poke_stored (hs : Steady place S m) (hv : v ∈ S) :
    Stored place S {v} (fun _ => c) m (poke place m v c) := by
  have hrest : Set.EqOn (poke place m v c) m (Set.image (place m) {v})ᶜ := by
    intro x hx
    apply poke_outside
    rintro rfl
    exact hx ⟨v, rfl, rfl⟩
  have hplace : place (poke place m v c) = place m := by
    apply hs.kept
    intro x hx
    apply hrest
    exact fun hin => hx (Set.image_mono (Set.singleton_subset_iff.mpr hv) hin)
  refine ⟨hplace, ?_, ?_, hrest⟩
  · rintro x rfl
    rw [seen, hplace]
    exact poke_inside
  · intro x hx hne
    rw [seen, hplace]
    apply poke_outside
    intro he
    exact hne (hs.apart hx hv he)

variable (vm) in
/-- Bytes stored one after the other are seen together. -/
theorem pokes_stored (hs : Steady place S m) (hsub : Range a n ⊆ S) :
    Stored place S (Range a n) vm m (pokes place vm a n m) := by
  induction n with
  | zero =>
    refine ⟨rfl, ?_, fun _ _ _ => rfl, fun _ _ => rfl⟩
    intro x hx
    rw [mem_range] at hx
    omega
  | succ n ih =>
    have hless : Range a n ⊆ Range a (n+1) := by
      intro x hx
      rw [mem_range] at hx ⊢
      omega
    have hfirst := ih (hless.trans hsub)
    have hlast : a+n ∈ S := hsub (by rw [mem_range]; omega)
    have hone := poke_stored (c := vm (a+n)) (hfirst.steady hs (hless.trans hsub)) hlast
    rw [pokes]
    refine ⟨hone.place_eq.trans hfirst.place_eq, ?_, ?_, ?_⟩
    · intro x hx
      by_cases heq : x = a+n
      · rw [hone.inside x heq, heq]
      · rw [hone.outside x (hsub hx) heq]
        apply hfirst.inside
        rw [mem_range] at hx ⊢
        omega
    · intro x hx hout
      have hne : x ≠ a+n := by
        rintro rfl
        exact hout (by rw [mem_range]; omega)
      exact (hone.outside x hx hne).trans (hfirst.outside x hx (fun hin => hout (hless hin)))
    · intro x hx
      have hne : x ∉ Set.image (place (pokes place vm a n m)) {a+n} := by
        rintro ⟨y, rfl, rfl⟩
        rw [hfirst.place_eq] at hx
        exact hx ⟨a+n, by rw [mem_range]; omega, rfl⟩
      exact (hone.rest hne).trans (hfirst.rest (fun hin => hx (Set.image_mono hless hin)))

end Emk.SeenMemory
