import Emk.DirectMap
import Mathlib.Order.CompletePartialOrder

/-!
# The page allocator seen by its clients

Every client of the physical allocator names it through `palloc` and
`pfree`. The contract says what a client may rely on: a granted run of
frames was not owned before, and no call touches the bytes of a frame that
stays owned. In return a client writes only to frames it owns.
-/

set_option autoImplicit false

namespace Emk.PageAllocator
open Emk.ByteMemory Emk.DirectMap

/-- Memory together with the allocator's own variables. -/
structure Phys (σ : Type) where
  mem : Mem
  pmm : σ

structure Ops (σ : Type) where
  palloc : ℕ → Bool → Phys σ → ℕ × Phys σ
  pfree : ℕ → ℕ → Phys σ → Phys σ

/-- The `n` frames from physical address `p` on. -/
def run (p n : ℕ) : Set ℕ := {q | ∃ i < n, q = p+4096*i}

theorem run_one (p : ℕ) : run p 1 = {p} := by
  ext q
  simp [run]

/-- What a client of single pages may rely on. The frames `owned` are those
in use; the allocator's own bytes lie outside them. -/
structure Contract {σ : Type} (D : Layout) (A : Ops σ) where
  Valid : Phys σ → Prop
  owned : Phys σ → Set ℕ
  owned_frame : ∀ {s}, Valid s → ∀ p ∈ owned s, p % 4096 = 0 ∧ p+4096 ≤ D.top
  palloc_valid : ∀ {s}, Valid s → ∀ hh, Valid (A.palloc 1 hh s).2
  palloc_keeps : ∀ {s}, Valid s → ∀ hh,
    Set.EqOn (A.palloc 1 hh s).2.mem s.mem (frames D (owned s))
  palloc_null : ∀ {s}, Valid s → ∀ hh, (A.palloc 1 hh s).1 = 0 →
    owned s ⊆ owned (A.palloc 1 hh s).2
  palloc_grant : ∀ {s}, Valid s → ∀ hh, (A.palloc 1 hh s).1 ≠ 0 → ∃ p,
    (A.palloc 1 hh s).1 = (if hh then D.hhdmOffset+p else p) ∧ p % 4096 = 0 ∧
    p+4096 ≤ D.top ∧ p ∉ owned s ∧ owned (A.palloc 1 hh s).2 = insert p (owned s)
  write_valid : ∀ {s}, Valid s → ∀ m, Set.EqOn m s.mem (frames D (owned s))ᶜ →
    Valid ⟨m, s.pmm⟩
  write_owned : ∀ {s}, Valid s → ∀ m, Set.EqOn m s.mem (frames D (owned s))ᶜ →
    owned ⟨m, s.pmm⟩ = owned s

/-- The same for runs of contiguous pages, and for giving them back. -/
structure RunContract {σ : Type} (D : Layout) (A : Ops σ) extends Contract D A where
  pallocRun_valid : ∀ {s}, Valid s → ∀ n hh, Valid (A.palloc n hh s).2
  pallocRun_keeps : ∀ {s}, Valid s → ∀ n hh,
    Set.EqOn (A.palloc n hh s).2.mem s.mem (frames D (owned s))
  pallocRun_null : ∀ {s}, Valid s → ∀ n hh, (A.palloc n hh s).1 = 0 →
    owned s ⊆ owned (A.palloc n hh s).2
  pallocRun_grant : ∀ {s}, Valid s → ∀ n hh, (A.palloc n hh s).1 ≠ 0 → ∃ p,
    (A.palloc n hh s).1 = (if hh then D.hhdmOffset+p else p) ∧ p % 4096 = 0 ∧
    p+4096*n ≤ D.top ∧ Disjoint (run p n) (owned s) ∧
    owned (A.palloc n hh s).2 = owned s ∪ run p n
  pfree_valid : ∀ {s}, Valid s → ∀ p n, p % 4096 = 0 → run p n ⊆ owned s →
    Valid (A.pfree p n s)
  pfree_owned : ∀ {s}, Valid s → ∀ p n, p % 4096 = 0 → run p n ⊆ owned s →
    owned s \ run p n ⊆ owned (A.pfree p n s)
  pfree_keeps : ∀ {s}, Valid s → ∀ p n, p % 4096 = 0 → run p n ⊆ owned s →
    Set.EqOn (A.pfree p n s).mem s.mem (frames D (owned s \ run p n))

/-- A refused call keeps the frames in use, and what is given back is free. -/
structure TightContract {σ : Type} (D : Layout) (A : Ops σ) extends RunContract D A where
  pallocRun_refused : ∀ {s}, Valid s → ∀ n hh, (A.palloc n hh s).1 = 0 →
    owned (A.palloc n hh s).2 = owned s
  pfree_exact : ∀ {s}, Valid s → ∀ p n, p % 4096 = 0 → run p n ⊆ owned s →
    owned (A.pfree p n s) = owned s \ run p n

/-- Single pages that can be given back, by their frame or by its pointer. -/
structure FreeContract {σ : Type} (D : Layout) (A : Ops σ) extends Contract D A where
  pfree_valid : ∀ {s}, Valid s → ∀ p ∈ owned s, Valid (A.pfree p 1 s)
  pfree_owned : ∀ {s}, Valid s → ∀ p ∈ owned s, owned (A.pfree p 1 s) = owned s \ {p}
  pfree_keeps : ∀ {s}, Valid s → ∀ p ∈ owned s,
    Set.EqOn (A.pfree p 1 s).mem s.mem (frames D (owned s \ {p}))
  pfree_pointer : ∀ {s}, Valid s → ∀ p ∈ owned s, A.pfree (D.hhdmOffset+p) 1 s = A.pfree p 1 s

theorem Contract.palloc_owned {σ : Type} {D : Layout} {A : Ops σ} (C : Contract D A) {s : Phys σ}
    (h : C.Valid s) (hh : Bool) : C.owned s ⊆ C.owned (A.palloc 1 hh s).2 := by
  by_cases hn : (A.palloc 1 hh s).1 = 0
  · exact C.palloc_null h hh hn
  · obtain ⟨p, -, -, -, -, ho⟩ := C.palloc_grant h hh hn
    rw [ho]
    exact Set.subset_insert _ _

theorem mem_frames_run (D : Layout) {p n a : ℕ} :
    a ∈ frames D (run p n) ↔ a ∈ Range (D.hhdmOffset+p) (4096*n) := by
  constructor
  · rintro ⟨q, ⟨i, hi, rfl⟩, ha⟩
    simp only [frame, mem_range] at *
    omega
  · intro ha
    simp only [mem_range] at ha
    refine ⟨p+4096*((a-(D.hhdmOffset+p))/4096), ⟨_, by omega, rfl⟩, ?_⟩
    simp only [frame, mem_range]
    omega

theorem RunContract.pallocRun_owned {σ : Type} {D : Layout} {A : Ops σ} (R : RunContract D A)
    {s : Phys σ} (h : R.Valid s) (n : ℕ) (hh : Bool) : R.owned s ⊆ R.owned (A.palloc n hh s).2 := by
  by_cases hn : (A.palloc n hh s).1 = 0
  · exact R.pallocRun_null h n hh hn
  · obtain ⟨p, -, -, -, -, ho⟩ := R.pallocRun_grant h n hh hn
    rw [ho]
    exact Set.subset_union_left

end Emk.PageAllocator
