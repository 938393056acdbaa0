import Emk.PagingEffect
import Emk.ReferenceAllocator
import Emk.Transition

/-!
# A page map refines a finite map from pages to frames

The abstract map is keyed by 36-bit page numbers. Mapping inserts when the
call succeeds and unmapping deletes. Whatever the order of calls and
wherever page-table allocation fails, translation is lookup.
-/

set_option autoImplicit false

namespace Emk.PagingRefinement
open Emk.ByteMemory Emk.MachineWord Emk.DirectMap Emk.PageAllocator Emk.Paging Emk.RadixForest
open Emk.PagingForest Emk.Transition Emk.ReferenceAllocator

inductive Op where
  | vmap (virt phys flags : ℕ)
  | vunmap (virt : ℕ)

/-- A subset of the four page flags that contains `VMM_PRESENT`. -/
def FlagSet (flags : ℕ) : Prop :=
  flags &&& (vmmPresent ||| vmmWrite ||| vmmUser ||| vmmNx) = flags ∧ flags &&& vmmPresent ≠ 0

def Proper : Op → Prop
  | .vmap _ phys flags => phys % 4096 = 0 ∧ phys < 2^52 ∧ FlagSet flags
  | .vunmap virt => virt % 4096 = 0

structure World (σ : Type) where
  phys : Phys σ
  map : ℕ → Option ℕ

variable {σ : Type} {D : Layout} {A : Ops σ}

def step (D : Layout) (A : Ops σ) (pm : ℕ) (w : World σ) : Op → World σ
  | .vmap virt phys flags =>
    let q := vmap A D.hhdmOffset pm virt phys flags w.phys
    ⟨q.2, if q.1 = 0 then Function.update w.map (pageNumber virt) (some phys) else w.map⟩
  | .vunmap virt =>
    ⟨(vunmap D.hhdmOffset pm virt w.phys).2, Function.update w.map (pageNumber virt) none⟩

theorem FlagSet.mask {flags : ℕ} (h : FlagSet flags) : flags &&& pageMask = 0 :=
  and_eq_zero_of_subset flags _ pageMask h.1 (by decide)

theorem FlagSet.lt {flags : ℕ} (h : FlagSet flags) : flags < 2^64 := by
  rw [← h.1]
  exact lt_of_le_of_lt Nat.and_le_right (by decide)

theorem Proper.entry_lt {virt phys flags : ℕ} (h : Proper (.vmap virt phys flags)) :
    phys ||| flags < 2^64 :=
  Nat.or_lt_two_pow (lt_trans h.2.1 (by decide)) h.2.2.lt

theorem Proper.entry_mask {virt phys flags : ℕ} (h : Proper (.vmap virt phys flags)) :
    (phys ||| flags) &&& pageMask = phys :=
  frame_mask phys flags h.1 h.2.1 h.2.2.mask

theorem Proper.entry_present {virt phys flags : ℕ} (h : Proper (.vmap virt phys flags)) :
    (phys ||| flags) &&& vmmPresent ≠ 0 :=
  or_one_bit phys flags vmmPresent h.2.2.2

/-- The table invariant together with agreement at every address. -/
structure Refines (C : Contract D A) (pm : ℕ) (w : World σ) : Prop where
  forest : Forest C {pm} ∅ w.phys
  lookup : ∀ v, virtToPhys D.hhdmOffset w.phys.mem pm v = (w.map (pageNumber v)).getD 0

theorem translation_congr (C : Contract D A) {pm : ℕ} {s s' : Phys σ} (hs : Forest C {pm} ∅ s)
    (hs' : Forest C {pm} ∅ s') {v : ℕ} (h : leafEntry D s'.mem pm v = leafEntry D s.mem pm v) :
    virtToPhys D.hhdmOffset s'.mem pm v = virtToPhys D.hhdmOffset s.mem pm v := by
  rw [virtToPhys_leaf hs' rfl, virtToPhys_leaf hs rfl, h]

theorem vmap_failure_silent (C : Contract D A) {pm : ℕ} {s : Phys σ} (hs : Forest C {pm} ∅ s)
    {virt phys flags : ℕ} (hp : Proper (.vmap virt phys flags))
    (hfail : (vmap A D.hhdmOffset pm virt phys flags s).1 = -1) (v : ℕ) :
    virtToPhys D.hhdmOffset (vmap A D.hhdmOffset pm virt phys flags s).2.mem pm v =
      virtToPhys D.hhdmOffset s.mem pm v := by
  rcases vmap_effect hs rfl virt phys flags hp.entry_lt with ⟨-, -, hq⟩ | ⟨h0, -⟩
  · exact translation_congr C hs hq.forest (hq.leaf pm rfl v)
  · rw [h0] at hfail
    exact absurd hfail (by decide)

theorem step_refines (C : Contract D A) {pm : ℕ} (w : World σ) (o : Op) (h : Refines C pm w)
    (hp : Proper o) : Refines C pm (step D A pm w o) := by
  cases o with
  | vmap virt phys flags =>
    rcases vmap_effect h.forest rfl virt phys flags hp.entry_lt with ⟨hret, -, hq⟩ | ⟨hret, hw⟩
    · refine ⟨hq.forest, fun v => ?_⟩
      simp only [step, hret, show ¬(-1 : Int) = 0 by decide, if_false]
      rw [vmap_failure_silent C h.forest hp hret, h.lookup]
    · refine ⟨hw.forest, fun v => ?_⟩
      simp only [step, hret, if_true]
      by_cases hv : pageNumber v = pageNumber virt
      · rw [virtToPhys_leaf hw.forest rfl, leafEntry_page hv, hw.here, if_neg hp.entry_present,
          hp.entry_mask, hv, Function.update_self, Option.getD_some]
      · rw [translation_congr C h.forest hw.forest (hw.elsewhere pm rfl v hv), h.lookup,
          Function.update_of_ne hv]
  | vunmap virt =>
    obtain ⟨-, hw⟩ := vunmap_effect h.forest rfl virt hp
    refine ⟨hw.forest, fun v => ?_⟩
    simp only [step]
    by_cases hv : pageNumber v = pageNumber virt
    · rw [virtToPhys_leaf hw.forest rfl, leafEntry_page hv, hw.here, hv, Function.update_self]
      rfl
    · rw [translation_congr C h.forest hw.forest (hw.elsewhere pm rfl v hv), h.lookup,
        Function.update_of_ne hv]

theorem run_refines (C : Contract D A) {s : Phys σ} (hv : C.Valid s) {f : ℕ} (hf : f ∈ C.owned s)
    (hz : ∀ a ∈ frame D f, s.mem a = 0) (ops : List Op) (hops : ∀ o ∈ ops, Proper o) :
    Refines C (D.hhdmOffset+f) (run (step D A (D.hhdmOffset+f)) ⟨s, fun _ => none⟩ ops) := by
  obtain ⟨hforest, hleaf⟩ := forest_zeroed C ∅ hv hf hz
  apply run_invariant (C := fun _ o => Proper o) (fun w o hw ho => step_refines C w o hw ho)
  · refine ⟨hforest, fun v => ?_⟩
    rw [virtToPhys_leaf hforest rfl, hleaf]
    rfl
  · exact along_of_forall hops

/-- Translation is lookup in the abstract map after every sequence of calls
on a page map that started as a zeroed page, and a call that fails for want
of a table frame changes no translation. -/
theorem pagemap_refines_map (C : Contract D A) (s : Phys σ) (hv : C.Valid s) (f : ℕ)
    (hf : f ∈ C.owned s) (hz : ∀ a ∈ frame D f, s.mem a = 0)
    (ops : List Op) (hops : ∀ o ∈ ops, Proper o) :
    let w := run (step D A (D.hhdmOffset+f)) ⟨s, fun _ => none⟩ ops
    (∀ v, virtToPhys D.hhdmOffset w.phys.mem (D.hhdmOffset+f) v =
      (w.map (pageNumber v)).getD 0) ∧
    ∀ virt phys flags, Proper (.vmap virt phys flags) →
      (vmap A D.hhdmOffset (D.hhdmOffset+f) virt phys flags w.phys).1 = -1 →
      ∀ v, virtToPhys D.hhdmOffset
          (vmap A D.hhdmOffset (D.hhdmOffset+f) virt phys flags w.phys).2.mem (D.hhdmOffset+f) v =
        virtToPhys D.hhdmOffset w.phys.mem (D.hhdmOffset+f) v := by
  intro w
  have hw := run_refines C hv hf hz ops hops
  exact ⟨hw.lookup, fun virt phys flags hp hfail => vmap_failure_silent C hw.forest hp hfail⟩

theorem pagemap_refines_map_small :
    virtToPhys smallLayout.hhdmOffset
      (run (step smallLayout smallOps smallLayout.hhdmOffset) ⟨smallPhys, fun _ => none⟩
        [.vmap 0x1000 0x5000 0b11, .vmap 0x400000 0x6000 0b1, .vunmap 0x1000]).phys.mem
      smallLayout.hhdmOffset 0x400123 = 0x6000 := by
  have h := (pagemap_refines_map smallContract.toContract smallPhys smallPhys_valid 0
    smallPhys_owned
    (fun _ _ => rfl) [.vmap 0x1000 0x5000 0b11, .vmap 0x400000 0x6000 0b1, .vunmap 0x1000]
    (by simp [Proper, FlagSet]; decide)).1 0x400123
  rw [Nat.add_zero] at h
  rw [h]
  decide +kernel

end Emk.PagingRefinement
