import Emk.PagingShare
import Emk.ReferenceAllocator
import Emk.Transition

/-!
# Isolation of page maps and the shared kernel half

The kernel's page map and those that `pmnew` derives from it are changed by
calls on any of them in any order. A call in the lower half is invisible to
every other page map, and a top-level slot that the kernel had when a page
map was made leads to the same tables from then on.
-/

set_option autoImplicit false

namespace Emk.PagingIsolation
open Emk.ByteMemory Emk.MachineWord Emk.DirectMap Emk.PageAllocator Emk.Paging Emk.RadixForest
open Emk.PagingForest Emk.Transition Emk.ReferenceAllocator

inductive Op where
  | pmnew
  | vmap (pagemap virt phys flags : ℕ)
  | vunmap (pagemap virt : ℕ)

/-- A page map and the kernel's top-level slots that were present when it
was made. -/
structure Made where
  pagemap : ℕ
  slots : Fin 512 → Bool

structure World (σ : Type) where
  phys : Phys σ
  made : List Made

variable {σ : Type} {D : Layout} {A : Ops σ}

def presentSlots (m : Mem) (pagemap : ℕ) (i : Fin 512) : Bool :=
  load64 m (pagemap+8*i) &&& vmmPresent != 0

/-- A panic of `pmnew` ends the run. -/
def step (D : Layout) (A : Ops σ) (K : ℕ) (w : World σ) : Op → Option (World σ)
  | .pmnew => (pmnew A K w.phys).map fun r => ⟨r.2, ⟨r.1, presentSlots w.phys.mem K⟩::w.made⟩
  | .vmap pagemap virt phys flags =>
    some { w with phys := (vmap A D.hhdmOffset pagemap virt phys flags w.phys).2 }
  | .vunmap pagemap virt => some { w with phys := (vunmap D.hhdmOffset pagemap virt w.phys).2 }

def pagemaps (K : ℕ) (w : World σ) : List ℕ := K::w.made.map Made.pagemap

def Permitted (K : ℕ) (w : World σ) : Op → Prop
  | .pmnew => True
  | .vmap pagemap _ phys flags => pagemap ∈ pagemaps K w ∧ phys < 2^64 ∧ flags < 2^64
  | .vunmap pagemap _ => pagemap ∈ pagemaps K w

instance decidablePermitted (K : ℕ) (w : World σ) : ∀ o, Decidable (Permitted K w o)
  | .pmnew => .isTrue trivial
  | .vmap pagemap _ phys flags =>
    inferInstanceAs (Decidable (pagemap ∈ pagemaps K w ∧ phys < 2^64 ∧ flags < 2^64))
  | .vunmap pagemap _ => inferInstanceAs (Decidable (pagemap ∈ pagemaps K w))

/-- Calls in the lower half stay private to their page map, and the slots
copied from the kernel translate as the kernel's do. -/
structure Isolated (D : Layout) (A : Ops σ) (K : ℕ) (w : World σ) : Prop where
  vmap_private : ∀ pagemap ∈ pagemaps K w, ∀ virt phys flags, pageIndex virt pml4Shift < 256 →
    phys < 2^64 → flags < 2^64 → ∀ r ∈ pagemaps K w, r ≠ pagemap → ∀ v,
    virtToPhys D.hhdmOffset (vmap A D.hhdmOffset pagemap virt phys flags w.phys).2.mem r v =
      virtToPhys D.hhdmOffset w.phys.mem r v
  vunmap_private : ∀ pagemap ∈ pagemaps K w, ∀ virt, pageIndex virt pml4Shift < 256 →
    ∀ r ∈ pagemaps K w, r ≠ pagemap → ∀ v,
    virtToPhys D.hhdmOffset (vunmap D.hhdmOffset pagemap virt w.phys).2.mem r v =
      virtToPhys D.hhdmOffset w.phys.mem r v
  mirrored : ∀ P ∈ w.made, ∀ v, 256 ≤ pageIndex v pml4Shift → P.slots (ix v pml4Shift) = true →
    virtToPhys D.hhdmOffset w.phys.mem P.pagemap v = virtToPhys D.hhdmOffset w.phys.mem K v

def roots (K : ℕ) (w : World σ) : Set ℕ := {r | r ∈ pagemaps K w}

structure Inv (C : Contract D A) (K : ℕ) (shared : Set (Fin 512)) (w : World σ) : Prop where
  forest : Forest C (roots K w) shared w.phys
  upper : ∀ i ∈ shared, 256 ≤ i.val
  linked : ∀ P ∈ w.made, ∀ i : Fin 512, 256 ≤ i.val → P.slots i = true → ∃ t,
    descend (child D w.phys.mem) K [i] = some t ∧
      descend (child D w.phys.mem) P.pagemap [i] = some t

variable {C : Contract D A} {K : ℕ} {shared : Set (Fin 512)} {w : World σ}

theorem kernel_mem (K : ℕ) (w : World σ) : K ∈ roots K w := List.mem_cons_self

theorem made_mem {P : Made} (h : P ∈ w.made) : P.pagemap ∈ roots K w :=
  List.mem_cons_of_mem K (List.mem_map_of_mem h)

/-- Tables are only ever added, so what is linked stays linked. -/
theorem Inv.keep (hi : Inv C K shared w) {s : Phys σ}
    (he : Extends C (roots K w) shared w.phys s) : Inv C K shared { w with phys := s } where
  forest := he.forest
  upper := hi.upper
  linked := by
    intro P hP i h256 hslot
    obtain ⟨t, hk, hp⟩ := hi.linked P hP i h256 hslot
    exact ⟨t, he.grows K (kernel_mem K w) [i] t (by simp) hk,
      he.grows P.pagemap (made_mem hP) [i] t (by simp) hp⟩

theorem Inv.vmap (hi : Inv C K shared w) {pagemap : ℕ} (hp : pagemap ∈ pagemaps K w)
    (virt : ℕ) {phys flags : ℕ} (hphys : phys < 2^64) (hflags : flags < 2^64) :
    RangeWrite C (roots K w) shared pagemap {pageNumber virt} w.phys
      (Paging.vmap A D.hhdmOffset pagemap virt phys flags w.phys).2 :=
  vmap_range hi.forest hp virt phys flags (Nat.or_lt_two_pow hphys hflags)

theorem Inv.vunmap (hi : Inv C K shared w) {pagemap : ℕ} (hp : pagemap ∈ pagemaps K w)
    (virt : ℕ) :
    RangeWrite C (roots K w) shared pagemap {pageNumber virt} w.phys
      (Paging.vunmap D.hhdmOffset pagemap virt w.phys).2 := by
  by_cases ha : virt % 4096 = 0
  · exact (vunmap_effect hi.forest hp virt ha).2.range
  · rw [vunmap_unaligned pagemap ha]
    exact hi.forest.quiet_self.range _

theorem child_present {m : Mem} {t : ℕ} {i : Fin 512} (h : presentSlots m t i = true) :
    ∃ u, child D m t i = some u := by
  rw [presentSlots, bne_iff_ne] at h
  exact ⟨_, if_neg h⟩

theorem Inv.pmnew (hi : Inv C K shared w) {P : ℕ} {s : Phys σ}
    (h : Paging.pmnew A K w.phys = some (P, s)) :
    Inv C K (shared ∪ upperSlots D w.phys.mem K)
      ⟨s, ⟨P, presentSlots w.phys.mem K⟩::w.made⟩ := by
  obtain ⟨hf, -, -, -, hdesc, hhigh⟩ := pmnew_forest hi.forest (kernel_mem K w) h
  have hroots : roots K (⟨s, ⟨P, presentSlots w.phys.mem K⟩::w.made⟩ : World σ) =
      insert P (roots K w) := by
    ext r
    simp only [roots, pagemaps, Set.mem_ofPred_eq, List.map_cons, List.mem_cons, Set.mem_insert_iff]
    tauto
  refine ⟨by rw [hroots]; exact hf, ?_, ?_⟩
  · rintro i (hs | hs)
    · exact hi.upper i hs
    · exact hs.1
  · intro Q hQ i h256 hslot
    have hK := hdesc K (kernel_mem K w) [i] (by simp)
    rcases List.mem_cons.mp hQ with rfl | hQ
    · obtain ⟨t, ht⟩ := child_present (D := D) hslot
      have hold : descend (child D w.phys.mem) K [i] = some t := by simpa [descend] using ht
      refine ⟨t, hK.trans hold, ?_⟩
      have hsame : descend (child D s.mem) P [i] = descend (child D s.mem) K [i] := by
        simpa [descend] using hhigh i h256
      exact hsame.trans (hK.trans hold)
    · obtain ⟨t, hk, hq⟩ := hi.linked Q hQ i h256 hslot
      exact ⟨t, hK.trans hk, (hdesc Q.pagemap (made_mem hQ) [i] (by simp)).trans hq⟩

/-- A write in the lower half is invisible to every other page map. -/
theorem Inv.private (hi : Inv C K shared w) {pagemap virt : ℕ} {s : Phys σ}
    (hw : RangeWrite C (roots K w) shared pagemap {pageNumber virt} w.phys s)
    (hlow : pageIndex virt pml4Shift < 256) {r : ℕ} (hr : r ∈ pagemaps K w) (hne : r ≠ pagemap)
    (v : ℕ) :
    virtToPhys D.hhdmOffset s.mem r v = virtToPhys D.hhdmOffset w.phys.mem r v := by
  have hleaf : leafEntry D s.mem r v = leafEntry D w.phys.mem r v := by
    by_cases hpage : pageNumber v = pageNumber virt
    · apply hw.others r hr hne v
      intro hs
      have h256 := hi.upper _ hs
      have hsame : ix v pml4Shift = ix virt pml4Shift := ix_of_page hpage
      rw [hsame] at h256
      exact absurd hlow (Nat.not_lt.mpr h256)
    · exact hw.elsewhere r hr v hpage
  rw [virtToPhys_leaf hw.forest hr, virtToPhys_leaf hi.forest hr, hleaf]

theorem leafEntry_linked {m : Mem} {r r' v t : ℕ}
    (h : descend (child D m) r [ix v pml4Shift] = some t)
    (h' : descend (child D m) r' [ix v pml4Shift] = some t) :
    leafEntry D m r v = leafEntry D m r' v := by
  have hpath : ∀ r, descend (child D m) r [ix v pml4Shift] = some t →
      descend (child D m) r (tablePath v) =
        (child D m t (ix v pml3Shift)).bind fun u => child D m u (ix v pml2Shift) := by
    intro r hd
    rw [tablePath, descend, descend, hd]
    rfl
  rw [leafEntry, leafEntry, hpath r h, hpath r' h']

theorem Inv.isolated (hi : Inv C K shared w) : Isolated D A K w where
  vmap_private := fun _ hp virt _ _ hlow hphys hflags _ hr hne v =>
    hi.private (hi.vmap hp virt hphys hflags) hlow hr hne v
  vunmap_private := fun _ hp virt hlow _ hr hne v =>
    hi.private (hi.vunmap hp virt) hlow hr hne v
  mirrored := by
    intro P hP v h256 hslot
    obtain ⟨t, hk, hp⟩ := hi.linked P hP (ix v pml4Shift) h256 hslot
    rw [virtToPhys_leaf hi.forest (made_mem hP), virtToPhys_leaf hi.forest (kernel_mem K w),
      leafEntry_linked hp hk]

theorem step_inv {w' : World σ} {o : Op} (hi : ∃ shared, Inv C K shared w) (hp : Permitted K w o)
    (h : step D A K w o = some w') : ∃ shared, Inv C K shared w' := by
  obtain ⟨shared, hi⟩ := hi
  cases o with
  | pmnew =>
    obtain ⟨⟨P, s⟩, hnew, rfl⟩ := Option.map_eq_some_iff.mp h
    exact ⟨_, hi.pmnew hnew⟩
  | vmap pagemap virt phys flags =>
    obtain rfl := Option.some.inj h
    exact ⟨shared, hi.keep (hi.vmap hp.1 virt hp.2.1 hp.2.2).toExtends⟩
  | vunmap pagemap virt =>
    obtain rfl := Option.some.inj h
    exact ⟨shared, hi.keep (hi.vunmap hp virt).toExtends⟩

theorem start_inv (C : Contract D A) {s : Phys σ} (hv : C.Valid s) {f : ℕ} (hf : f ∈ C.owned s)
    (hz : ∀ a ∈ frame D f, s.mem a = 0) : Inv C (D.hhdmOffset+f) ∅ ⟨s, []⟩ := by
  have hroots : roots (D.hhdmOffset+f) (⟨s, []⟩ : World σ) = {D.hhdmOffset+f} := by
    ext r
    simp [roots, pagemaps]
  refine ⟨?_, by simp, by simp⟩
  rw [hroots]
  exact (forest_zeroed C ∅ hv hf hz).1

/-- In every state that calls on the kernel's page map and on those made from
it can reach, page maps are isolated in the lower half and agree with the
kernel's under the slots they were given. -/
theorem pagemaps_isolated (C : Contract D A) (s : Phys σ) (hv : C.Valid s) (f : ℕ)
    (hf : f ∈ C.owned s) (hz : ∀ a ∈ frame D f, s.mem a = 0) (ops : List Op)
    (hops : Along (lift (step D A (D.hhdmOffset+f))) (Issued (Permitted (D.hhdmOffset+f)))
      (some ⟨s, []⟩) ops) (w : World σ)
    (hw : run (lift (step D A (D.hhdmOffset+f))) (some ⟨s, []⟩) ops = some w) :
    Isolated D A (D.hhdmOffset+f) w := by
  obtain ⟨shared, hi⟩ := run_lift_safe (I := fun w => ∃ shared, Inv C (D.hhdmOffset+f) shared w)
    (fun _ _ _ hi hp h => step_inv hi hp h) ⟨∅, start_inv C hv hf hz⟩ hops hw
  exact hi.isolated

/-- Two page maps, made before and after the kernel fills a slot of its upper
half, and a private mapping in the second. -/
theorem pagemaps_isolated_small :
    ∃ w, run (lift (step smallLayout smallOps (smallLayout.hhdmOffset+0))) (some ⟨smallPhys, []⟩)
        [.pmnew, .vmap (smallLayout.hhdmOffset+0) 0xffff800000005000 0x5000 0b11, .pmnew,
          .vmap (smallLayout.hhdmOffset+0x5000) 0x400000 0x6000 0b111] = some w ∧
      Isolated smallLayout smallOps (smallLayout.hhdmOffset+0) w := by
  have hops : Along (lift (step smallLayout smallOps (smallLayout.hhdmOffset+0)))
      (Issued (Permitted (smallLayout.hhdmOffset+0))) (some ⟨smallPhys, []⟩)
      [.pmnew, .vmap (smallLayout.hhdmOffset+0) 0xffff800000005000 0x5000 0b11, .pmnew,
        .vmap (smallLayout.hhdmOffset+0x5000) 0x400000 0x6000 0b111] := by decide +kernel
  obtain ⟨w, hw⟩ := Option.isSome_iff_exists.mp (show (run
      (lift (step smallLayout smallOps (smallLayout.hhdmOffset+0))) (some ⟨smallPhys, []⟩)
      [.pmnew, .vmap (smallLayout.hhdmOffset+0) 0xffff800000005000 0x5000 0b11, .pmnew,
        .vmap (smallLayout.hhdmOffset+0x5000) 0x400000 0x6000 0b111]).isSome by decide +kernel)
  exact ⟨w, hw, pagemaps_isolated smallContract.toContract smallPhys smallPhys_valid 0
    smallPhys_owned (fun _ _ => rfl) _ hops w hw⟩

end Emk.PagingIsolation
