import Emk.SchedLocks
import Emk.SpawnPhases

/-!
# What a spawn does to memory already mapped

Nothing keeps the stack of a new process apart from the regions that are
copied over. Memory is undisturbed exactly when the pages of the stack are
free in both contexts and pages that belong to both have one translation.
-/

set_option autoImplicit false

namespace Emk.Sched
open Emk.ByteMemory Emk.MachineWord Emk.DirectMap Emk.PageAllocator Emk.Paging Emk.Vmm
open Emk.PagingForest Emk.LinkedPath Emk.ReferenceAllocator

variable {σ : Type} {D : Layout} {A : Ops σ}

/-- The pages of the regions are mapped to frames in use. -/
def Mapped (C : Contract D A) (r : ℕ) (v : State σ) (nodes : List ℕ) : Prop :=
  ∀ a, pageNumber a ∈ nodePages v.regions nodes →
    translation D v.phys.mem r a ∈ C.owned v.phys ∧ translation D v.phys.mem r a ≠ 0

structure KernelReady (C : Contract D A) (roots : Set ℕ) (shared : Set (Fin 512)) (K kvm cpu : ℕ)
    (k : Kernel σ) (nodes : List ℕ) : Prop extends KernelListed C roots shared K kvm cpu k
      nodes where
  mapped : Mapped C K k.vmm nodes

structure ProcReady (C : Contract D A) (roots : Set ℕ) (shared : Set (Fin 512)) (kvm P vctx : ℕ)
    (v : State σ) (kvmNodes own : List ℕ) : Prop
    extends ProcListed C roots shared kvm P vctx v kvmNodes own where
  mapped : Mapped C P v own

/-- Regions of the process, its stack and regions of the kernel all translate
to the frames they were given. -/
structure Undisturbed (D : Layout) (K P : ℕ) (v v' : State σ) (own kvmNodes : List ℕ) (stack : ℕ)
    (frames : List ℕ) : Prop where
  own : ∀ a, pageNumber a ∈ nodePages v.regions own →
    translation D v'.phys.mem P a = translation D v.phys.mem P a
  stack : ∀ i < stackSize,
    frames[i]? = some (translation D v'.phys.mem P (wrap (stack+4096*i)))
  kernel : ∀ a, pageNumber a ∈ nodePages v.regions kvmNodes →
    translation D v'.phys.mem K a = translation D v.phys.mem K a

/-- There is memory for the tables of the stack, no page of the stack belongs
to a region, and common pages translate alike. -/
structure KeepsApart (A : Ops σ) (D : Layout) (K P vctx : ℕ) (user : Bool) (v : State σ)
    (own kvmNodes : List ℕ) : Prop where
  tables : FillMaps A D.hhdmOffset (backing A) P (stackStart vctx v) (stackFlags user) stackSize 0
    (stackPhys A P vctx v)
  stack : ∀ i < stackSize, pageNumber (wrap (stackStart vctx v+4096*i)) ∉
    nodePages v.regions own ∪ nodePages v.regions kvmNodes
  agree : ∀ a, pageNumber a ∈ nodePages v.regions own →
    pageNumber a ∈ nodePages v.regions kvmNodes →
    translation D v.phys.mem P a = translation D v.phys.mem K a

variable {C : Contract D A} {roots : Set ℕ} {shared : Set (Fin 512)} {K P kvm cpu vctx : ℕ}
  {k k' : Kernel σ} {v : State σ} {kvmNodes own : List ℕ}

section Decide
variable {stack : ℕ} {frames : List ℕ} {filled : Prop} {p₂ p' : Phys σ} {copies : Set ℕ}
  (h : SpawnPhases C roots shared K P stack frames filled (nodePages v.regions kvmNodes)
    v.phys p₂ p'
    copies)
include h

/-- Off the stack the first phase changes nothing. -/
theorem SpawnPhases.before (hf : Forest C roots shared v.phys) {r a : ℕ} (hr : r ∈ roots)
    (ha : pageNumber a ∉ stackPages stack) :
    translation D p₂.mem r a = translation D v.phys.mem r a :=
  translation_leaf hf h.write.forest hr (h.write.elsewhere r hr a ha)

/-- What the second phase makes of a translation. -/
theorem SpawnPhases.after (hP : P ∈ roots) (a : ℕ) :
    translation D p'.mem P a = translation D p₂.mem P a ∨
    (translation D p'.mem P a = translation D p₂.mem K a ∧
      (pageNumber a ∈ nodePages v.regions kvmNodes ∨
        (P = K ∧ pageNumber a ∈ stackPages stack))) := by
  by_cases hin : pageNumber a ∈ copies
  · rcases h.copy.either a with he | he
    · exact .inl he
    · exact .inr ⟨he, h.within _ hin⟩
  · exact .inl (translation_leaf h.write.forest h.copy.forest hP (h.copy.elsewhere P hP a hin))

theorem SpawnPhases.undisturbed (hf : Forest C roots shared v.phys) (hK : K ∈ roots)
    (hP : P ∈ roots) {v' : State σ} (hv' : v'.phys = p') (hfilled : filled)
    (hstack : ∀ i < stackSize, pageNumber (wrap (stack+4096*i)) ∉
      nodePages v.regions own ∪ nodePages v.regions kvmNodes)
    (hagree : ∀ a, pageNumber a ∈ nodePages v.regions own →
      pageNumber a ∈ nodePages v.regions kvmNodes →
      translation D v.phys.mem P a = translation D v.phys.mem K a) :
    Undisturbed D K P v v' own kvmNodes stack frames := by
  have hclear : ∀ q ∈ stackPages stack, q ∉ nodePages v.regions own ∪
      nodePages v.regions kvmNodes := by
    rintro q ⟨i, -, hi, rfl⟩
    exact hstack i (by omega)
  constructor <;> rw [hv']
  · intro a ha
    have hno : pageNumber a ∉ stackPages stack := fun hin => hclear _ hin (.inl ha)
    rcases h.after hP a with he | ⟨he, hin | ⟨-, hin⟩⟩
    · rw [he, h.before hf hP hno]
    · rw [he, h.before hf hK hno, hagree a ha hin]
    · exact absurd hin hno
  · intro i hi
    obtain ⟨g, hget, -, -, hg⟩ := h.frame i hi
    have hg' := hg.resolve_right (fun hno => hno.1 hfilled)
    rw [hget]
    rcases h.after hP (wrap (stack+4096*i)) with he | ⟨he, hin | ⟨hPK, -⟩⟩
    · rw [he, hg']
    · exact absurd (.inr hin) (hstack i hi)
    · rw [he, ← hPK, hg']
  · intro a ha
    have hno : pageNumber a ∉ stackPages stack := fun hin => hclear _ hin (.inr ha)
    rw [h.copy.kernel, h.before hf hK hno]

/-- An undisturbed stack page was free before. -/
theorem SpawnPhases.stack_free {v' : State σ} (hv' : v'.phys = p') (hown : Mapped C P v own)
    (hkvm : Mapped C K v kvmNodes)
    (hu : Undisturbed D K P v v' own kvmNodes stack frames) {i : ℕ} (hi : i < stackSize) :
    pageNumber (wrap (stack+4096*i)) ∉ nodePages v.regions own ∪ nodePages v.regions kvmNodes := by
  obtain ⟨g, hget, hfresh, hg0, hg⟩ := h.frame i hi
  have hgive : g = translation D p'.mem P (wrap (stack+4096*i)) := by
    have := hu.stack i hi
    rw [hget, hv'] at this
    exact Option.some.inj this
  rintro (hin | hin)
  · obtain ⟨ho, -⟩ := hown _ hin
    have hsame := hu.own _ hin
    rw [hv', ← hgive] at hsame
    exact hfresh (hsame ▸ ho)
  · obtain ⟨ho, hne⟩ := hkvm _ hin
    have hsame := hu.kernel _ hin
    rw [hv', h.copy.kernel] at hsame
    have hold : translation D p'.mem P (wrap (stack+4096*i)) ≠
        translation D p₂.mem K (wrap (stack+4096*i)) := by
      rw [← hgive, hsame]
      rintro rfl
      exact hfresh ho
    rcases hg with hg | ⟨-, hzero⟩
    · exact hold (h.copy.copied _ (h.covers hin) (by rwa [hsame]) (by rwa [hg]))
    · rcases h.copy.either (wrap (stack+4096*i)) with he | he
      · exact hg0 (by rw [hgive, he, hzero])
      · exact hold he

theorem SpawnPhases.keepsApart (hf : Forest C roots shared v.phys) (hK : K ∈ roots) (hP : P ∈ roots)
    {v' : State σ} (hv' : v'.phys = p') (hown : Mapped C P v own) (hkvm : Mapped C K v kvmNodes)
    (hu : Undisturbed D K P v v' own kvmNodes stack frames) :
    filled ∧ ∀ a, pageNumber a ∈ nodePages v.regions own →
      pageNumber a ∈ nodePages v.regions kvmNodes →
      translation D v.phys.mem P a = translation D v.phys.mem K a := by
  have hfree : ∀ i < stackSize, pageNumber (wrap (stack+4096*i)) ∉
      nodePages v.regions own ∪ nodePages v.regions kvmNodes :=
    fun i hi => h.stack_free hv' hown hkvm hu hi
  have hmapped : ∀ i < stackSize, translation D p₂.mem P (wrap (stack+4096*i)) ≠ 0 := by
    intro i hi hzero
    obtain ⟨g, hget, -, hg0, -⟩ := h.frame i hi
    have hgive := hu.stack i hi
    rw [hget, hv'] at hgive
    have hne : translation D p'.mem P (wrap (stack+4096*i)) ≠ 0 := by
      rw [← Option.some.inj hgive]
      exact hg0
    rcases h.after hP (wrap (stack+4096*i)) with he | ⟨he, hin | ⟨hPK, -⟩⟩
    · exact hne (he.trans hzero)
    · exact hfree i hi (.inr hin)
    · rw [← hPK, hzero] at he
      exact hne he
  refine ⟨h.filled hmapped, ?_⟩
  intro a ha hka
  have hno : pageNumber a ∉ stackPages stack := by
    rintro ⟨i, -, hi, he⟩
    exact hfree i (by omega) (he ▸ .inl ha)
  have hb := h.before hf hP hno
  have hbK := h.before hf hK hno
  have hneP : translation D p₂.mem P a ≠ 0 := by
    rw [hb]
    exact (hown a ha).2
  have hneK : translation D p₂.mem K a ≠ 0 := by
    rw [hbK]
    exact (hkvm a hka).2
  have hcopied := h.copy.copied a (h.covers hka) hneK hneP
  have hsame := hu.own a ha
  rw [hv', hcopied, hbK] at hsame
  exact hsame.symm

end Decide

/-- Memory mapped before a spawn is undisturbed by it exactly when the stack
and the regions of the two contexts keep apart. -/
theorem spawn_undisturbed_iff (C : Contract D A) (user : Bool) (entry pagemap pid : ℕ)
    (hk : KernelReady C roots shared K kvm cpu k kvmNodes)
    (hp : ProcReady C roots shared kvm (procPagemap K pagemap) vctx k.vmm kvmNodes own)
    (h : schedSpawn A D.hhdmOffset K kvm cpu user entry pagemap vctx k = (some pid, k')) :
    Undisturbed D K (procPagemap K pagemap) k.vmm k'.vmm own kvmNodes (stackStart vctx k.vmm)
        (stackFrames A D.hhdmOffset (procPagemap K pagemap) vctx user k.vmm) ↔
      KeepsApart A D K (procPagemap K pagemap) vctx user k.vmm own kvmNodes := by
  obtain ⟨proc, ctx, stack, v₁, v₂, hspawn⟩ := schedSpawn_returned h
  obtain ⟨rfl, -, copies, hph⟩ := hspawn.phases hk.toKernelListed hp.toProcListed
  have hf := hk.ctx.forest
  constructor
  · intro hu
    obtain ⟨hfilled, hagree⟩ := hph.keepsApart hf hk.root hp.root rfl hp.mapped hk.mapped hu
    exact ⟨hfilled, fun i hi => hph.stack_free rfl hp.mapped hk.mapped hu hi, hagree⟩
  · intro hc
    exact hph.undisturbed hf hk.root hp.root rfl hc.tables hc.stack hc.agree

section Boot

/-- The two nodes of the kernel's context at boot. -/
def bootNodes : List ℕ := regionNodes (idleKernel 16).vmm bootContext.1

theorem bootPool_placed : valloc smallOps smallLayout.hhdmOffset bootContext.1 16
    (vallocRead ||| vallocWrite) bootContext.2 = some (bootPool 16) := by
  have h : (valloc smallOps smallLayout.hhdmOffset bootContext.1 16 (vallocRead ||| vallocWrite)
      bootContext.2).isSome := by decide +kernel
  obtain ⟨r, hr⟩ := Option.isSome_iff_exists.mp h
  rw [bootPool, hr, Option.getD_some]

theorem bootPool_owned : CtxOwned smallContract.toContract {smallLayout.hhdmOffset} ∅ bootContext.1
    smallLayout.hhdmOffset (bootPool 16).2 bootNodes := by
  have hforest := (forest_zeroed smallContract.toContract ∅ smallPhys_valid smallPhys_owned
    (fun _ _ => rfl)).1
  obtain ⟨root, hc, -, -⟩ := vinit_ctxOwned (s := ⟨smallPhys, fun _ => ⟨0, 0, 0, 0, 0⟩,
    fun _ => ⟨0, 0, 0⟩⟩) hforest smallLayout.hhdmOffset 0x1000 (by decide +kernel)
  obtain ⟨nodes, hn, -⟩ := hc.valloc rfl (by decide +kernel) bootPool_placed (by decide +kernel)
  have hnodes : bootNodes = nodes := hn.listed.regionNodes_eq
  rw [hnodes]
  exact hn

/-- The pages of the boot heap. -/
theorem bootNodes_pages {q : ℕ} :
    q ∈ nodePages (idleKernel 16).vmm.regions bootNodes ↔
      ∃ i < 16, q = pageNumber (0x1000+4096*i) := by
  have hranges : bootNodes.map (fun x => ((((idleKernel 16).vmm.regions x).start,
      ((idleKernel 16).vmm.regions x).pages))) = [(0x1000, 0), (0x1000, 16)] := by decide +kernel
  constructor
  · rintro ⟨x, hx, i, -, hi, rfl⟩
    have hin := List.mem_map_of_mem (f := fun x => ((((idleKernel 16).vmm.regions x).start,
      ((idleKernel 16).vmm.regions x).pages))) hx
    rw [hranges] at hin
    rcases List.mem_cons.mp hin with he | hin
    · rw [(Prod.mk.inj he).2] at hi
      exact absurd hi (Nat.not_lt_zero i)
    · obtain ⟨hs, hp⟩ := Prod.mk.inj (List.mem_singleton.mp hin)
      rw [hp, show wrap (4096*16) / 4096 = 16 by decide] at hi
      exact ⟨i, by omega, by rw [hs, pageNumber_wrap]⟩
  · rintro ⟨i, hi, rfl⟩
    have hin : (0x1000, 16) ∈ bootNodes.map (fun x => ((((idleKernel 16).vmm.regions x).start,
        ((idleKernel 16).vmm.regions x).pages))) := by
      rw [hranges]
      exact List.mem_cons_of_mem _ List.mem_cons_self
    obtain ⟨x, hx, he⟩ := List.mem_map.mp hin
    obtain ⟨hs, hp⟩ := Prod.mk.inj he
    refine ⟨x, hx, i, Nat.zero_le i, ?_, by rw [hs, pageNumber_wrap]⟩
    rw [hp, show wrap (4096*16) / 4096 = 16 by decide]
    omega

theorem idleKernel_ready : KernelReady smallContract.toContract {smallLayout.hhdmOffset} ∅
    smallLayout.hhdmOffset bootContext.1 0 (idleKernel 16) bootNodes := by
  have hctx : CtxOwned smallContract.toContract {smallLayout.hhdmOffset} ∅ bootContext.1
      smallLayout.hhdmOffset (idleKernel 16).vmm bootNodes := bootPool_owned
  have hframes : ∀ i < 16, translation smallLayout (idleKernel 16).vmm.phys.mem
      smallLayout.hhdmOffset (0x1000+4096*i) / 4096 ∈ (idleKernel 16).vmm.phys.pmm ∧
    translation smallLayout (idleKernel 16).vmm.phys.mem smallLayout.hhdmOffset
      (0x1000+4096*i) ≠ 0 := by
    decide +kernel
  obtain ⟨bs, hheap⟩ := bootKernel_heap 16 (by decide) (by decide +kernel)
    (by decide +kernel)
  obtain ⟨table, heap, hmalloc, h0, hinit⟩ :=
    schedInit_returned (idleKernel_init 16 (by decide +kernel))
  obtain ⟨-, hlo, hhi, bs', _, hinv, -⟩ := hheap.kmalloc_fresh hmalloc h0
  have hpool : (bootPool 16).1 = 0x1000 := by decide +kernel
  have hsize : alignUp (8*procMaxProcsPerCpu) 8 = 4096 := by decide
  rw [hpool] at hlo hhi hinv
  refine ⟨⟨rfl, hctx, ⟨0x1000, ⟨rfl, by decide +kernel⟩, by decide +kernel⟩, 0x1000,
    0x1000+4096*16, [table], bs', ?_, ?_, ?_⟩, ?_⟩
  · rw [hinit]
    exact hinv
  · rw [hinit]
    dsimp only
    rw [Function.update_self]
    dsimp only
    omega
  · intro a hlo hhi
    refine bootNodes_pages.mpr ⟨(a-0x1000)/4096, by omega, ?_⟩
    rw [pageNumber, pageNumber]
    omega
  · intro a ha
    obtain ⟨i, hi, hpage⟩ := bootNodes_pages.mp ha
    obtain ⟨hin, hne⟩ := hframes i hi
    rw [translation_page hctx.forest rfl hpage]
    exact ⟨⟨(translation_frame hctx.forest rfl _).1, hin⟩, hne⟩

/-- A kernel thread without a page map and a context of its own. -/
def detachedKernel : Kernel (List ℕ) :=
  (schedSpawn smallOps smallLayout.hhdmOffset smallLayout.hhdmOffset bootContext.1 0 false
    0x5000 0 0
    (idleKernel 16)).2

theorem spawn_undisturbed_iff_detached :
    Undisturbed smallLayout smallLayout.hhdmOffset smallLayout.hhdmOffset (idleKernel 16).vmm
        detachedKernel.vmm [] bootNodes 0x10000
        (stackFrames smallOps smallLayout.hhdmOffset smallLayout.hhdmOffset 0 false
          (idleKernel 16).vmm) ↔
      KeepsApart smallOps smallLayout smallLayout.hhdmOffset smallLayout.hhdmOffset 0 false
        (idleKernel 16).vmm [] bootNodes := by
  have hret : (schedSpawn smallOps smallLayout.hhdmOffset smallLayout.hhdmOffset
    bootContext.1 0 false
      0x5000 0 0 (idleKernel 16)).1 = some 0 := by decide +kernel
  refine spawn_undisturbed_iff
    smallContract.toContract false 0x5000 0 0 idleKernel_ready ?_ (Prod.ext hret rfl)
  refine ⟨⟨rfl, fun _ => rfl, fun h => absurd rfl h, fun h => absurd rfl h⟩, ?_⟩
  rintro a ⟨x, hx, -⟩
  exact absurd hx (List.not_mem_nil)

/-- The stack of the thread is mapped over the sixteenth page of the heap. -/
theorem spawn_remaps_heap_page :
    ¬ Undisturbed smallLayout smallLayout.hhdmOffset smallLayout.hhdmOffset (idleKernel 16).vmm
      detachedKernel.vmm [] bootNodes 0x10000
      (stackFrames smallOps smallLayout.hhdmOffset smallLayout.hhdmOffset 0 false
        (idleKernel 16).vmm) := by
  intro h
  have hpage := h.kernel 0x10000 (bootNodes_pages.mpr ⟨15, by decide, rfl⟩)
  revert hpage
  decide +kernel

end Boot

end Emk.Sched
