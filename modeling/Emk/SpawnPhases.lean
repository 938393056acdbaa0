import Emk.HeapRuns
import Emk.SchedSpawn
import Emk.SpawnMapping
import Emk.VmmContext

/-!
# The two phases of a spawn

The stack of a new process is placed in its own context, fresh or given, and
then the regions of the kernel are copied over. What each phase can change is
said once here, for every pair of contexts.
-/

set_option autoImplicit false

namespace Emk.Sched
open Emk.ByteMemory Emk.MachineWord Emk.DirectMap Emk.PageAllocator Emk.Paging Emk.Vmm
open Emk.PagingForest Emk.LinkedPath

variable {σ : Type} {D : Layout} {A : Ops σ}

/-- The kernel after `heap_init` and `sched_init`: the heap, and with it the
process tables, lies in a region of the kernel's context. -/
structure KernelListed (C : Contract D A) (roots : Set ℕ) (shared : Set (Fin 512)) (K kvm cpu : ℕ)
    (k : Kernel σ) (nodes : List ℕ) : Prop where
  root : K ∈ roots
  ctx : CtxOwned C roots shared kvm K k.vmm nodes
  page : ∃ f ∈ C.owned k.vmm.phys, kvm = D.hhdmOffset+f
  heap : ∃ lo hi live bs, HeapRuns.Inv lo hi ⟨k.heap, live⟩ bs ∧
    (lo ≤ (k.scheds cpu).table ∧ (k.scheds cpu).table < hi) ∧
    ∀ a, lo ≤ a → a < hi → pageNumber a ∈ nodePages k.vmm.regions nodes

/-- The context of the process, if there is one, maps into its page map and
shares no node with the kernel's, unless it is the kernel's. -/
structure ProcListed (C : Contract D A) (roots : Set ℕ) (shared : Set (Fin 512)) (kvm P vctx : ℕ)
    (v : State σ) (kvmNodes own : List ℕ) : Prop where
  root : P ∈ roots
  fresh : vctx = 0 → own = []
  ctx : vctx ≠ 0 → CtxOwned C roots shared vctx P v own
  apart : vctx ≠ 0 → vctx ≠ kvm → own.Disjoint kvmNodes

/-- Where the stack goes. -/
def stackStart (vctx : ℕ) (v : State σ) : ℕ :=
  if vctx = 0 then 0x10000
  else match findRegion v.regions holeBehind rounds (v.ctxs vctx).root with
    | some x => regionEnd (v.regions x)
    | none => 0

def stackFlags (user : Bool) : ℕ := vflagsToPflags (mapFlags user)

/-- The memory when the stack is filled: the context and its node are allocated. -/
def stackPhys (A : Ops σ) (P vctx : ℕ) (v : State σ) : Phys σ :=
  (A.palloc 1 true (procContext A P vctx v).2.phys).2

/-- The frames given to the stack. -/
def stackFrames (A : Ops σ) (hhdmOffset P vctx : ℕ) (user : Bool) (v : State σ) : List ℕ :=
  fillFrames A hhdmOffset (backing A) P (stackStart vctx v) (stackFlags user) stackSize 0
    (stackPhys A P vctx v)

variable {C : Contract D A} {roots : Set ℕ} {shared : Set (Fin 512)} {K P kvm cpu vctx : ℕ}
  {k k' : Kernel σ} {v v₁ v₂ : State σ} {kvmNodes own : List ℕ}

theorem nodePages_congr {regions regions' : ℕ → Vregion} {nodes : List ℕ}
    (h : ∀ x ∈ nodes, (regions' x).start = (regions x).start ∧
      (regions' x).pages = (regions x).pages) :
    nodePages regions' nodes = nodePages regions nodes := by
  ext q
  have hsame : ∀ x ∈ nodes, regionPages (regions' x) = regionPages (regions x) := by
    intro x hx
    rw [regionPages, regionPages, (h x hx).1, (h x hx).2]
  constructor
  · rintro ⟨x, hx, hq⟩
    exact ⟨x, hx, hsame x hx ▸ hq⟩
  · rintro ⟨x, hx, hq⟩
    exact ⟨x, hx, (hsame x hx).symm ▸ hq⟩

/-- The context in which the stack is placed. -/
structure Hosted (C : Contract D A) (roots : Set ℕ) (shared : Set (Fin 512)) (kvm P vctx ctx : ℕ)
    (v v₁ : State σ) (kvmNodes nodes : List ℕ) : Prop where
  owned : CtxOwned C roots shared ctx P v₁ nodes
  quiet : Quiet C roots shared v.phys v₁.phys
  start : ∀ x, findRegion v₁.regions holeBehind rounds (v₁.ctxs ctx).root = some x →
    regionEnd (v₁.regions x) = stackStart vctx v
  kernelRegions : ∀ x ∈ kvmNodes, v₁.regions x = v.regions x
  kernelCtx : v₁.ctxs kvm = v.ctxs kvm
  apart : ctx ≠ kvm → nodes.Disjoint kvmNodes

/-- A new context is apart from the kernel's. -/
theorem vinit_apart {start : ℕ} (hk : CtxOwned C roots shared kvm K v kvmNodes)
    (hpage : ∃ f ∈ C.owned v.phys, kvm = D.hhdmOffset+f) (hctx : (vinit A P start v).1 ≠ 0) :
    ∃ root, CtxOwned C roots shared (vinit A P start v).1 P (vinit A P start v).2 [root] ∧
      (vinit A P start v).2.regions root = ⟨start, 0, 0, 0, 0⟩ ∧
      Quiet C roots shared v.phys (vinit A P start v).2.phys ∧
      (∀ x ∈ kvmNodes, (vinit A P start v).2.regions x = v.regions x) ∧
      (vinit A P start v).2.ctxs kvm = v.ctxs kvm ∧ (vinit A P start v).1 ≠ kvm ∧
      root ∉ kvmNodes := by
  obtain ⟨root, hc, hroot, hq⟩ := vinit_ctxOwned hk.forest P start hctx
  obtain ⟨hc0, -, heq⟩ := vinit_eq A P start v hctx
  obtain ⟨g, hg, -, -, hgo, -⟩ := C.palloc_grant hk.forest.valid true hc0
  have hkvm : kvm ≠ (A.palloc 1 true v.phys).1 := by
    obtain ⟨f, hf, rfl⟩ := hpage
    rw [hg, if_pos rfl]
    intro he
    obtain rfl : f = g := by omega
    exact hgo hf
  have hnew : ∀ x ∈ kvmNodes, x ≠ (A.palloc 1 true (A.palloc 1 true v.phys).2).1 := by
    have hq1 := palloc_quiet hk.forest true
    rintro x hx rfl
    exact (hk.phys hq1.forest hq1.owned).fresh hx
  have hrootEq : root = (A.palloc 1 true (A.palloc 1 true v.phys).2).1 := by
    have hpath := hc.listed.path.1
    rw [link_zero, heq] at hpath
    simpa using hpath.symm
  refine ⟨root, hc, hroot, hq, fun x hx => ?_, ?_, ?_, fun hx => hnew root hx hrootEq⟩
  · rw [heq]
    exact Function.update_of_ne (hnew x hx) _ _
  · rw [heq]
    exact Function.update_of_ne hkvm _ _
  · rw [heq]
    exact hkvm.symm

theorem procContext_hosted {ctx : ℕ} (hk : CtxOwned C roots shared kvm K v kvmNodes)
    (hpage : ∃ f ∈ C.owned v.phys, kvm = D.hhdmOffset+f)
    (hp : ProcListed C roots shared kvm P vctx v kvmNodes own)
    (h : procContext A P vctx v = (ctx, v₁)) (hctx : ctx ≠ 0) :
    ∃ nodes, Hosted C roots shared kvm P vctx ctx v v₁ kvmNodes nodes := by
  by_cases h0 : vctx = 0
  · rw [procContext, if_neg (not_not.mpr h0)] at h
    have hctx' : (vinit A P 0x10000 v).1 ≠ 0 := by rw [h]; exact hctx
    obtain ⟨root, hc, hroot, hq, hregions, hkernel, -, hout⟩ := vinit_apart hk hpage hctx'
    rw [h] at hc hroot hq hregions hkernel
    refine ⟨[root], hc, hq, fun x hx => ?_, hregions, hkernel, fun _ => ?_⟩
    · obtain ⟨pre, y, post, hsplit, hfind⟩ := hc.listed.findRegion holeBehind (by simp)
      rw [hfind] at hx
      obtain rfl := Option.some.inj hx
      obtain rfl : y = root := List.mem_singleton.mp (hsplit ▸ by simp)
      rw [hroot, stackStart, if_pos h0]
      rfl
    · intro x hx hxk
      exact hout (List.mem_singleton.mp hx ▸ hxk)
  · rw [procContext, if_pos h0] at h
    obtain ⟨rfl, rfl⟩ := Prod.mk.inj h
    refine ⟨own, hp.ctx h0, hk.forest.quiet_self, fun x hx => ?_, fun _ _ => rfl, rfl, hp.apart h0⟩
    rw [stackStart, if_neg h0, hx]

/-- The pages of the stack. -/
abbrev stackPages (stack : ℕ) : Set ℕ := pagesOf stack 0 stackSize

/-- After the stack is placed the kernel's regions are those it had, and the
stack when the process runs in the kernel's context. -/
theorem kernelPages_placed {ctx x stack flags new : ℕ} {nodes pre post : List ℕ} {p : Phys σ}
    (hk : CtxOwned C roots shared kvm K v kvmNodes)
    (hh : Hosted C roots shared kvm P vctx ctx v v₁ kvmNodes nodes)
      (hnodes : nodes = pre ++ x::post)
    (hstack : stack = regionEnd (v₁.regions x)) (hnew : new ≠ 0) (hptr : new < 2^64)
    (hfresh : new ∉ nodes) (hfresh' : new ∉ kvmNodes)
    (hv₂ : v₂ = { insertAfter x (v₁.regions x).next stackSize flags new v₁ with phys := p }) :
    nodePages v.regions kvmNodes ⊆ nodePages v₂.regions (regionNodes v₂ kvm) ∧
    ∀ q ∈ nodePages v₂.regions (regionNodes v₂ kvm), q ∈ nodePages v.regions kvmNodes ∨
      (ctx = kvm ∧ q ∈ stackPages stack) := by
  have hxn : x ∈ nodes := by simp [hnodes]
  have hne : new ≠ x := fun he => hfresh (he ▸ hxn)
  have hold : nodePages v₁.regions kvmNodes = nodePages v.regions kvmNodes :=
    nodePages_congr (fun y hy => by rw [hh.kernelRegions y hy]; exact ⟨rfl, rfl⟩)
  have hk₁ : Listed v₁ kvm kvmNodes := hk.listed.congr (by rw [hh.kernelCtx])
    (fun y hy => by rw [hh.kernelRegions y hy])
  by_cases hctx : ctx = kvm
  · have hsame : nodes = kvmNodes := by
      rw [← hh.owned.listed.regionNodes_eq, hctx, hk₁.regionNodes_eq]
    rw [hnodes] at hfresh
    obtain ⟨hl, hrange⟩ := (hnodes ▸ hh.owned.listed).insertAfter stackSize
      flags hnew hfresh hptr
    have hregions : regionNodes v₂ kvm = pre ++ x::new::post := by
      rw [hv₂, ← hctx]
      exact (hl.phys p).regionNodes_eq
    have hpages : nodePages v₂.regions nodes = nodePages v.regions kvmNodes := by
      rw [← hold, ← hsame, hnodes]
      exact nodePages_congr (fun y hy => by rw [hv₂]; exact hrange y hy)
    have hnewPages : regionPages (v₂.regions new) = stackPages stack := by
      rw [hv₂]
      dsimp only
      rw [insertAfter_new _ _ _ hne, hstack, regionPages]
      dsimp only
      rw [show wrap (4096*stackSize) / 4096 = stackSize by decide]
    rw [hregions, ← hpages, hnodes]
    constructor
    · rintro q ⟨y, hy, hq⟩
      refine ⟨y, ?_, hq⟩
      simp only [List.mem_append, List.mem_cons] at hy ⊢
      tauto
    · rintro q ⟨y, hy, hq⟩
      by_cases hyn : y = new
      · exact .inr ⟨hctx, hnewPages ▸ hyn ▸ hq⟩
      · refine .inl ⟨y, ?_, hq⟩
        simp only [List.mem_append, List.mem_cons] at hy ⊢
        tauto
  · have hreg : ∀ y ∈ kvmNodes, v₂.regions y = v₁.regions y := by
      intro y hy
      have hyx : y ≠ x := fun he => hh.apart hctx hxn (he ▸ hy)
      have hyn : y ≠ new := fun he => hfresh' (he ▸ hy)
      rw [hv₂]
      dsimp only
      rw [insertAfter_region _ _ _ hne, if_neg hyx, if_neg hyn]
    have hl : Listed v₂ kvm kvmNodes :=
      hk₁.congr (by rw [hv₂]; rfl) (fun y hy => by rw [hreg y hy])
    have hpages : nodePages v₂.regions kvmNodes = nodePages v₁.regions kvmNodes :=
      nodePages_congr (fun y hy => by rw [hreg y hy]; exact ⟨rfl, rfl⟩)
    rw [hl.regionNodes_eq, hpages, hold]
    exact ⟨subset_rfl, fun q hq => .inl hq⟩

/-- The two phases of a spawn: the stack is filled, then pages are copied. -/
structure SpawnPhases (C : Contract D A) (roots : Set ℕ) (shared : Set (Fin 512)) (K P : ℕ)
    (stack : ℕ) (frames : List ℕ) (filled : Prop) (kernelPages : Set ℕ) (p p₂ p' : Phys σ)
    (copies : Set ℕ) : Prop where
  write : RangeWrite C roots shared P (stackPages stack) p p₂
  frame : ∀ i < stackSize, ∃ g, frames[i]? = some g ∧ g ∉ C.owned p ∧ g ≠ 0 ∧
    (translation D p₂.mem P (wrap (stack+4096*i)) = g ∨
      (¬ filled ∧ translation D p₂.mem P (wrap (stack+4096*i)) = 0))
  filled : (∀ i < stackSize, translation D p₂.mem P (wrap (stack+4096*i)) ≠ 0) → filled
  copy : Copied C roots shared K P copies p₂ p'
  covers : kernelPages ⊆ copies
  within : ∀ q ∈ copies, q ∈ kernelPages ∨ (P = K ∧ q ∈ stackPages stack)

theorem Spawned.ctx_ne {user : Bool} {entry pagemap proc ctx stack : ℕ}
    (h : Spawned A D.hhdmOffset K kvm cpu user entry pagemap vctx k k' proc ctx stack v₁ v₂) :
    ctx ≠ 0 := by
  rintro rfl
  have hplaced := h.placed
  rw [valloc, placeRegion, if_pos (.inl rfl)] at hplaced
  exact h.stack_ne (Prod.mk.inj (Option.some.inj hplaced)).1.symm

theorem Spawned.phases {user : Bool} {entry pagemap proc ctx stack : ℕ}
    (hk : KernelListed C roots shared K kvm cpu k kvmNodes)
    (hp : ProcListed C roots shared kvm (procPagemap K pagemap) vctx k.vmm kvmNodes own)
    (h : Spawned A D.hhdmOffset K kvm cpu user entry pagemap vctx k k' proc ctx stack v₁ v₂) :
    stack = stackStart vctx k.vmm ∧
    nodePages k.vmm.regions kvmNodes ⊆ nodePages k'.vmm.regions (regionNodes k'.vmm kvm) ∧
    ∃ copies, SpawnPhases C roots shared K (procPagemap K pagemap) stack
      (stackFrames A D.hhdmOffset (procPagemap K pagemap) vctx user k.vmm)
      (FillMaps A D.hhdmOffset (backing A) (procPagemap K pagemap) stack (stackFlags user)
        stackSize 0
        (stackPhys A (procPagemap K pagemap) vctx k.vmm))
      (nodePages k.vmm.regions kvmNodes) k.vmm.phys v₂.phys k'.vmm.phys copies := by
  have hctx := h.ctx_ne
  obtain ⟨nodes, hh⟩ := procContext_hosted hk.ctx hk.page hp h.context hctx
  obtain ⟨pre, x, post, hnodes, hfind, hstack, hnew, hok, hv₂⟩ :=
    hh.owned.valloc_placed hctx h.placed h.stack_ne
  have hstart : stack = stackStart vctx k.vmm := hstack.trans (hh.start x hfind)
  have hflags := vflagsToPflags_entry (mapFlags user)
  have hq := palloc_quiet hh.owned.forest true
  have hphys : stackPhys A (procPagemap K pagemap) vctx k.vmm = (A.palloc 1 true v₁.phys).2 := by
    rw [stackPhys, h.context]
  have hfill := fillRegion_range (A := A) hq.forest hp.root hflags.lt stack stackSize 0
  have hv₂p : v₂.phys = (fillRegion A D.hhdmOffset (backing A) (procPagemap K pagemap) stack
      (vflagsToPflags (mapFlags user)) stackSize 0 (A.palloc 1 true v₁.phys).2).2 := by rw [hv₂]
  rw [← hv₂p] at hfill
  have hkv : CtxOwned C roots shared kvm K { k.vmm with phys := v₁.phys } kvmNodes :=
    hk.ctx.phys hh.owned.forest hh.quiet.owned
  obtain ⟨hcovers, hwithin⟩ := kernelPages_placed hk.ctx hh hnodes hstack hnew
    (palloc_pointer_lt hh.owned.forest.valid) hh.owned.fresh hkv.fresh hv₂
  obtain ⟨hcopy, hregions, hctxs⟩ :=
    mapKernel_copied hfill.forest hk.root hp.root (mapFlags_entry user) h.mapped
  obtain ⟨lo, hi, live, bs, hinv, htable, hpool⟩ := hk.heap
  obtain ⟨-, hlo, hhi, -⟩ := hinv.kmalloc_fresh h.pcb h.pcb_ne
  have hproc : pageNumber proc ∈ nodePages k.vmm.regions kvmNodes := by
    apply hpool proc hlo
    have : alignUp pcbSize 8 = 272 := by decide
    omega
  refine ⟨hstart, by rwa [regionNodes, hregions, hctxs], _,
    ((hh.quiet.trans hq).range _).trans hfill, ?_, ?_, hcopy, ?_, ?_⟩
  · intro i hi'
    obtain ⟨g, hget, hb, he⟩ := fillRegion_cases (A := A) hq.forest hp.root hflags.lt stack
      stackSize 0
      (by decide) hok hi'
    rw [← hv₂p, Nat.zero_add] at he
    refine ⟨g, ?_, fun ho => hb.fresh (hq.owned (hh.quiet.owned ho)), hb.nonzero, ?_⟩
    · rw [stackFrames, hphys, ← hstart]
      exact hget
    · have htop := D.top_le_address
      have hbelow := hb.below
      rcases he with ⟨hzero, hno⟩ | he
      · refine .inr ⟨by rw [hphys]; exact hno, ?_⟩
        rw [translation, virtToPhys_leaf hfill.forest hp.root, hzero, Nat.zero_and, if_pos rfl]
      · exact .inl (hflags.translation hfill.forest hp.root hb.aligned (by omega) he)
  · intro hall
    rw [hphys]
    apply fillMaps_of_mapped hq.forest hp.root hflags.lt stack stackSize 0 (by decide)
    intro j hj hzero
    rw [← hv₂p, Nat.zero_add] at hzero
    refine hall j hj ?_
    rw [translation, virtToPhys_leaf hfill.forest hp.root, hzero, Nat.zero_and, if_pos rfl]
  · exact fun q hq => .inr (hcovers hq)
  · rintro q ((hq1 | ⟨j, -, hj, hq1⟩) | hq1)
    · exact .inl (hq1 ▸ hproc)
    · obtain rfl : j = 0 := by omega
      rw [hq1, pageNumber_wrap]
      exact .inl (hpool _ htable.1 htable.2)
    · rcases hwithin q hq1 with hin | ⟨he, hst⟩
      · exact .inl hin
      · refine .inr ⟨?_, hst⟩
        rw [← hh.owned.pagemap, he, hh.kernelCtx, hk.ctx.pagemap]

end Emk.Sched
