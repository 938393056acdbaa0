import Emk.SchedTraces

/-!
# What `sched_spawn` does when it returns

The function is taken apart once: the control block comes from the heap, the
stack from the context of the process, and the mappings of the kernel follow.
-/

set_option autoImplicit false

namespace Emk.Sched
open Emk.PageAllocator Emk.Paging Emk.Vmm Emk.Calls
open Emk.FirstFitHeap (Heap)

variable {σ α : Type} {A : Ops σ} {hhdmOffset kernelPagemap kvmCtx cpu : ℕ}

theorem kmalloc_returned {n p : ℕ} {k k' : Kernel σ} (h : kmalloc n k = (some p, k')) :
    ∃ heap, FirstFitHeap.kmalloc n k.heap = some (p, heap) ∧ k' = { k with heap := heap } := by
  rw [kmalloc] at h
  have ha := attempt_returned h
  obtain ⟨⟨q, heap⟩, hm, he⟩ := Option.map_eq_some_iff.mp ha
  obtain ⟨rfl, rfl⟩ := Prod.mk.inj he
  exact ⟨heap, hm, rfl⟩

theorem onVmm_returned {f : State σ → Option (α × State σ)} {a : α} {k k' : Kernel σ}
    (h : onVmm f k = (some a, k')) : ∃ v, f k.vmm = some (a, v) ∧ k' = { k with vmm := v } := by
  rw [onVmm] at h
  have ha := attempt_returned h
  obtain ⟨⟨b, v⟩, hm, he⟩ := Option.map_eq_some_iff.mp ha
  obtain ⟨rfl, rfl⟩ := Prod.mk.inj he
  exact ⟨v, hm, rfl⟩

theorem never_returned {a : α} {k k' : Kernel σ} (h :
    (never : Call (Kernel σ) α) k = (some a, k')) :
    False := absurd (Prod.mk.inj h).1 (by simp)

theorem schedInit_returned {u : Unit} {k k' : Kernel σ} (h : schedInit cpu k = (some u, k')) :
    ∃ table heap, FirstFitHeap.kmalloc (8*procMaxProcsPerCpu) k.heap = some (table, heap) ∧
      table ≠ 0 ∧
      k' = { k with
        heap := heap
        scheds := Function.update k.scheds cpu ⟨table, fun _ => 0, 0, 0⟩ } := by
  rw [schedInit] at h
  obtain ⟨table, k₁, hk, h⟩ := bind_returned h
  obtain ⟨heap, hmalloc, rfl⟩ := kmalloc_returned hk
  by_cases h0 : table = 0
  · rw [if_pos h0] at h
    exact (never_returned h).elim
  · rw [if_neg h0] at h
    exact ⟨table, heap, hmalloc, h0, (Prod.mk.inj h).2.symm⟩

/-- The page map that a process gets. -/
def procPagemap (kernelPagemap pagemap : ℕ) : ℕ := if pagemap ≠ 0 then pagemap else kernelPagemap

structure Spawned (A : Ops σ) (hhdmOffset kernelPagemap kvmCtx cpu : ℕ) (user : Bool)
    (entry pagemap vctx : ℕ) (k k' : Kernel σ) (proc ctx stack : ℕ) (v₁ v₂ : State σ) : Prop where
  room : (k.scheds cpu).count < procMaxProcsPerCpu
  pcb : FirstFitHeap.kmalloc pcbSize k.heap = some (proc, k'.heap)
  pcb_ne : proc ≠ 0
  context : procContext A (procPagemap kernelPagemap pagemap) vctx k.vmm = (ctx, v₁)
  placed : valloc A hhdmOffset ctx stackSize (mapFlags user) v₁ = some (stack, v₂)
  stack_ne : stack ≠ 0
  mapped : mapKernel A hhdmOffset kernelPagemap kvmCtx proc (k.scheds cpu).table
    (procPagemap kernelPagemap pagemap) (mapFlags user) v₂ = some ((), k'.vmm)
  pcbs : k'.pcbs = Function.update k.pcbs proc (withStack stack
    (newPcb user entry k.globalPidCounter (procPagemap kernelPagemap pagemap) ctx))
  scheds : k'.scheds = Function.update k.scheds cpu { k.scheds cpu with
    procs := Function.update (k.scheds cpu).procs (k.scheds cpu).count proc
    count := (k.scheds cpu).count+1 }
  copies : k'.copies = k.copies

theorem schedSpawn_returned {user : Bool} {entry pagemap vctx pid : ℕ} {k k' : Kernel σ}
    (h : schedSpawn A hhdmOffset kernelPagemap kvmCtx cpu user entry pagemap vctx k =
      (some pid, k')) :
    ∃ proc ctx stack v₁ v₂, Spawned A hhdmOffset kernelPagemap kvmCtx cpu user entry pagemap vctx
      k k' proc ctx stack v₁ v₂ := by
  rw [schedSpawn] at h
  obtain ⟨_, k₀, hacq, h⟩ := bind_returned h
  obtain ⟨-, h₀⟩ := Prod.mk.inj hacq
  obtain ⟨sched, _, hget, h⟩ := bind_returned h
  obtain ⟨hsched, rfl⟩ := Prod.mk.inj hget
  by_cases hfull : sched.count ≥ procMaxProcsPerCpu
  · rw [if_pos hfull] at h
    obtain ⟨_, _, -, h⟩ := bind_returned h
    exact (never_returned h).elim
  rw [if_neg hfull] at h
  obtain ⟨proc, k₁, hk, h⟩ := bind_returned h
  obtain ⟨heap, hmalloc, h₁⟩ := kmalloc_returned hk
  by_cases hproc : proc = 0
  · rw [if_pos hproc] at h
    obtain ⟨_, _, -, h⟩ := bind_returned h
    exact (never_returned h).elim
  rw [if_neg hproc] at h
  obtain ⟨pid', k₂, hpid, h⟩ := bind_returned h
  obtain ⟨hp, h₂⟩ := Prod.mk.inj hpid
  obtain ⟨ctx, k₃, hctx, h⟩ := bind_returned h
  obtain ⟨v₁, hv₁, h₃⟩ := onVmm_returned hctx
  obtain ⟨_, k₄, hpcb, h⟩ := bind_returned h
  obtain ⟨-, h₄⟩ := Prod.mk.inj hpcb
  obtain ⟨stack, k₅, hstack, h⟩ := bind_returned h
  obtain ⟨v₂, hv₂, h₅⟩ := onVmm_returned hstack
  by_cases hs : stack = 0
  · rw [if_pos hs] at h
    obtain ⟨_, _, -, h⟩ := bind_returned h
    obtain ⟨_, _, -, h⟩ := bind_returned h
    obtain ⟨_, _, -, h⟩ := bind_returned h
    exact (never_returned h).elim
  rw [if_neg hs] at h
  obtain ⟨_, k₆, hmap, h⟩ := bind_returned h
  obtain ⟨v₃, hv₃, h₆⟩ := onVmm_returned hmap
  obtain ⟨_, k₇, hpcb', h⟩ := bind_returned h
  obtain ⟨-, h₇⟩ := Prod.mk.inj hpcb'
  obtain ⟨_, k₈, hset, h⟩ := bind_returned h
  obtain ⟨-, h₈⟩ := Prod.mk.inj hset
  obtain ⟨_, k₉, hrel, h⟩ := bind_returned h
  obtain ⟨-, h₉⟩ := Prod.mk.inj hrel
  obtain ⟨-, h₁₀⟩ := Prod.mk.inj h
  obtain rfl := Option.some.inj hp
  subst h₀ h₁ h₂ h₃ h₄ h₅ h₆ h₇ h₈ h₉ h₁₀
  obtain rfl := Option.some.inj hsched
  dsimp only at *
  refine ⟨proc, ctx, stack, v₁, v₂, by omega, hmalloc, hproc, Option.some.inj hv₁, hv₂, hs, hv₃, ?_,
    rfl, rfl⟩
  dsimp only
  rw [Function.update_self, Function.update_idem]
  rfl

variable (A hhdmOffset kernelPagemap kvmCtx cpu) in
/-- No register frame is copied while a process is spawned. -/
theorem schedSpawn_copies (user : Bool) (entry pagemap vctx : ℕ) :
    Silent Kernel.copies
      (schedSpawn A hhdmOffset kernelPagemap kvmCtx cpu user entry pagemap vctx) := by
  have hlock : Silent Kernel.copies (spinlockAcquire cpu : Call (Kernel σ) Unit) := fun _ => rfl
  have hunlock : Silent Kernel.copies (spinlockRelease cpu : Call (Kernel σ) Unit) := fun _ => rfl
  have hpid : Silent Kernel.copies (atomicIncFetch : Call (Kernel σ) ℕ) := fun _ => rfl
  have hpanic : Silent Kernel.copies
      (spinlockRelease cpu >>= fun _ => (kpanic : Call (Kernel σ) ℕ)) :=
    hunlock.bind fun _ => silent_never
  refine hlock.bind fun _ => silent_getSched.bind fun _ => Silent.ite hpanic ?_
  refine (silent_kmalloc _).bind fun _ => Silent.ite hpanic ?_
  refine hpid.bind fun _ => (silent_onVmm _).bind fun _ => (silent_setPcb _ _).bind fun _ =>
    (silent_onVmm _).bind fun _ => Silent.ite ?_ ?_
  · exact (silent_kfree _).bind fun _ => (silent_setSched _).bind fun _ => hpanic
  · exact (silent_onVmm _).bind fun _ => (silent_setPcb _ _).bind fun _ =>
      (silent_setSched _).bind fun _ => hunlock.bind fun _ => silent_pure _

end Emk.Sched
