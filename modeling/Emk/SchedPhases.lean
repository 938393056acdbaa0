import Emk.SchedSpawn

/-!
# `sched_spawn` in steps

The lock of a CPU keeps its own ticks out while a process is spawned, not the
other CPUs. The function is cut where it touches what the CPUs share: the
heap, the pid counter and, at its end, the process table.
-/

set_option autoImplicit false

namespace Emk.Sched
open Emk.PageAllocator Emk.Paging Emk.Vmm Emk.Calls

variable {σ α : Type} (A : Ops σ) (hhdmOffset kernelPagemap kvmCtx cpu : ℕ)

/-- Up to the new control block. -/
def spawnAlloc : Call (Kernel σ) ℕ := do
  spinlockAcquire cpu
  let sched ← getSched cpu
  if sched.count ≥ procMaxProcsPerCpu then do
    spinlockRelease cpu
    kpanic
  else do
    let proc ← kmalloc pcbSize
    if proc = 0 then do
      spinlockRelease cpu
      kpanic
    else pure proc

/-- The control block, the stack and the mappings of a process that has its pid. -/
def spawnBuild (user : Bool) (entry pagemap vctx proc pid : ℕ) : Call (Kernel σ) Unit := do
  let pm := if pagemap ≠ 0 then pagemap else kernelPagemap
  let ctx ← onVmm fun s => some (procContext A pm vctx s)
  setPcb proc fun _ => newPcb user entry pid pm ctx
  let stack ← onVmm (valloc A hhdmOffset ctx stackSize (mapFlags user))
  if stack = 0 then do
    kfree proc
    setSched cpu fun c => { c with count := dec32 c.count }
    spinlockRelease cpu
    kpanic
  else do
    let sched ← getSched cpu
    onVmm (mapKernel A hhdmOffset kernelPagemap kvmCtx proc sched.table pm (mapFlags user))
    setPcb proc (withStack stack)

/-- The process becomes the last one of the table. -/
def spawnInsert (proc pid : ℕ) : Call (Kernel σ) ℕ := do
  setSched cpu fun c =>
    { c with procs := Function.update c.procs c.count proc, count := c.count+1 }
  spinlockRelease cpu
  pure pid

variable {A hhdmOffset kernelPagemap kvmCtx cpu} {k k' : Kernel σ}

theorem kmalloc_scheds {n p : ℕ} (h : kmalloc n k = (some p, k')) : k'.scheds = k.scheds := by
  obtain ⟨heap, -, rfl⟩ := kmalloc_returned h
  rfl

theorem onVmm_scheds {f : State σ → Option (α × State σ)} {a : α}
    (h : onVmm f k = (some a, k')) : k'.scheds = k.scheds := by
  obtain ⟨v, -, rfl⟩ := onVmm_returned h
  rfl

theorem spawnAlloc_returned {proc : ℕ} (h : spawnAlloc cpu k = (some proc, k')) :
    (k.scheds cpu).count < procMaxProcsPerCpu ∧ proc ≠ 0 ∧
      ∃ heap, FirstFitHeap.kmalloc pcbSize k.heap = some (proc, heap) ∧
        k' = { k with heap := heap, locks := k.locks ++ [.acquire cpu] } := by
  rw [spawnAlloc, spinlockAcquire, update_bind, getSched, observe_bind] at h
  dsimp only at h
  split_ifs at h with hfull
  · obtain ⟨_, _, -, h⟩ := bind_returned h
    exact (never_returned h).elim
  · obtain ⟨p, k₁, hk, h⟩ := bind_returned h
    obtain ⟨heap, hmalloc, rfl⟩ := kmalloc_returned hk
    split_ifs at h with h0
    · obtain ⟨_, _, -, h⟩ := bind_returned h
      exact (never_returned h).elim
    · obtain ⟨hp, rfl⟩ := Prod.mk.inj h
      obtain rfl := Option.some.inj hp
      exact ⟨by omega, h0, heap, hmalloc, rfl⟩

/-- Nothing but its own control block and the memory manager changes. -/
theorem spawnBuild_returned {user : Bool} {entry pagemap vctx proc pid : ℕ} {u : Unit}
    (h : spawnBuild A hhdmOffset kernelPagemap kvmCtx cpu user entry pagemap vctx proc pid k =
      (some u, k')) :
    ∃ vmm pcb, pcb.pid = pid ∧
      k' = { k with vmm := vmm, pcbs := Function.update k.pcbs proc pcb } := by
  rw [spawnBuild] at h
  obtain ⟨ctx, k₁, h1, h⟩ := bind_returned h
  obtain ⟨v₁, -, hk₁⟩ := onVmm_returned h1
  rw [setPcb, update_bind] at h
  obtain ⟨stack, k₂, h2, h⟩ := bind_returned h
  obtain ⟨v₂, -, hk₂⟩ := onVmm_returned h2
  by_cases h0 : stack = 0
  · rw [if_pos h0] at h
    obtain ⟨_, _, -, h⟩ := bind_returned h
    obtain ⟨_, _, -, h⟩ := bind_returned h
    obtain ⟨_, _, -, h⟩ := bind_returned h
    exact (never_returned h).elim
  · rw [if_neg h0, getSched, observe_bind] at h
    obtain ⟨_, k₃, h3, h⟩ := bind_returned h
    obtain ⟨v₃, -, hk₃⟩ := onVmm_returned h3
    obtain ⟨-, hk'⟩ := Prod.mk.inj h
    refine ⟨v₃, withStack stack
      (newPcb user entry pid (if pagemap ≠ 0 then pagemap else kernelPagemap) ctx), rfl, ?_⟩
    subst hk₁ hk₂ hk₃ hk'
    dsimp only
    rw [Function.update_idem, Function.update_self]

theorem spawnInsert_returned {proc pid pid' : ℕ}
    (h : spawnInsert cpu proc pid k = (some pid', k')) :
    pid' = pid ∧ k' = { k with
      locks := k.locks ++ [.release cpu]
      scheds := Function.update k.scheds cpu { k.scheds cpu with
        procs := Function.update (k.scheds cpu).procs (k.scheds cpu).count proc
        count := (k.scheds cpu).count+1 } } := by
  obtain ⟨hp, rfl⟩ := Prod.mk.inj h
  exact ⟨(Option.some.inj hp).symm, rfl⟩

/-- Without other CPUs in between, the steps are `sched_spawn`. -/
theorem schedSpawn_phases (user : Bool) (entry pagemap vctx : ℕ) (k : Kernel σ) :
    schedSpawn A hhdmOffset kernelPagemap kvmCtx cpu user entry pagemap vctx k =
      (spawnAlloc cpu >>= fun proc => atomicIncFetch >>= fun pid =>
        spawnBuild A hhdmOffset kernelPagemap kvmCtx cpu user entry pagemap vctx proc pid >>=
          fun _ => spawnInsert cpu proc pid) k := by
  rw [schedSpawn, spawnAlloc, bind_assoc_apply, spinlockAcquire, update_bind, update_bind,
    bind_assoc_apply, getSched, observe_bind, observe_bind]
  dsimp only
  by_cases hfull : (k.scheds cpu).count ≥ procMaxProcsPerCpu
  · rw [if_pos hfull, if_pos hfull]
    rfl
  rw [if_neg hfull, if_neg hfull, bind_assoc_apply]
  refine bind_congr_returned fun proc k₁ hk => ?_
  have hs₁ := kmalloc_scheds hk
  by_cases h0 : proc = 0
  · rw [if_pos h0, if_pos h0]
    rfl
  rw [if_neg h0, if_neg h0, bind_of_returned (pure_apply proc k₁)]
  refine bind_congr_returned fun pid k₂ hpid => ?_
  have hs₂ : k₂.scheds = k₁.scheds := by rw [← (Prod.mk.inj hpid).2]
  rw [spawnBuild, bind_assoc_apply]
  refine bind_congr_returned fun ctx k₃ hctx => ?_
  have hs₃ : k₃.scheds = k₂.scheds := onVmm_scheds hctx
  rw [setPcb, update_bind, bind_assoc_apply, update_bind, bind_assoc_apply]
  refine bind_congr_returned fun stack k₄ hstack => ?_
  have hs₄ := onVmm_scheds hstack
  by_cases hs : stack = 0
  · rw [if_pos hs, if_pos hs]
    simp only [bind_assoc_apply]
    rfl
  rw [if_neg hs, if_neg hs, bind_assoc_apply, getSched, observe_bind, bind_assoc_apply, hs₄, hs₃,
    hs₂, hs₁]
  rfl

end Emk.Sched
