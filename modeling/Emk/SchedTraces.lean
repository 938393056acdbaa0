import Emk.Sched

/-!
# What the scheduler writes into its logs

Every part of the scheduler that runs under the lock of its CPU is silent
about locks up to the one release at its end.
-/

set_option autoImplicit false

namespace Emk.Sched
open Emk.ByteMemory Emk.PageAllocator Emk.Paging Emk.Vmm Emk.Calls Emk.LockTrace

variable {σ α : Type} {A : Ops σ} {hhdmOffset kernelPagemap kvmCtx cpu : ℕ}

section Silence

/-- A part of the kernel state that only the two logs and the pid counter determine. -/
class Traced {T : Type} (view : Kernel σ → T) : Prop where
  of_logs : ∀ k k' : Kernel σ, k.locks = k'.locks → k.copies = k'.copies →
    k.globalPidCounter = k'.globalPidCounter → view k = view k'

instance tracedLocks : Traced (Kernel.locks : Kernel σ → List (Event ℕ)) := ⟨fun _ _ h _ _ => h⟩

instance tracedCopies : Traced (Kernel.copies : Kernel σ → List Copy) := ⟨fun _ _ _ h _ => h⟩

instance tracedCounter : Traced (Kernel.globalPidCounter : Kernel σ → ℕ) := ⟨fun _ _ _ _ h => h⟩

variable {T : Type} {view : Kernel σ → T}

theorem silent_getSched : Silent view (getSched cpu : Call (Kernel σ) CpuSched) :=
  silent_observe _

theorem silent_getPcb (p : ℕ) : Silent view (getPcb p : Call (Kernel σ) Pcb) :=
  silent_observe _

variable [Traced view]

theorem silent_kmalloc (n : ℕ) : Silent view (kmalloc n : Call (Kernel σ) ℕ) :=
  silent_attempt fun k a k' h => by
    obtain ⟨r, -, hr⟩ := Option.map_eq_some_iff.mp h
    rw [← (Prod.mk.inj hr).2]
    exact Traced.of_logs _ _ rfl rfl rfl

theorem silent_kfree (p : ℕ) : Silent view (kfree p : Call (Kernel σ) Unit) :=
  silent_attempt fun k a k' h => by
    obtain ⟨r, -, hr⟩ := Option.map_eq_some_iff.mp h
    rw [← (Prod.mk.inj hr).2]
    exact Traced.of_logs _ _ rfl rfl rfl

theorem silent_onVmm (f : State σ → Option (α × State σ)) : Silent view (onVmm f) :=
  silent_attempt fun k a k' h => by
    obtain ⟨r, -, hr⟩ := Option.map_eq_some_iff.mp h
    rw [← (Prod.mk.inj hr).2]
    exact Traced.of_logs _ _ rfl rfl rfl

theorem silent_setSched (g : CpuSched → CpuSched) :
    Silent view (setSched cpu g : Call (Kernel σ) Unit) :=
  silent_update fun _ => Traced.of_logs _ _ rfl rfl rfl

theorem silent_setPcb (p : ℕ) (g : Pcb → Pcb) :
    Silent view (setPcb p g : Call (Kernel σ) Unit) :=
  silent_update fun _ => Traced.of_logs _ _ rfl rfl rfl

theorem silent_pmset (pm : ℕ) :
    Silent view (pmset cpu hhdmOffset pm : Call (Kernel σ) Unit) :=
  Silent.ite silent_never (silent_update fun _ => Traced.of_logs _ _ rfl rfl rfl)

theorem silent_reap (p : ℕ) : Silent view (reap A hhdmOffset cpu p) :=
  (silent_getPcb p).bind fun _ => (silent_onVmm _).bind fun _ => (silent_onVmm _).bind fun _ =>
    (silent_kfree p).bind fun _ => silent_setSched _

theorem silent_advance : Silent view (advance A hhdmOffset cpu) :=
  (silent_setSched _).bind fun _ => silent_getSched.bind fun _ => (silent_getPcb _).bind fun _ =>
    Silent.ite ((silent_reap _).bind fun _ => silent_pure _) (silent_pure _)

theorem silent_nextProc (start fuel : ℕ) :
    Silent view (nextProc A hhdmOffset cpu start fuel) := by
  induction fuel with
  | zero => exact silent_never
  | succ fuel ih =>
    exact silent_advance.bind fun _ => silent_getSched.bind fun _ => Silent.ite ih (silent_pure _)

theorem silent_orFirst (next : ℕ) :
    Silent view (orFirst cpu next : Call (Kernel σ) ℕ) :=
  silent_getSched.bind fun _ =>
    Silent.ite ((silent_setSched _).bind fun _ => silent_pure _) (silent_pure _)

end Silence

section Sections

theorem silent_logCopy (c : Copy) : Silent Kernel.locks (logCopy c : Call (Kernel σ) Unit) :=
  silent_update fun _ => rfl

theorem silent_saveCurrent (p : ℕ) (frame : RegisterCtx) :
    Silent Kernel.locks (saveCurrent p frame : Call (Kernel σ) Unit) :=
  (silent_getPcb p).bind fun _ =>
    Silent.ite ((silent_logCopy _).bind fun _ => silent_setPcb _ _) (silent_pure _)

theorem release_ends {f : Unit → Call (Kernel σ) α} (hf : ∀ u, Silent Kernel.locks (f u)) :
    Ends Kernel.locks (.release cpu) (spinlockRelease cpu >>= f) :=
  Ends.first (fun _ => ⟨(), rfl, rfl⟩) hf

theorem dispatch_ends (next : ℕ) (frame : RegisterCtx) :
    Ends Kernel.locks (.release cpu)
      (dispatch hhdmOffset kernelPagemap cpu next frame : Call (Kernel σ) RegisterCtx) :=
  Ends.bind silent_getSched fun _ => Ends.bind (silent_getPcb _) fun _ => Ends.ite
    (Ends.bind (silent_setPcb _ _) fun _ => Ends.bind (silent_pmset _) fun _ =>
      Ends.bind (silent_logCopy _) fun _ => release_ends fun _ => silent_pure _)
    (Ends.ite (release_ends fun _ => (silent_pmset _).bind fun _ => silent_never)
      (release_ends fun _ => silent_pure _))

/-- The call takes the lock of its CPU and gives it back at the end, if it
gets there. -/
def Bracketed (cpu : ℕ) (m : Call (Kernel σ) α) : Prop :=
  Meets m fun k r k' => k'.locks = k.locks ++ [.acquire cpu, .release cpu] ∨
    (r = none ∧ k'.locks = k.locks ++ [.acquire cpu])

theorem Bracketed.of_ends {f : Unit → Call (Kernel σ) α}
    (hf : ∀ u, Ends Kernel.locks (.release cpu) (f u)) :
    Bracketed cpu (spinlockAcquire cpu >>= f) := by
  intro k
  have h := hf () { k with locks := k.locks ++ [.acquire cpu] }
  dsimp only at h
  rw [List.append_assoc] at h
  exact h

theorem schedTick_bracketed (frame : RegisterCtx) :
    Bracketed cpu (schedTick A hhdmOffset kernelPagemap cpu (some frame)) := by
  refine Bracketed.of_ends fun _ => Ends.bind silent_getSched fun _ => Ends.ite ?_ ?_
  · exact release_ends fun _ => (silent_pmset _).bind fun _ => silent_pure _
  · exact Ends.bind (silent_saveCurrent _ _) fun _ => Ends.bind (silent_nextProc _ _) fun _ =>
      Ends.bind (silent_orFirst _) fun _ => Ends.before (dispatch_ends _ _) fun _ => silent_pure _

theorem schedSpawn_bracketed (user : Bool) (entry pagemap vctx : ℕ) :
    Bracketed cpu (schedSpawn A hhdmOffset kernelPagemap kvmCtx cpu user entry pagemap vctx) := by
  have hpanic : Ends Kernel.locks (.release cpu)
      (spinlockRelease cpu >>= fun _ => (kpanic : Call (Kernel σ) ℕ)) :=
    release_ends fun _ => silent_never
  have hpid : Silent Kernel.locks (atomicIncFetch : Call (Kernel σ) ℕ) := fun _ => rfl
  refine Bracketed.of_ends fun _ => Ends.bind silent_getSched fun _ => Ends.ite hpanic ?_
  refine Ends.bind (silent_kmalloc _) fun _ => Ends.ite hpanic ?_
  refine Ends.bind hpid fun _ => Ends.bind (silent_onVmm _) fun _ => Ends.bind (silent_setPcb _ _)
    fun _ => Ends.bind (silent_onVmm _) fun _ => Ends.ite ?_ ?_
  · exact Ends.bind (silent_kfree _) fun _ => Ends.bind (silent_setSched _) fun _ => hpanic
  · exact Ends.bind (silent_onVmm _) fun _ => Ends.bind (silent_setPcb _ _) fun _ =>
      Ends.bind (silent_setSched _) fun _ => release_ends fun _ => silent_pure _

end Sections

end Emk.Sched
