import Emk.Sched

/-!
# The handlers behind the stubs

`syscall_handler` of `arch/idt.c` with `sys/syscall.c`, and `pit_handler` of
`dev/timer/pit.c` with the callback `tick` of `emk.c`. What they print is left
out.
-/

set_option autoImplicit false

namespace Emk.TrapHandlers
open Emk.PageAllocator Emk.Vmm Emk.Calls Emk.Sched

def enosys : ℤ := 5
def sysExitNumber : ℕ := 0
def sysKpingNumber : ℕ := 1
def syscallTableSize : ℕ := 2

/-- The scheduler's state and how often the end of an interrupt was signalled. -/
structure System (σ : Type) where
  kernel : Kernel σ
  eois : ℕ

variable {σ α : Type}

def onKernel (m : Call (Kernel σ) α) : Call (System σ) α := fun s =>
  ((m s.kernel).1, { s with kernel := (m s.kernel).2 })

/-- A word taken as `int`. -/
def toInt32 (n : ℕ) : ℤ := ((n:ℤ)+2^31) % 2^32-2^31

/-- A `long` in a register. -/
def ofLong (n : ℤ) : ℕ := (n % 2^64).toNat

variable (A : Ops σ) (hhdmOffset kernelPagemap cpu : ℕ)

def sysKping : Call (Kernel σ) ℤ := do
  let sched ← getSched cpu
  if schedGetCurrent sched = 0 then pure (-esrch) else pure 0

/-- `dummy` is the uninitialised frame of `sched_terminate`. -/
def syscallDispatch (dummy : RegisterCtx) (num arg1 : ℕ) : Call (Kernel σ) ℤ :=
  if num ≥ syscallTableSize then pure (-enosys)
  else if num = sysExitNumber then
    sysExit A hhdmOffset kernelPagemap cpu dummy (toInt32 arg1)
  else sysKping cpu

def syscallHandler (dummy ctx : RegisterCtx) : Call (Kernel σ) RegisterCtx := do
  let status ← syscallDispatch A hhdmOffset kernelPagemap cpu dummy ctx.rax ctx.rdi
  let sched ← getSched cpu
  let proc := schedGetCurrent sched
  if proc ≠ 0 ∧ status < 0 then do
    setPcb proc fun p => { p with errno := ((-status) % 2^32).toNat }
    pure { ctx with rax := ofLong status }
  else pure { ctx with rax := ofLong status }

def tick (ctx : RegisterCtx) : Call (Kernel σ) RegisterCtx := do
  let out ← schedTick A hhdmOffset kernelPagemap cpu (some ctx)
  pure (out.getD ctx)

def lapicEoi : Call (System σ) Unit := update fun s => { s with eois := s.eois+1 }

/-- `pit_callback` is `NULL` until `timer_init`. -/
def pitHandler (callback : Option (RegisterCtx → Call (Kernel σ) RegisterCtx))
    (frame : RegisterCtx) : Call (System σ) RegisterCtx := do
  let frame ← match callback with
    | some f => onKernel (f frame)
    | none => pure frame
  lapicEoi
  pure frame

variable {A hhdmOffset kernelPagemap cpu} {k k' : Kernel σ}

theorem onKernel_returned {m : Call (Kernel σ) α} {s s' : System σ} {a : α}
    (h : onKernel m s = (some a, s')) :
    ∃ k', m s.kernel = (some a, k') ∧ s' = { s with kernel := k' } := by
  obtain ⟨h1, h2⟩ := Prod.mk.inj h
  exact ⟨_, Prod.ext h1 rfl, h2.symm⟩

theorem tick_returned {ctx out : RegisterCtx} (h : tick A hhdmOffset kernelPagemap cpu ctx k =
    (some out, k')) :
    ∃ r, schedTick A hhdmOffset kernelPagemap cpu (some ctx) k = (some r, k') ∧
      out = r.getD ctx := by
  obtain ⟨r, k₁, hr, h⟩ := bind_returned h
  obtain ⟨hout, rfl⟩ := Prod.mk.inj h
  exact ⟨r, hr, (Option.some.inj hout).symm⟩

/-- A timer interrupt that returns is signalled once, after the tick. -/
theorem pitHandler_returned {f : RegisterCtx → Call (Kernel σ) RegisterCtx} {ctx out : RegisterCtx}
    {s s' : System σ} (h : pitHandler (some f) ctx s = (some out, s')) :
    f ctx s.kernel = (some out, s'.kernel) ∧ s'.eois = s.eois+1 := by
  obtain ⟨x, s₁, hf, h⟩ := bind_returned h
  obtain ⟨k', hk, rfl⟩ := onKernel_returned hf
  obtain ⟨hout, rfl⟩ := Prod.mk.inj h
  rw [← Option.some.inj hout]
  exact ⟨hk, rfl⟩

section Syscall

def withErrno (p e : ℕ) (k : Kernel σ) : Kernel σ :=
  { k with pcbs := Function.update k.pcbs p { k.pcbs p with errno := e } }

variable (A hhdmOffset kernelPagemap cpu)

/-- What a system call other than `exit` leaves in `rax` when it comes from a process. -/
def statusOf (num : ℕ) : ℕ := if num = sysKpingNumber then 0 else 2^64-5

/-- A system call other than `exit` that comes from the current process changes
nothing but `rax` and the error number of that process. -/
theorem syscallHandler_returns (dummy ctx : RegisterCtx) (hnum : ctx.rax ≠ sysExitNumber)
    (hcur : schedGetCurrent (k.scheds cpu) ≠ 0) :
    ∃ e, syscallHandler A hhdmOffset kernelPagemap cpu dummy ctx k =
      (some { ctx with rax := statusOf ctx.rax }, withErrno (schedGetCurrent (k.scheds cpu)) e k) ∧
      e = if ctx.rax = sysKpingNumber then (k.pcbs (schedGetCurrent (k.scheds cpu))).errno
        else 5 := by
  by_cases hping : ctx.rax = sysKpingNumber
  · have hdisp : syscallDispatch A hhdmOffset kernelPagemap cpu dummy ctx.rax ctx.rdi k =
        (some 0, k) := by
      rw [syscallDispatch, hping, if_neg (by decide), if_neg (by decide), sysKping, getSched,
        observe_bind, if_neg hcur]
      rfl
    refine ⟨_, ?_, rfl⟩
    rw [syscallHandler, bind_of_returned hdisp, getSched, observe_bind,
      if_neg (fun h => absurd h.2 (by decide)), if_pos hping, statusOf, if_pos hping,
      withErrno, Function.update_eq_self]
    rfl
  · have hdisp : syscallDispatch A hhdmOffset kernelPagemap cpu dummy ctx.rax ctx.rdi k =
        (some (-enosys), k) := by
      rw [syscallDispatch, if_pos]
      · rfl
      · rw [sysExitNumber] at hnum
        rw [sysKpingNumber] at hping
        rw [syscallTableSize]
        omega
    refine ⟨_, ?_, rfl⟩
    rw [syscallHandler, bind_of_returned hdisp, getSched, observe_bind,
      if_pos ⟨hcur, by decide⟩, if_neg hping, statusOf, if_neg hping]
    rfl

end Syscall

end Emk.TrapHandlers
