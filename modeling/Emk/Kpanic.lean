import Mathlib.Data.Finset.Lattice.Fold
import Emk.Lapic

/-!
# The kernel panic

`sys/kpanic.c`. The panic stops the other CPUs, prints the registers and a
backtrace and halts. The functions it calls may panic in turn, so a bound on
the depth of that recursion and on the rounds of each wait stands in for time.
A fault ends the run here: what follows it is the default interrupt handler,
which enters `kpanic` again.
-/

set_option autoImplicit false

namespace Emk.Kpanic
open Emk.Calls Emk.Lapic
open Emk.Sched (RegisterCtx)

def strings : List String :=
  ["Division by Zero", "Debug", "Non-Maskable-Interrupt", "Breakpoint", "Overflow",
   "Bound Range Exceeded", "Invalid opcode", "Device (FPU) not available", "Double Fault",
   "RESERVED VECTOR", "Invalid TSS", "Segment not present", "Stack Segment Fault",
   "General Protection Fault", "Page Fault", "RESERVED VECTOR", "x87 FP Exception",
   "Alignment Check", "Machine Check (Internal Error)", "SIMD FP Exception",
   "Virtualization Exception", "Control  Protection Exception", "RESERVED VECTOR",
   "RESERVED VECTOR", "RESERVED VECTOR", "RESERVED VECTOR", "RESERVED VECTOR",
   "RESERVED VECTOR", "Hypervisor Injection Exception", "VMM Communication Exception",
   "Security Exception", "RESERVED VECTOR"]

def maxBacktraceFrames : ℕ := 20

/-- A CPU that was sent the command clears its flag in `die`. -/
def poll (i : ℕ) (s : Machine) : Machine :=
  if s.dieSent = false then s
  else if s.delay i = 0 then
    { s with cpuLocals := Function.update s.cpuLocals i { s.cpuLocals i with ready := false } }
  else { s with delay := Function.update s.delay i (s.delay i-1) }

def awaitDeath (i : ℕ) : ℕ → Call Machine Unit
  | 0 => never
  | fuel+1 => do
    let ready ← observe fun s => (s.cpuLocals i).ready
    if ready then do
      update (poll i)
      awaitDeath i fuel
    else pure ()

section Code
variable (panic : String → Call Machine Unit) (fuel : ℕ)

/-- One round of the wait for the other CPUs. Without a record of its own the
panicking CPU reads the `cpu_index` of `NULL`. -/
def waitCpu (i : ℕ) : Call Machine Unit := do
  let cpu ← getCpuLocal panic
  match cpu with
  | none => stop (.fault 4)
  | some cpu => do
    let other ← observe fun s => decide ((s.cpuLocals i).cpuIndex ≠ (s.cpuLocals cpu).cpuIndex)
    if other then awaitDeath i fuel else pure ()

/-- The rounds for `n` CPUs from index `i` on. -/
def waitCpus : ℕ → ℕ → Call Machine Unit
  | 0, _ => pure ()
  | n+1, i => do
    waitCpu panic fuel i
    waitCpus n (i+1)

end Code

def message (fmt : Option String) (regs : RegisterCtx) : String :=
  match fmt with
  | some text => text
  | none =>
    if regs.vector ≥ strings.length then "Unknown panic vector: %d"
    else strings.getD regs.vector ""

def headline (text : String) (cpu : Option ℕ) : String :=
  if cpu.isSome then "=== Kernel panic: '" ++ text ++ "' on CPU %d @ 0x%.16llx ==="
  else "=== Kernel panic: '" ++ text ++ "' on CPU ??? @ 0x%.16llx ==="

def registerLines : List String :=
  ["Registers:",
   "  rax: 0x%.16llx  rbx:    0x%.16llx  rcx: 0x%.16llx  rdx: 0x%.16llx",
   "  rsi: 0x%.16llx  rdi:    0x%.16llx  rbp: 0x%.16llx  rsp: 0x%.16llx",
   "  r8 : 0x%.16llx  r9 :    0x%.16llx  r10: 0x%.16llx  r11: 0x%.16llx",
   "  r12: 0x%.16llx  r13:    0x%.16llx  r14: 0x%.16llx  r15: 0x%.16llx",
   "  rip: 0x%.16llx  rflags: 0x%.16llx",
   "  cs : 0x%.16llx  ss:     0x%.16llx  ds:  0x%.16llx  es:  0x%.16llx",
   "  cr0: 0x%.16llx  cr2:    0x%.16llx  cr3: 0x%.16llx  cr4: 0x%.16llx",
   "  err: 0x%.16llx  vector: 0x%.16llx"]

def logLines : List String → Call Machine Unit
  | [] => pure ()
  | text::texts => do
    logPanic text
    logLines texts

/-- The stack as `backtrace` reads it: the saved `rbp` of the frame at an
address, with `none` where one of the frame's two words is not mapped. -/
abbrev Frames := ℕ → Option ℕ

section Trace
variable (frames : Frames)

/-- The loop with `n` frames left before the limit. -/
def backtraceLoop : ℕ → ℕ → Call Machine Unit
  | 0, _ => logPanic "  Backtrace truncated at %d frames"
  | n+1, rbp =>
    if rbp = 0 then pure ()
    else match frames rbp with
      | none => stop (.fault rbp)
      | some next => do
        logPanic "  [%d] 0x%.16llx"
        backtraceLoop n next

/-- `rbp` is at offset 128 of `struct register_ctx`. -/
def backtrace : Option RegisterCtx → Call Machine Unit
  | none => stop (.fault 128)
  | some ctx => do
    logLines ["Stack Backtrace:", "  [0] 0x%.16llx (kpanic caller)"]
    backtraceLoop frames (maxBacktraceFrames-1) ctx.rbp

/-- `kpanic` over the panics of its callees. The registers that
`capture_regs` finds are `own`, and the backtrace is taken of `ctx` itself. -/
def kpanicBody (own : RegisterCtx) (panic : String → Call Machine Unit) (fuel : ℕ)
    (ctx : Option RegisterCtx) (fmt : Option String) : Call Machine Unit := do
  sendDie panic fuel
  let count ← observe fun s => s.cpuCount
  waitCpus panic fuel count 0
  let cpu ← getCpuLocal panic
  logLines (headline (message fmt (ctx.getD { own with vector := 0, err := 0xDEADBEEF })) cpu ::
    registerLines)
  backtrace frames ctx
  stop .halted

def kpanic (own : RegisterCtx) : ℕ → Option RegisterCtx → Option String → Call Machine Unit
  | 0, _, _ => never
  | fuel+1, ctx, fmt => do
    update fun s => { s with entered := s.entered+1 }
    kpanicBody frames own (fun text => kpanic own fuel none (some text)) fuel ctx fmt

/-- The chain of frames from `rbp` on ends, or reaches the limit of `n`
frames, before it leaves mapped memory. -/
def Unwinds : ℕ → ℕ → Prop
  | 0, _ => True
  | n+1, rbp => rbp = 0 ∨ ∃ next, frames rbp = some next ∧ Unwinds n next

end Trace

section Print
variable {s : Machine}

theorem logPanic_returns (h : s.kprintfHeld = false) (text : String) :
    ∃ s', logPanic text s = (some (), s') ∧ s'.kprintfHeld = false := by
  rw [logPanic, log, kprintf, if_neg (by rw [h]; decide)]
  exact ⟨_, rfl, h⟩

theorem logPanic_returned {text : String} {s' : Machine} (h : logPanic text s = (some (), s')) :
    s.kprintfHeld = false := by
  rw [logPanic, log, kprintf] at h
  split_ifs at h with hheld
  · exact absurd (Prod.mk.inj h).1 (by simp)
  · exact Bool.eq_false_iff.mpr hheld

theorem logLines_returns (texts : List String) (h : s.kprintfHeld = false) :
    ∃ s', logLines texts s = (some (), s') ∧ s'.kprintfHeld = false := by
  induction texts generalizing s with
  | nil => exact ⟨s, rfl, h⟩
  | cons text texts ih =>
    obtain ⟨s₁, h1, hheld⟩ := logPanic_returns h text
    rw [logLines, bind_of_returned h1]
    exact ih hheld

theorem steady_logLines (texts : List String) : Steady (logLines texts) := by
  induction texts with
  | nil => exact steady_pure ()
  | cons text texts ih => exact (steady_logPanic text).bind fun _ => ih

variable {frames : Frames}

theorem steady_backtraceLoop (n rbp : ℕ) : Steady (backtraceLoop frames n rbp) := by
  induction n generalizing rbp with
  | zero => exact steady_logPanic _
  | succ n ih =>
    rw [backtraceLoop]
    refine (steady_pure ()).ite ?_
    cases frames rbp with
    | none => exact steady_stop Finish.noConfusion
    | some next => exact (steady_logPanic _).bind fun _ => ih next

/-- The loop gets to its end exactly along a chain of mapped frames. -/
theorem backtraceLoop_returns_iff (n rbp : ℕ) (h : s.kprintfHeld = false) :
    (∃ s', backtraceLoop frames n rbp s = (some (), s')) ↔ Unwinds frames n rbp := by
  induction n generalizing s rbp with
  | zero =>
    obtain ⟨s', hs', -⟩ := logPanic_returns h "  Backtrace truncated at %d frames"
    exact iff_of_true ⟨s', hs'⟩ trivial
  | succ n ih =>
    rw [backtraceLoop, Unwinds]
    by_cases h0 : rbp = 0
    · rw [if_pos h0]
      exact iff_of_true ⟨s, rfl⟩ (.inl h0)
    · rw [if_neg h0]
      cases hf : frames rbp with
      | none => simp [stop, h0]
      | some next =>
        obtain ⟨s₁, hs₁, hheld⟩ := logPanic_returns h "  [%d] 0x%.16llx"
        simp only [bind_of_returned hs₁, ih next hheld, h0, false_or, Option.some.injEq,
          exists_eq_left']

theorem steady_backtrace (ctx : Option RegisterCtx) : Steady (backtrace frames ctx) := by
  cases ctx with
  | none => exact steady_stop Finish.noConfusion
  | some ctx => exact (steady_logLines _).bind fun _ => steady_backtraceLoop _ _

theorem backtrace_returns_iff (ctx : Option RegisterCtx) (h : s.kprintfHeld = false) :
    (∃ s', backtrace frames ctx s = (some (), s')) ↔
      ∃ r, ctx = some r ∧ Unwinds frames (maxBacktraceFrames-1) r.rbp := by
  cases ctx with
  | none => simp [backtrace, stop]
  | some r =>
    obtain ⟨s₁, hs₁, hheld⟩ :=
      logLines_returns ["Stack Backtrace:", "  [0] 0x%.16llx (kpanic caller)"] h
    rw [backtrace, bind_of_returned hs₁, backtraceLoop_returns_iff _ _ hheld]
    simp

end Print

section Wait
variable {s : Machine}

theorem kept_poll (i : ℕ) (s : Machine) : Kept s (poll i s) := by
  rw [poll]
  split_ifs
  · exact .refl s
  · refine ⟨rfl, rfl, rfl, fun j => ?_, fun j => ?_, rfl, rfl, rfl, rfl⟩
    all_goals rcases eq_or_ne j i with rfl | hj
    all_goals simp [*]
  · exact .rest s

theorem poll_finish (i : ℕ) (s : Machine) : (poll i s).finish = s.finish := by
  rw [poll]
  split_ifs <;> rfl

theorem steady_awaitDeath (i fuel : ℕ) : Steady (awaitDeath i fuel) := by
  induction fuel with
  | zero => exact steady_never
  | succ fuel ih =>
    exact (steady_observe _).bind fun _ =>
      ((steady_update (kept_poll i) (poll_finish i)).bind fun _ => ih).ite (steady_pure ())

/-- A CPU that was sent the command is seen to be down. -/
theorem awaitDeath_returns {i fuel : ℕ} (hsent : s.dieSent = true) (hfuel : s.delay i+1 < fuel) :
    ∃ s', awaitDeath i fuel s = (some (), s') ∧ s'.dieSent = true ∧
      ∀ j, j ≠ i → s'.delay j = s.delay j := by
  induction fuel generalizing s with
  | zero => exact absurd hfuel (Nat.not_lt_zero _)
  | succ fuel ih =>
    rw [awaitDeath, observe_bind]
    split_ifs with hready
    · rw [update_bind, poll, if_neg (by rw [hsent]; decide)]
      by_cases h0 : s.delay i = 0
      · obtain ⟨fuel, rfl⟩ : ∃ f, fuel = f+1 := ⟨fuel-1, by omega⟩
        rw [if_pos h0, awaitDeath, observe_bind, if_neg (by simp)]
        exact ⟨_, rfl, hsent, fun j _ => rfl⟩
      · rw [if_neg h0]
        obtain ⟨s', hs', hsent', hdelay⟩ :=
          ih (s := { s with delay := Function.update s.delay i (s.delay i-1) }) hsent
            (by simp; omega)
        exact ⟨s', hs', hsent', fun j hj => (hdelay j hj).trans (Function.update_of_ne hj _ _)⟩
    · exact ⟨s, rfl, hsent, fun j _ => rfl⟩

variable {panic : String → Call Machine Unit} {fuel : ℕ}

theorem steady_waitCpu (i : ℕ) : Steady (waitCpu panic fuel i) := by
  refine steady_getCpuLocal.bind fun cpu => ?_
  cases cpu with
  | none => exact steady_stop Finish.noConfusion
  | some cpu =>
    exact (steady_observe _).bind fun _ => (steady_awaitDeath i fuel).ite (steady_pure ())

theorem steady_waitCpus (n i : ℕ) : Steady (waitCpus panic fuel n i) := by
  induction n generalizing i with
  | zero => exact steady_pure ()
  | succ n ih => exact (steady_waitCpu i).bind fun _ => ih (i+1)

theorem waitCpu_returned {i : ℕ} {s' : Machine} (hb : s.lapicBase ≠ 0)
    (h : waitCpu panic fuel i s = (some (), s')) : (localCpu s.toKernel).isSome := by
  cases hcpu : localCpu s.toKernel with
  | some cpu => rfl
  | none =>
    obtain ⟨cpu, s₁, hget, hrest⟩ := bind_returned h
    rw [getCpuLocal_lost hb hcpu] at hget
    obtain ⟨_, _, -, hpure⟩ := bind_returned hget
    obtain ⟨hcpu, -⟩ := Prod.mk.inj hpure
    rw [← Option.some.inj hcpu] at hrest
    exact absurd (Prod.mk.inj hrest).1 (by simp)

theorem waitCpu_returns {i : ℕ} (hb : s.lapicBase ≠ 0) (hcpu : (localCpu s.toKernel).isSome)
    (hsent : s.dieSent = true) (hfuel : s.delay i+1 < fuel) :
    ∃ s', waitCpu panic fuel i s = (some (), s') ∧ s'.dieSent = true ∧
      ∀ j, j ≠ i → s'.delay j = s.delay j := by
  obtain ⟨cpu, hcpu⟩ := Option.isSome_iff_exists.mp hcpu
  rw [waitCpu, bind_of_returned (getCpuLocal_found hb hcpu)]
  simp only [observe_bind]
  split_ifs
  · exact awaitDeath_returns hsent hfuel
  · exact ⟨s, rfl, hsent, fun j _ => rfl⟩

variable (panic) in
/-- The wait ends when every CPU answers within the rounds that are left. -/
theorem waitCpus_returns (n i : ℕ) (hb : s.lapicBase ≠ 0) (hs : s.finish = none)
    (hcpu : n = 0 ∨ (localCpu s.toKernel).isSome) (hsent : s.dieSent = true)
    (hfuel : ∀ j, i ≤ j → j < i+n → s.delay j+1 < fuel) :
    ∃ s', waitCpus panic fuel n i s = (some (), s') := by
  induction n generalizing s i with
  | zero => exact ⟨s, rfl⟩
  | succ n ih =>
    have hlocal := hcpu.resolve_left (Nat.succ_ne_zero n)
    obtain ⟨s₁, h1, hsent₁, hdelay⟩ :=
      waitCpu_returns hb hlocal hsent (hfuel i le_rfl (by omega))
    obtain ⟨hkept, hs₁⟩ := (steady_waitCpu i).returned hb hs h1
    rw [waitCpus, bind_of_returned h1]
    refine ih (i+1) (hkept.set hb) hs₁
      (.inr (by rw [hkept.localCpu]; exact hlocal)) hsent₁ fun j hij hjn => ?_
    rw [hdelay j (by omega)]
    exact hfuel j (by omega) (by omega)

end Wait

section Halt
variable {frames : Frames} {own : RegisterCtx} {panic : String → Call Machine Unit} {fuel : ℕ}
  {ctx : Option RegisterCtx} {fmt : Option String} {s : Machine}

theorem kpanicBody_never_returns : (kpanicBody frames own panic fuel ctx fmt s).1 = none := by
  have hbind : ∀ {α : Type} (c : Call Machine α) (f : α → Call Machine Unit) (s : Machine),
      (∀ a s, (f a s).1 = none) → ((c >>= f) s).1 = none := by
    intro α c f s hf
    rw [bind_apply]
    rcases c s with ⟨_ | a, s₁⟩
    · rfl
    · exact hf a s₁
  refine hbind _ _ _ fun _ _ => hbind _ _ _ fun _ _ => hbind _ _ _ fun _ _ =>
    hbind _ _ _ fun _ _ => hbind _ _ _ fun _ _ => hbind _ _ _ fun _ _ => rfl

theorem kpanic_never_returns : (kpanic frames own fuel ctx fmt s).1 = none := by
  cases fuel with
  | zero => rfl
  | succ fuel => exact kpanicBody_never_returns

/-- Without a local APIC base the panic panics again, at every depth. -/
theorem kpanic_unset (hb : s.lapicBase = 0) (hs : s.finish = none) :
    (kpanic frames own fuel ctx fmt s).2.finish ≠ some .halted := by
  induction fuel generalizing s ctx fmt with
  | zero => simp [kpanic, never, hs]
  | succ fuel ih =>
    let s₁ : Machine := { s with entered := s.entered+1 }
    rw [kpanic, update_bind, kpanicBody]
    by_cases hheld : s₁.kprintfHeld = true
    · have hlog : ∀ text, logEarly text s₁ = (none, { s₁ with finish := some .spinning }) :=
        fun text => if_pos hheld
      rw [bind_of_never ((sendDie_unset (s := s₁) hb).trans (bind_of_never (hlog _)))]
      exact fun h => Finish.noConfusion (Option.some.inj h)
    · let s₂ : Machine := { s₁ with
        console := s₁.console ++ ["[*] early: error: LAPIC not initialized for IPI\n"] }
      have hlog : logEarly "error: LAPIC not initialized for IPI" s₁ = (some (), s₂) :=
        if_neg hheld
      rw [bind_of_fst_none, sendDie_unset (s := s₁) hb, bind_of_returned hlog]
      · exact ih (s := s₂) hb hs
      · rw [sendDie_unset (s := s₁) hb, bind_of_returned hlog]
        exact kpanic_never_returns

/-- What a panic that ends in the final halt went through. -/
theorem kpanicBody_needs (hb : s.lapicBase ≠ 0) (hs : s.finish = none)
    (h : (kpanicBody frames own panic fuel ctx fmt s).2.finish = some .halted) :
    s.kprintfHeld = false ∧ (s.cpuCount = 0 ∨ (localCpu s.toKernel).isSome) ∧
      ∃ r, ctx = some r ∧ Unwinds frames (maxBacktraceFrames-1) r.rbp := by
  obtain ⟨_, s₁, -, hk1, hs1, h⟩ := steady_sendDie.passed hb hs h
  have hb1 := hk1.set hb
  rw [observe_bind] at h
  obtain ⟨_, s₂, hwait, hk2, hs2, h⟩ := (steady_waitCpus _ _).passed hb1 hs1 h
  have hb2 := hk2.set hb1
  obtain ⟨cpu, s₃, -, hk3, hs3, h⟩ := steady_getCpuLocal.passed hb2 hs2 h
  have hb3 := hk3.set hb2
  obtain ⟨_, s₄, hlog, hk4, hs4, h⟩ := (steady_logLines _).passed hb3 hs3 h
  have hb4 := hk4.set hb3
  obtain ⟨_, s₅, htrace, -, -, -⟩ := (steady_backtrace ctx).passed hb4 hs4 h
  have hheld3 : s₃.kprintfHeld = false := by
    rw [logLines] at hlog
    obtain ⟨_, _, hfirst, -⟩ := bind_returned hlog
    exact logPanic_returned hfirst
  refine ⟨?_, ?_, ?_⟩
  · rw [← hk1.kprintfHeld, ← hk2.kprintfHeld, ← hk3.kprintfHeld]
    exact hheld3
  · rw [← hk1.cpuCount, ← hk1.localCpu]
    cases hn : s₁.cpuCount with
    | zero => exact .inl rfl
    | succ n =>
      rw [hn, waitCpus] at hwait
      obtain ⟨_, _, hfirst, -⟩ := bind_returned hwait
      exact .inr (waitCpu_returned hb1 hfirst)
  · exact (backtrace_returns_iff ctx (by rw [hk4.kprintfHeld]; exact hheld3)).mp ⟨s₅, htrace⟩

variable (panic) in
theorem getCpuLocal_returns (hb : s.lapicBase ≠ 0) (hheld : s.kprintfHeld = false) :
    ∃ cpu s', getCpuLocal panic s = (some cpu, s') := by
  cases hcpu : localCpu s.toKernel with
  | some cpu => exact ⟨some cpu, s, getCpuLocal_found hb hcpu⟩
  | none =>
    have hlog : ∀ text, ∃ s', logEarly text s = (some (), s') := fun text =>
      ⟨_, if_neg (by rw [hheld]; decide)⟩
    obtain ⟨s', hs'⟩ := hlog "Error: No CPU found with LAPIC ID %u"
    exact ⟨none, s', by rw [getCpuLocal_lost hb hcpu, bind_of_returned hs']; rfl⟩

/-- With enough rounds the panic gets to the final halt, and no callee panics. -/
theorem kpanicBody_halts (hb : s.lapicBase ≠ 0) (hs : s.finish = none)
    (hheld : s.kprintfHeld = false) (hcpu : s.cpuCount = 0 ∨ (localCpu s.toKernel).isSome)
    (htrace : ∃ r, ctx = some r ∧ Unwinds frames (maxBacktraceFrames-1) r.rbp)
    (hpending : s.pending < fuel) (hbusy : s.busy < fuel)
    (hdelay : ∀ j < s.cpuCount, s.delay j+1 < fuel) :
    (kpanicBody frames own panic fuel ctx fmt s).2.finish = some .halted ∧
      (kpanicBody frames own panic fuel ctx fmt s).2.entered = s.entered := by
  obtain ⟨s₁, h1, hsent, hdelay1⟩ := sendDie_returns panic hb hpending hbusy
  obtain ⟨hk1, hs1⟩ := steady_sendDie.returned hb hs h1
  have hb1 := hk1.set hb
  obtain ⟨s₂, h2⟩ := waitCpus_returns panic s₁.cpuCount 0 hb1 hs1
    (by rw [hk1.cpuCount, hk1.localCpu]; exact hcpu) hsent fun j _ hj => by
      rw [hdelay1]
      exact hdelay j (by rw [← hk1.cpuCount]; omega)
  obtain ⟨hk2, hs2⟩ := (steady_waitCpus _ _).returned hb1 hs1 h2
  have hb2 := hk2.set hb1
  have hheld2 : s₂.kprintfHeld = false := by
    rw [hk2.kprintfHeld, hk1.kprintfHeld]
    exact hheld
  obtain ⟨cpu, s₃, h3⟩ := getCpuLocal_returns panic hb2 hheld2
  obtain ⟨hk3, hs3⟩ := steady_getCpuLocal.returned hb2 hs2 h3
  have hb3 := hk3.set hb2
  let lines := headline (message fmt (ctx.getD { own with vector := 0, err := 0xDEADBEEF })) cpu ::
    registerLines
  obtain ⟨s₄, h4, hheld4⟩ := logLines_returns lines (by rw [hk3.kprintfHeld]; exact hheld2)
  obtain ⟨hk4, hs4⟩ := (steady_logLines _).returned hb3 hs3 h4
  have hb4 := hk4.set hb3
  obtain ⟨s₅, h5⟩ := (backtrace_returns_iff ctx hheld4).mpr htrace
  obtain ⟨hk5, -⟩ := (steady_backtrace ctx).returned hb4 hs4 h5
  rw [kpanicBody, bind_of_returned h1, observe_bind, bind_of_returned h2, bind_of_returned h3,
    bind_of_returned h4, bind_of_returned h5]
  exact ⟨rfl, ((((hk1.trans hk2).trans hk3).trans hk4).trans hk5).entered⟩

end Halt

/-- The kernel as a panic leaves it. -/
def afterPanic (frames : Frames) (own : RegisterCtx) (k : Kernel) (ctx : Option RegisterCtx)
    (fmt : Option String) (fuel : ℕ) : Machine :=
  (kpanic frames own fuel ctx fmt { toKernel := k }).2

/-- A panic comes to the final halt, entered once, exactly when the local APIC
is set up, the lock of `kprintf` is free, the panicking CPU has a record where
there is one at all, and it was given registers whose frames are all mapped. -/
theorem kpanic_halts_iff (frames : Frames) (own : RegisterCtx) (k : Kernel)
    (ctx : Option RegisterCtx) (fmt : Option String) :
    (∃ fuel, (afterPanic frames own k ctx fmt fuel).finish = some .halted ∧
        (afterPanic frames own k ctx fmt fuel).entered = 1) ↔
      k.lapicBase ≠ 0 ∧ k.kprintfHeld = false ∧
        (k.cpuCount = 0 ∨ k.gsBase.isSome ∨
          ∃ i < k.cpuCount, (k.cpuLocals i).lapicId = ownId k) ∧
        ∃ r, ctx = some r ∧ Unwinds frames (maxBacktraceFrames-1) r.rbp := by
  let s : Machine := { toKernel := k, entered := 1 }
  rw [← localCpu_isSome_iff]
  constructor
  · rintro ⟨fuel, h, -⟩
    by_cases hb : k.lapicBase = 0
    · exact absurd h (kpanic_unset hb rfl)
    · cases fuel with
      | zero => exact absurd h (by simp [afterPanic, kpanic, never])
      | succ fuel => exact ⟨hb, kpanicBody_needs (s := s) hb rfl h⟩
  · rintro ⟨hb, hheld, hcpu, htrace⟩
    let fuel := k.pending+k.busy+(Finset.range k.cpuCount).sup k.delay+2
    have hdelay : ∀ j < k.cpuCount, k.delay j+1 < fuel := fun j hj => by
      have := Finset.le_sup (f := k.delay) (Finset.mem_range.mpr hj)
      omega
    exact ⟨fuel+1, kpanicBody_halts (s := s) hb rfl hheld hcpu htrace
      (show k.pending < fuel by omega) (show k.busy < fuel by omega) hdelay⟩

/-- One CPU, with everything set up. -/
def onlyCpu : Kernel where
  lapicBase := 0xFFFF8000FEE00000
  gsBase := some 0
  cpuCount := 1
  cpuLocals := fun _ => { ready := true }
  lapicRegs := fun _ => 0
  pending := 0
  busy := 0
  delay := fun _ => 0
  kprintfHeld := false

/-- Every panic of the kernel's own has no registers to trace from. -/
theorem kpanic_null_faults :
    (∀ fuel, (afterPanic (fun _ => some 0) {} onlyCpu none (some "No RSDP provided") fuel).finish ≠
        some .halted) ∧
      (afterPanic (fun _ => some 0) {} onlyCpu none (some "No RSDP provided") 3).finish =
        some (.fault 128) := by
  refine ⟨fun fuel h => ?_, by decide +kernel⟩
  cases fuel with
  | zero => exact absurd h (by simp [afterPanic, kpanic, never])
  | succ fuel =>
    obtain ⟨-, -, r, hr, -⟩ :=
      kpanicBody_needs (s := { toKernel := onlyCpu, entered := 1 }) (by decide) rfl h
    exact absurd hr (by simp)

end Emk.Kpanic
