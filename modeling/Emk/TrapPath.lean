import Emk.IsrStub

/-!
# From an interrupt to its handler and back

For each vector the words on the stack are the `register_ctx` of the
interrupted code when the handler is called, and the processor continues with
the registers that the record holds when the handler returns.
-/

set_option autoImplicit false

namespace Emk.TrapPath
open Emk.MachineWord Emk.Calls Emk.StackWords Emk.Idt Emk.IsrStub Emk.Transition
open Emk.Sched (RegisterCtx)

variable {W : Type}

/-- The general registers of a record. -/
def ctxReg (x : RegisterCtx) : Reg → ℕ
  | .rax => x.rax
  | .rbx => x.rbx
  | .rcx => x.rcx
  | .rdx => x.rdx
  | .rbp => x.rbp
  | .rdi => x.rdi
  | .rsi => x.rsi
  | .r8 => x.r8
  | .r9 => x.r9
  | .r10 => x.r10
  | .r11 => x.r11
  | .r12 => x.r12
  | .r13 => x.r13
  | .r14 => x.r14
  | .r15 => x.r15

/-- The record of code that is interrupted. -/
def interrupted (vector : ℕ) (err : Option ℕ) (c : Cpu) : RegisterCtx where
  es := c.special .es
  ds := c.special .ds
  cr4 := c.special .cr4
  cr3 := c.special .cr3
  cr2 := c.special .cr2
  cr0 := c.special .cr0
  r15 := c.reg .r15
  r14 := c.reg .r14
  r13 := c.reg .r13
  r12 := c.reg .r12
  r11 := c.reg .r11
  r10 := c.reg .r10
  r9 := c.reg .r9
  r8 := c.reg .r8
  rsi := c.reg .rsi
  rdi := c.reg .rdi
  rbp := c.reg .rbp
  rdx := c.reg .rdx
  rcx := c.reg .rcx
  rbx := c.reg .rbx
  rax := c.reg .rax
  vector := vector
  err := err.getD 0
  rip := c.rip
  cs := c.cs
  rflags := c.rflags
  rsp := c.rsp
  ss := c.ss

/-- The processor continues with the registers of the record. -/
structure Resumes (x : RegisterCtx) (c : Cpu) : Prop where
  reg : c.reg = ctxReg x
  rip : c.rip = x.rip
  cs : c.cs = x.cs
  rflags : c.rflags = x.rflags
  rsp : c.rsp = x.rsp
  ss : c.ss = x.ss

def ctxWords (x : RegisterCtx) : List ℕ :=
  [x.es, x.ds, x.cr4, x.cr3, x.cr2, x.cr0, x.r15, x.r14, x.r13, x.r12, x.r11, x.r10, x.r9, x.r8,
    x.rsi, x.rdi, x.rbp, x.rdx, x.rcx, x.rbx, x.rax, x.vector, x.err, x.rip, x.cs, x.rflags,
    x.rsp, x.ss]

/-- The words of `real_handlers`. -/
def tableWords (realHandlers : ℕ) : Set ℕ := {a | ∃ v < 256, a = realHandlers+8*v}

/-- The code at an address is a compiled C function: it gets the record
through its first argument, gives the stack back and leaves the `GS` bases and
the table of handlers alone, unless the record overlaps the table. -/
structure Implements (code : ℕ → Call (Node W) Unit) (realHandlers p : ℕ)
    (f : RegisterCtx → Call W RegisterCtx) : Prop where
  returns : ∀ (s : Node W) (x : RegisterCtx) (w : W),
    f (readCtx s.cpu.mem (s.cpu.reg .rdi)) s.world = (some x, w) →
    ∃ c, code p s = (some (), ⟨c, w⟩) ∧ c.rsp = s.cpu.rsp ∧
      readCtx c.mem (s.cpu.reg .rdi) = x ∧ c.gsBase = s.cpu.gsBase ∧
      c.kernelGsBase = s.cpu.kernelGsBase ∧
      ((∀ a ∈ tableWords realHandlers, a < s.cpu.reg .rdi ∨ s.cpu.reg .rdi+224 ≤ a) →
        ∀ a ∈ tableWords realHandlers, c.mem a = s.cpu.mem a)
  stuck : ∀ (s : Node W) (w : W),
    f (readCtx s.cpu.mem (s.cpu.reg .rdi)) s.world = (none, w) → (code p s).1 = none

section Record
variable {m : Words} {a : ℕ} {x : RegisterCtx}

theorem readCtx_of_stacked (h : Stacked m a (ctxWords x)) : readCtx m a = x := by
  obtain ⟨h0, h1, h2, h3, h4, h5, h6, h7, h8, h9, h10, h11, h12, h13, h14, h15, h16, h17, h18,
    h19, h20, h21, h22, h23, h24, h25, h26, h27, -⟩ := h
  cases x
  simp only [readCtx, RegisterCtx.mk.injEq]
  exact ⟨h0, h1, h2, h3, h4, h5, h6, h7, h8, h9, h10, h11, h12, h13, h14, h15, h16, h17, h18,
    h19, h20, h21, h22, h23, h24, h25, h26, h27⟩

theorem saved_stacked (m : Words) (a : ℕ) :
    Stacked m (a+48) (savedRegs.reverse.map (ctxReg (readCtx m a))) :=
  ⟨rfl, rfl, rfl, rfl, rfl, rfl, rfl, rfl, rfl, rfl, rfl, rfl, rfl, rfl, rfl, trivial⟩

end Record

section Run
variable {code : ℕ → Call (Node W) Unit} {c : Cpu} {w : W}

theorem runCode_onCpu {i : Instr} {g : Cpu → Cpu} (h : exec code i = onCpu g) (is : List Instr)
    (c : Cpu) (w : W) : runCode code (i::is) ⟨c, w⟩ = runCode code is ⟨g c, w⟩ := by
  rw [runCode, h, onCpu, update_bind]

theorem run_pushes (rs : List Reg) (is : List Instr) (c : Cpu) (w : W) :
    runCode code (rs.map .pushq ++ is) ⟨c, w⟩ = runCode code is ⟨c.onCore (·.save rs), w⟩ := by
  induction rs generalizing c with
  | nil => rfl
  | cons r rs ih =>
    rw [List.map_cons, List.cons_append, runCode_onCpu rfl, ih]
    rfl

theorem run_pops (rs : List Reg) (is : List Instr) (c : Cpu) (w : W) :
    runCode code (rs.map .popq ++ is) ⟨c, w⟩ = runCode code is ⟨c.onCore (·.restore rs), w⟩ := by
  induction rs generalizing c with
  | nil => rfl
  | cons r rs ih =>
    rw [List.map_cons, List.cons_append, runCode_onCpu rfl, ih]
    rfl

theorem setReg_self (r : Reg) (c : Cpu) : c.setReg r (c.reg r) = c := by
  rw [Cpu.setReg, Cpu.onCore, Function.update_eq_self]

theorem setReg_setReg (r : Reg) (u v : ℕ) (c : Cpu) : (c.setReg r u).setReg r v = c.setReg r v := by
  rw [Cpu.setReg, Cpu.setReg, Cpu.setReg, Cpu.onCore, Cpu.onCore, Cpu.onCore]
  dsimp only
  rw [Function.update_idem]

theorem setReg_get (r : Reg) (v : ℕ) (c : Cpu) : (c.setReg r v).reg r = v := by
  change Function.update c.reg r v r = v
  exact Function.update_self r v c.reg

theorem pushAll_setReg (vs : List ℕ) (r : Reg) (v : ℕ) (c : Cpu) :
    (c.setReg r v).onCore (·.pushAll vs) = (c.onCore (·.pushAll vs)).setReg r v := by
  induction vs generalizing c with
  | nil => rfl
  | cons u vs ih => exact ih (c.onCore (·.push u))

variable (code) in
/-- The control registers go through `%rax`. -/
theorem run_specials (ss : List Special) (is : List Instr) (c : Cpu) (w : W) :
    ∃ v, runCode code (ss.flatMap (fun s => [.movSpecial s .rax, .pushq .rax]) ++ is) ⟨c, w⟩ =
      runCode code is ⟨(c.onCore (·.pushAll (ss.map c.special))).setReg .rax v, w⟩ := by
  induction ss generalizing c with
  | nil =>
    refine ⟨c.reg .rax, ?_⟩
    change runCode code is ⟨c, w⟩ = runCode code is ⟨c.setReg .rax (c.reg .rax), w⟩
    rw [setReg_self]
  | cons s ss ih =>
    rw [List.flatMap_cons, List.append_assoc, List.cons_append, List.cons_append,
      List.nil_append, runCode_onCpu rfl, runCode_onCpu rfl, setReg_get]
    obtain ⟨v, hv⟩ := ih ((c.onCore (·.push (c.special s))).setReg .rax (c.special s))
    exact ⟨v, hv.trans (by rw [pushAll_setReg, setReg_setReg]; rfl)⟩

end Run

section Stub
variable {code : ℕ → Call (Node W) Unit} {realHandlers v F : ℕ} {c : Cpu} {w : W} {ws : List ℕ}

/-- The words that `isr_handler_stub` pushes. -/
def stubWords (c : Cpu) : List ℕ := savedRegs.map c.reg ++ specials.map c.special

/-- The processor when the stub calls the handler. -/
structure Calling (realHandlers v : ℕ) (c c' : Cpu) : Prop where
  rsp : c'.rsp = (c.toCore.pushAll (stubWords c)).rsp
  mem : c'.mem = (c.toCore.pushAll (stubWords c)).mem
  rdi : c'.reg .rdi = c'.rsp
  rax : c'.reg .rax = wrap (realHandlers+wrap (v <<< 3))
  gsBase : c'.gsBase = if v % 4 = 0 then c.gsBase else c.kernelGsBase
  kernelGsBase : c'.kernelGsBase = if v % 4 = 0 then c.kernelGsBase else c.gsBase

/-- `swapgs` unless the last test gave zero. -/
def swapped (c : Cpu) : Cpu :=
  { c with gsBase := if c.zf then c.gsBase else c.kernelGsBase
           kernelGsBase := if c.zf then c.kernelGsBase else c.gsBase }

theorem run_jzOver (is : List Instr) (c : Cpu) (w : W) :
    runCode code (.jzOver .swapgs::is) ⟨c, w⟩ = runCode code is ⟨swapped c, w⟩ := by
  have hstep : exec code (.jzOver .swapgs) ⟨c, w⟩ = (some (), ⟨swapped c, w⟩) := by
    cases hz : c.zf
    · simp [exec, swapped, hz, onCpu, update]
    · simp only [exec, swapped, hz, if_true]
      rw [← hz]
  rw [runCode, bind_of_returned hstep]

theorem test_vector (hv : v < 256) : decide (v % 2^16 &&& 3 = 0) = decide (v % 4 = 0) := by
  rw [decide_eq_decide, Nat.mod_eq_of_lt (by omega), show (3:ℕ) = 2^2-1 by rfl,
    Nat.and_two_pow_sub_one_eq_mod]

variable (code realHandlers c w) in
/-- The test that decides on `swapgs` looks at the vector. -/
theorem entry_runs (hv : v < 256) (hroom : 168 ≤ c.rsp) (hvector : c.mem c.rsp = v)
    (is : List Instr) :
    ∃ c', Calling realHandlers v c c' ∧
      runCode code (entry realHandlers ++ is) ⟨c, w⟩ = runCode code is ⟨c', w⟩ := by
  have hlen : (stubWords c).length = 21 := rfl
  obtain ⟨u, hu⟩ := run_specials code specials
    ([.cld, .load 168 .rax, .testw 3 .rax, .jzOver .swapgs, .movRsp .rdi, .load 168 .rbx,
      .shlq 3 .rbx, .leaq realHandlers .rax, .addq .rbx .rax] ++ is)
    (c.onCore (·.save savedRegs)) w
  have hcore : ((c.onCore (·.save savedRegs)).onCore
      (·.pushAll (specials.map (c.onCore (·.save savedRegs)).special))) =
      c.onCore (·.pushAll (stubWords c)) := by
    rw [Cpu.onCore, Cpu.onCore, Cpu.onCore]
    dsimp only
    rw [Core.save_eq, ← Core.pushAll_append]
    rfl
  have htop : (c.toCore.pushAll (stubWords c)).mem ((c.toCore.pushAll (stubWords c)).rsp+168) =
      v := by
    rw [Core.pushAll_rsp, hlen, Nat.sub_add_cancel hroom, Core.pushAll_outside _ (.inl le_rfl)
      (by rw [hlen]; exact hroom), hvector]
  rw [entry, List.append_assoc, List.append_assoc, run_pushes, hu, hcore]
  generalize hd : (c.onCore (·.pushAll (stubWords c))).setReg .rax u = d
  have hdrsp : d.rsp = (c.toCore.pushAll (stubWords c)).rsp := by
    rw [← hd, Cpu.setReg, Cpu.onCore, Cpu.onCore]
  have hdmem : d.mem = (c.toCore.pushAll (stubWords c)).mem := by
    rw [← hd, Cpu.setReg, Cpu.onCore, Cpu.onCore]
  have hdgs : d.gsBase = c.gsBase ∧ d.kernelGsBase = c.kernelGsBase := by
    rw [← hd, Cpu.setReg, Cpu.onCore, Cpu.onCore]
    exact ⟨rfl, rfl⟩
  rw [← hdrsp, ← hdmem] at htop
  simp only [List.cons_append, List.nil_append]
  rw [runCode_onCpu rfl, runCode_onCpu rfl, runCode_onCpu rfl, run_jzOver]
  generalize he : swapped _ = e
  have hersp : e.rsp = d.rsp := by
    rw [← he]
    rfl
  have hemem : e.mem = d.mem := by
    rw [← he]
    rfl
  have hegs : e.gsBase = (if v % 4 = 0 then d.gsBase else d.kernelGsBase) ∧
      e.kernelGsBase = if v % 4 = 0 then d.kernelGsBase else d.gsBase := by
    rw [← he, swapped]
    dsimp only
    rw [setReg_get, Cpu.top]
    dsimp only
    rw [htop, test_vector hv]
    by_cases hz : v % 4 = 0
    · simp only [hz, decide_true, if_true]
      exact ⟨rfl, rfl⟩
    · simp only [hz, decide_false, if_false]
      exact ⟨rfl, rfl⟩
  rw [runCode_onCpu rfl, runCode_onCpu rfl, runCode_onCpu rfl, runCode_onCpu rfl,
    runCode_onCpu rfl]
  rw [← hersp, ← hemem] at htop
  refine ⟨_, ?_, rfl⟩
  refine ⟨hersp.trans hdrsp, hemem.trans hdmem, ?_, ?_, ?_, ?_⟩
  · simp [Cpu.setReg, Cpu.onCore]
  · simp [Cpu.setReg, Cpu.onCore, Cpu.top, htop]
  · rw [← hdgs.1, ← hdgs.2]
    exact hegs.1
  · rw [← hdgs.1, ← hdgs.2]
    exact hegs.2

variable (code) in
/-- The end of the stub loads what the record holds. -/
theorem exit_runs (c : Cpu) (w : W) :
    ∃ c', runCode code exit ⟨c, w⟩ = (some (), ⟨c', w⟩) ∧ Resumes (readCtx c.mem c.rsp) c' ∧
      c'.mem = c.mem ∧ c'.gsBase = c.gsBase ∧ c'.kernelGsBase = c.kernelGsBase := by
  have hrestore : (c.setRsp (c.rsp+48)).toCore.restore savedRegs.reverse =
      { c.toCore with reg := ctxReg (readCtx c.mem c.rsp), rsp := c.rsp+168 } := by
    rw [Core.restore_eq savedRegs.reverse (ctxReg (readCtx c.mem c.rsp)) _ (saved_stacked c.mem c.rsp)]
    have hall : ∀ r : Reg, r ∈ savedRegs.reverse := by
      intro r
      cases r <;> decide
    congr 1
    funext r
    rw [if_pos (hall r)]
  rw [exit, List.append_assoc, List.cons_append, List.nil_append, runCode_onCpu rfl, run_pops,
    Cpu.onCore, hrestore, runCode_onCpu rfl, runCode_onCpu rfl]
  exact ⟨_, rfl, ⟨rfl, rfl, rfl, rfl, rfl, rfl⟩, rfl, rfl, rfl⟩

/-- The word in place of an error code that the processor does not push. -/
def dummy (v : ℕ) : List ℕ := if v ∈ errorVectors then [] else [0]

/-- Everything that is pushed until the handler is called. -/
def frameWords (v : ℕ) (err : Option ℕ) (c : Cpu) : List ℕ :=
  pushed err c ++ (dummy v ++ [v]) ++ stubWords c

theorem frameWords_reverse (err : Option ℕ) (c : Cpu) (herr : err.isSome ↔ v ∈ errorVectors) :
    (frameWords v err c).reverse = ctxWords (interrupted v err c) := by
  rw [frameWords, dummy]
  rcases err with _ | e
  · rw [if_neg (fun h => absurd (herr.mpr h) (by simp))]
    rfl
  · rw [if_pos (herr.mp rfl)]
    rfl

theorem isr_pushes (c : Cpu) (w : W) :
    runCode code (isr realHandlers v) ⟨c, w⟩ = runCode code (isrHandlerStub realHandlers)
      ⟨c.onCore (·.pushAll (dummy v ++ [v])), w⟩ := by
  rw [isr, dummy]
  split_ifs
  · simp only [List.nil_append, List.cons_append]
    rw [runCode_onCpu rfl]
    rfl
  · simp only [List.nil_append, List.cons_append]
    rw [runCode_onCpu rfl, runCode_onCpu rfl]
    rfl

/-- Which handler the stub calls, and on what. -/
structure Handed (realHandlers top v : ℕ) (err : Option ℕ) (c c' : Cpu) : Prop where
  rsp : c'.rsp = top-224
  rdi : c'.reg .rdi = top-224
  rax : c'.reg .rax = wrap (realHandlers+wrap (v <<< 3))
  record : readCtx c'.mem (top-224) = interrupted v err c
  outside : ∀ a, top ≤ a ∨ a < top-224 → c'.mem a = c.mem a
  gsBase : c'.gsBase = if v % 4 = 0 then c.gsBase else c.kernelGsBase
  kernelGsBase : c'.kernelGsBase = if v % 4 = 0 then c.kernelGsBase else c.gsBase

variable (code realHandlers) in
/-- From the gate to the call. -/
theorem deliver_runs (gate : Gate) (rsp0 : ℕ) (err : Option ℕ) (c : Cpu) (w : W) (hv : v < 256)
    (herr : err.isSome ↔ v ∈ errorVectors) (hroom : 224 ≤ stackTop rsp0 c) :
    ∃ c', Handed realHandlers (stackTop rsp0 c) v err c c' ∧
      runCode code (isr realHandlers v) ⟨deliver gate rsp0 err c, w⟩ =
        runCode code ([.callInd .rax] ++ exit) ⟨c', w⟩ := by
  generalize htop : stackTop rsp0 c = top at hroom ⊢
  generalize hd : (deliver gate rsp0 err c).onCore (·.pushAll (dummy v ++ [v])) = d
  have hcore : d.toCore = { c.toCore with rsp := top }.pushAll
      (pushed err c ++ (dummy v ++ [v])) := by
    rw [← hd, Core.pushAll_append, deliver, Cpu.onCore, htop]
  have hsame : d.reg = c.reg ∧ d.special = c.special ∧ d.gsBase = c.gsBase ∧
      d.kernelGsBase = c.kernelGsBase := by
    refine ⟨?_, ?_⟩
    · rw [hcore, Core.pushAll_reg]
    · rw [← hd, Cpu.onCore, deliver]
      exact ⟨rfl, rfl, rfl⟩
  have hstub : stubWords d = stubWords c := by
    rw [stubWords, hsame.1, hsame.2.1]
    rfl
  have hlen : (frameWords v err c).length = 28 := by
    rw [← List.length_reverse, frameWords_reverse err c herr]
    rfl
  have hlen' : (pushed err c ++ (dummy v ++ [v])).length = 7 := by
    rw [frameWords, List.length_append] at hlen
    have : (stubWords c).length = 21 := rfl
    omega
  have hall : d.toCore.pushAll (stubWords d) =
      { c.toCore with rsp := top }.pushAll (frameWords v err c) := by
    rw [hcore, hstub, frameWords, Core.pushAll_append _ (stubWords c)]
  have hvector : d.mem d.rsp = v := by
    have h := Core.stacked_pushAll { c.toCore with rsp := top }
      (pushed err c ++ (dummy v ++ [v])) (by rw [hlen']; dsimp only; omega)
    rw [← hcore, ← List.append_assoc, List.reverse_append] at h
    exact h.1
  obtain ⟨c', hcall, hrun⟩ := entry_runs code realHandlers d w hv (by rw [hcore, Core.pushAll_rsp, hlen']; dsimp only; omega)
    hvector ([.callInd .rax] ++ exit)
  have hrsp : c'.rsp = top-224 := by
    rw [hcall.rsp, hall, Core.pushAll_rsp, hlen]
  refine ⟨c', ⟨hrsp, hcall.rdi.trans hrsp, hcall.rax, ?_, ?_, ?_, ?_⟩, ?_⟩
  · have h := Core.stacked_pushAll { c.toCore with rsp := top } (frameWords v err c)
      (by rw [hlen]; exact hroom)
    rw [frameWords_reverse err c herr, ← hall, ← hcall.rsp, ← hcall.mem,
      hrsp] at h
    exact readCtx_of_stacked h
  · intro a ha
    rw [hcall.mem, hall, Core.pushAll_outside _ (by rw [hlen]; exact ha) (by rw [hlen]; exact hroom)]
  · rw [hcall.gsBase, hsame.2.2.1, hsame.2.2.2]
  · rw [hcall.kernelGsBase, hsame.2.2.1, hsame.2.2.2]
  · rw [isr_pushes, hd, isrHandlerStub, List.append_assoc, hrun]

/-- The handler is called and the stub returns through what it leaves. -/
theorem call_runs {f : RegisterCtx → Call W RegisterCtx} {c : Cpu} {w : W}
    (himpl : Implements code realHandlers (c.mem (c.reg .rax)) f) (hrdi : c.reg .rdi = c.rsp)
    (hapart : ∀ a ∈ tableWords realHandlers, a < c.rsp ∨ c.rsp+224 ≤ a) :
    (∀ x w', f (readCtx c.mem c.rsp) w = (some x, w') →
      ∃ c', runCode code ([.callInd .rax] ++ exit) ⟨c, w⟩ = (some (), ⟨c', w'⟩) ∧ Resumes x c' ∧
        c'.gsBase = c.gsBase ∧ c'.kernelGsBase = c.kernelGsBase ∧
        ∀ a ∈ tableWords realHandlers, c'.mem a = c.mem a) ∧
    (∀ w', f (readCtx c.mem c.rsp) w = (none, w') →
      (runCode code ([.callInd .rax] ++ exit) ⟨c, w⟩).1 = none) := by
  rw [← hrdi] at hapart ⊢
  refine ⟨fun x w' hf => ?_, fun w' hf => ?_⟩
  · obtain ⟨c₁, hcall, hrsp, hctx, hgs, hkgs, hkeep⟩ := himpl.returns ⟨c, w⟩ x w' hf
    obtain ⟨c', hrun, hres, hmem, hgs', hkgs'⟩ := exit_runs code c₁ w'
    refine ⟨c', ?_, ?_, hgs'.trans hgs, hkgs'.trans hkgs, fun a ha => ?_⟩
    · rw [List.cons_append, List.nil_append, runCode]
      exact (bind_of_returned hcall).trans hrun
    · rw [hrsp, ← hrdi, hctx] at hres
      exact hres
    · rw [hmem, hkeep hapart a ha]
  · have hcall := himpl.stuck ⟨c, w⟩ w' hf
    rw [List.cons_append, List.nil_append, runCode]
    exact congrArg Prod.fst (bind_of_fst_none hcall)

end Stub

section Interrupt
variable {sym : Symbols} {realHandlers rsp0 v : ℕ} {code : ℕ → Call (Node W) Unit} {c : Cpu}
  {err : Option ℕ} {w : W}

theorem fetch_stub (hinj : Set.InjOn sym.stubs {v | v < 256}) (hv : v < 256) :
    fetch sym (sym.stubs v) = some v := by
  rw [fetch, List.find?_range_eq_some]
  refine ⟨by simp, List.mem_range.mpr hv, fun u hu => ?_⟩
  rw [Bool.not_eq_true', decide_eq_false_iff_not]
  intro he
  have := hinj (show u < 256 by omega) hv he
  omega

/-- Where the stack and the table of handlers lie when an interrupt is taken. -/
structure Placed (realHandlers rsp0 : ℕ) (c : Cpu) : Prop where
  room : 224 ≤ stackTop rsp0 c
  apart : ∀ a ∈ tableWords realHandlers, a < stackTop rsp0 c-224 ∨ stackTop rsp0 c ≤ a
  bound : realHandlers+2048 ≤ 2^64

/-- The processor goes on with what the handler makes of the record, or not at
all. -/
structure Serviced (realHandlers v : ℕ) (err : Option ℕ) (f : RegisterCtx → Call W RegisterCtx)
    (c : Cpu) (w : W) (r : Option Unit × Node W) : Prop where
  returned : ∀ x w', f (interrupted v err c) w = (some x, w') →
    ∃ c', r = (some (), ⟨c', w'⟩) ∧ Resumes x c' ∧
      c'.gsBase = (if v % 4 = 0 then c.gsBase else c.kernelGsBase) ∧
      c'.kernelGsBase = (if v % 4 = 0 then c.kernelGsBase else c.gsBase) ∧
      ∀ a ∈ tableWords realHandlers, c'.mem a = c.mem a
  stuck : ∀ w', f (interrupted v err c) w = (none, w') → r.1 = none

theorem interrupt_runs {f : RegisterCtx → Call W RegisterCtx} {descriptor : ℕ → IdtEntry}
    {handler : ℕ} (hinj : Set.InjOn sym.stubs {v | v < 256}) (hv : v < 256)
    (hgate : readGate (descriptor v).words = some (gateOf sym v))
    (herr : err.isSome ↔ v ∈ errorVectors) (hplaced : Placed realHandlers rsp0 c)
    (htable : c.mem (realHandlers+8*v) = handler) (himpl : Implements code realHandlers handler f) :
    Serviced realHandlers v err f c w
      (interrupt sym realHandlers rsp0 code descriptor v err ⟨c, w⟩) := by
  obtain ⟨c₁, hand, hrun⟩ := deliver_runs code realHandlers (gateOf sym v) rsp0 err c w hv herr
    hplaced.room
  have hint : interrupt sym realHandlers rsp0 code descriptor v err ⟨c, w⟩ =
      runCode code ([.callInd .rax] ++ exit) ⟨c₁, w⟩ := by
    rw [interrupt, hgate]
    dsimp only
    rw [onCpu, update_bind, observe_bind]
    dsimp only
    rw [show (deliver (gateOf sym v) rsp0 err c).rip = sym.stubs v from rfl, fetch_stub hinj hv]
    exact hrun
  have hb := hplaced.bound
  have hroom := hplaced.room
  have hrax : c₁.reg .rax = realHandlers+8*v := by
    rw [hand.rax, Nat.shiftLeft_eq, wrap_of_lt (show v*2^3 < 2^64 by omega), wrap_of_lt (by omega)]
    omega
  have hkeep : ∀ a ∈ tableWords realHandlers, c₁.mem a = c.mem a :=
    fun a ha => hand.outside a (hplaced.apart a ha).symm
  have hmem : c₁.mem (c₁.reg .rax) = handler := by
    rw [hrax, hkeep _ ⟨v, hv, rfl⟩, htable]
  rw [← hmem] at himpl
  have hcall := call_runs (w := w) himpl (hand.rdi.trans hand.rsp.symm) (by
      intro a ha
      have := hplaced.apart a ha
      rw [hand.rsp]
      omega)
  rw [hand.rsp, hand.record, hand.gsBase, hand.kernelGsBase] at hcall
  rw [hint]
  refine ⟨fun x w' hf => ?_, hcall.2⟩
  obtain ⟨c', hr, hres, hgs, hkgs, hm⟩ := hcall.1 x w' hf
  exact ⟨c', hr, hres, hgs, hkgs, fun a ha => (hm a ha).trans (hkeep a ha)⟩

end Interrupt

/-- After `idt_init` and any further registrations, an interrupt on any vector
runs the handler registered last on the record of the interrupted code, and
the processor continues with the registers that this handler leaves in it. -/
theorem interrupt_reaches_handler (sym : Symbols) (realHandlers rsp0 : ℕ)
    (code : ℕ → Call (Node W) Unit) (hstubs : ∀ v < 256, sym.stubs v < 2^64)
    (hinj : Set.InjOn sym.stubs {v | v < 256}) (ops : List Op) (v : ℕ) (hv : v < 256)
    (err : Option ℕ) (herr : err.isSome ↔ v ∈ errorVectors) (c : Cpu) (w : W)
    (f : RegisterCtx → Call W RegisterCtx)
    (hplaced : Placed realHandlers rsp0 c)
    (htable : c.mem (realHandlers+8*v) = handlerOf sym v (.init::ops))
    (himpl : Implements code realHandlers (handlerOf sym v (.init::ops)) f) :
    Serviced realHandlers v err f c w (interrupt sym realHandlers rsp0 code
      (run (step sym) {} (.init::ops)).descriptor v err ⟨c, w⟩) :=
  interrupt_runs hinj hv (gates_after sym hstubs ops v hv) herr hplaced htable himpl

section Compiled

/-- A record written to memory. -/
def writeCtx (m : Words) (a : ℕ) (x : RegisterCtx) : Words := fun b =>
  if a ≤ b ∧ (b-a) % 8 = 0 ∧ (b-a) / 8 < 28 then (ctxWords x).getD ((b-a) / 8) 0 else m b

theorem readCtx_writeCtx (m : Words) (a : ℕ) (x : RegisterCtx) :
    readCtx (writeCtx m a x) a = x := by
  cases x
  simp [readCtx, writeCtx, ctxWords]

/-- A function compiled to code that uses no memory of its own. -/
def compiled (f : RegisterCtx → Call W RegisterCtx) : Call (Node W) Unit := fun s =>
  match f (readCtx s.cpu.mem (s.cpu.reg .rdi)) s.world with
  | (some x, w) => (some (),
      ⟨s.cpu.onCore fun k => { k with mem := writeCtx k.mem (s.cpu.reg .rdi) x }, w⟩)
  | (none, w) => (none, ⟨s.cpu, w⟩)

theorem compiled_implements {code : ℕ → Call (Node W) Unit} {realHandlers p : ℕ}
    {f : RegisterCtx → Call W RegisterCtx} (h : code p = compiled f) :
    Implements code realHandlers p f where
  returns := by
    intro s x w hf
    rw [h, compiled, hf]
    refine ⟨_, rfl, rfl, readCtx_writeCtx _ _ _, rfl, rfl, fun hapart a ha => if_neg ?_⟩
    have := hapart a ha
    omega
  stuck := by
    intro s w hf
    rw [h, compiled, hf]

/-- User code with its own stack, and the table of handlers at `0x40000`. -/
def smallCpu (v handler : ℕ) : Cpu where
  reg := fun _ => 1
  rsp := 0x30008
  mem := fun a => if a = 0x40000+8*v then handler else 0
  special := fun _ => 0
  rip := 0x5000
  cs := 0x1B
  rflags := 0x202
  ss := 0x23
  zf := false
  gsBase := 7
  kernelGsBase := 0

/-- A timer interrupt while a handler is registered for its vector. -/
theorem interrupt_reaches_handler_timer :
    Serviced 0x40000 32 none (fun x => pure { x with rax := 9 }) (smallCpu 32 0x400) ()
      (interrupt smallSymbols 0x40000 0x20000
        (fun _ => compiled fun x => pure { x with rax := 9 })
        (run (step smallSymbols) {} [.init, .register 32 0x400]).descriptor 32 none
        ⟨smallCpu 32 0x400, ()⟩) := by
  have hhandler : handlerOf smallSymbols 32 [.init, .register 32 0x400] = 0x400 := by decide +kernel
  exact interrupt_reaches_handler smallSymbols 0x40000 0x20000
    (fun _ => compiled fun x => pure { x with rax := 9 }) smallSymbols_stubs smallSymbols_inj
    [.register 32 0x400] 32 (by decide) none (by decide) (smallCpu 32 0x400) ()
    (fun x => pure { x with rax := 9 })
    ⟨by decide, by rintro _ ⟨v, hv, rfl⟩; right; change 0x20000 ≤ _; omega, by decide⟩
    (by rw [hhandler]; rfl) (compiled_implements rfl)

end Compiled

end Emk.TrapPath
