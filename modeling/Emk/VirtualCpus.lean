import Emk.SchedRotation
import Emk.TrapHandlers
import Emk.TrapPath

/-!
# Each process has a processor of its own

The processor that the scheduler shares out is seen by each process as one
that only this process moves. The abstract machine keeps the registers of all
processes side by side. The machine below it has one set of registers, the
stubs, the scheduler and the control blocks, and it simulates the abstract one
over every run of timer interrupts, system calls, computations and spawns.
-/

set_option autoImplicit false

namespace Emk.VirtualCpus
open Emk.PageAllocator (Ops)
open Emk.Vmm Emk.Calls Emk.Transition Emk.Sched Emk.Idt Emk.IsrStub Emk.TrapPath
open Emk.TrapHandlers Emk.SchedDispatch Emk.ReferenceAllocator
open Emk.SchedIntegrity (returned returned_eq terminated)

/-- The registers that a process computes with. -/
structure Regs where
  reg : Reg → ℕ
  rip : ℕ
  cs : ℕ
  rflags : ℕ
  rsp : ℕ
  ss : ℕ

def ofCtx (x : RegisterCtx) : Regs := ⟨ctxReg x, x.rip, x.cs, x.rflags, x.rsp, x.ss⟩

def ofCpu (c : Cpu) : Regs := ⟨c.reg, c.rip, c.cs, c.rflags, c.rsp, c.ss⟩

def setRegs (r : Regs) (c : Cpu) : Cpu :=
  { c with toCore := { c.toCore with reg := r.reg, rsp := r.rsp }
           rip := r.rip, cs := r.cs, rflags := r.rflags, ss := r.ss }

def setRax (value : ℕ) (r : Regs) : Regs := { r with reg := Function.update r.reg .rax value }

section Abstract

/-- The registers of every process, and who moves. -/
structure Virtual where
  regs : ℕ → Regs
  executing : Option ℕ

inductive Event where
  | compute (g : Regs → Regs)
  | enter (p : ℕ)
  | create (p : ℕ) (r : Regs)

/-- Only the process that moves changes its registers; entering another one
changes none. -/
def Virtual.step (v : Virtual) : Event → Virtual
  | .compute g => { v with regs := match v.executing with
      | some p => Function.update v.regs p (g (v.regs p))
      | none => v.regs }
  | .enter p => { v with executing := some p }
  | .create p r => { v with regs := Function.update v.regs p r }

end Abstract

/-- What the linker, the boot code and the compiler fix. -/
structure Config (σ : Type) where
  A : Ops σ
  hhdmOffset : ℕ
  kernelPagemap : ℕ
  kvmCtx : ℕ
  cpu : ℕ
  sym : Symbols
  realHandlers : ℕ
  rsp0 : ℕ
  pitHandler : ℕ
  code : ℕ → Call (Node (System σ)) Unit
  descriptor : ℕ → IdtEntry
  dummy : RegisterCtx

/-- The machine, the process whose registers it holds, and what has happened. -/
structure Machine (σ : Type) where
  node : Node (System σ)
  executing : Option ℕ
  trace : List Event

inductive Act where
  | compute (g : Regs → Regs)
  | timer
  | syscall
  | spawn (user : Bool) (entry pagemap vctx : ℕ)
  | mark (proc : ℕ)

variable {σ : Type}

def Machine.kernel (m : Machine σ) : Kernel σ := m.node.world.kernel

def Machine.cpu (m : Machine σ) : Cpu := m.node.cpu

def Machine.withKernel (m : Machine σ) (k : Kernel σ) : Machine σ :=
  { m with node := { m.node with world := { m.node.world with kernel := k } } }

def currentProc (cpu : ℕ) (k : Kernel σ) : ℕ := (k.scheds cpu).procs (k.scheds cpu).currentPid

section Step
variable (C : Config σ)

def trap (vector : ℕ) : Call (Node (System σ)) Unit :=
  interrupt C.sym C.realHandlers C.rsp0 C.code C.descriptor vector none

/-- One step of the machine, if it comes back from the kernel. -/
def step (m : Machine σ) : Act → Option (Machine σ)
  | .compute g => some { m with
      node := { m.node with cpu := setRegs (g (ofCpu m.cpu)) m.cpu }
      trace := m.trace ++ [.compute g] }
  | .timer =>
    match trap C 32 m.node with
    | (some _, n) => some (
        if (n.world.kernel.scheds C.cpu).count = 0 then { m with node := n }
        else { m with
          node := n
          executing := some (currentProc C.cpu n.world.kernel)
          trace := m.trace ++ [.enter (currentProc C.cpu n.world.kernel)] })
    | (none, _) => none
  | .syscall =>
    match trap C 0x80 m.node with
    | (some _, n) => some { m with
        node := n
        trace := m.trace ++ [.compute (setRax (statusOf (m.cpu.reg .rax)))] }
    | (none, _) => none
  | .spawn user entry pagemap vctx =>
    (returned (schedSpawn C.A C.hhdmOffset C.kernelPagemap C.kvmCtx C.cpu user entry pagemap vctx
      m.kernel)).map fun k =>
        let proc := (k.scheds C.cpu).procs ((k.scheds C.cpu).count-1)
        { m.withKernel k with trace := m.trace ++ [.create proc (ofCtx (k.pcbs proc).ctx)] }
  | .mark proc => some (m.withKernel (terminated proc m.kernel))

/-- The stack is in its place, a tick is not stranded, and only a process that
does not run is terminated. -/
def Permitted (m : Machine σ) : Act → Prop
  | .compute _ => True
  | .timer => Placed C.realHandlers C.rsp0 m.cpu ∧ ¬ Strands C.cpu m.kernel
  | .syscall => Placed C.realHandlers C.rsp0 m.cpu ∧ m.executing ≠ none ∧
      m.cpu.reg .rax ≠ sysExitNumber
  | .spawn _ _ _ _ => True
  | .mark proc => proc ≠ currentProc C.cpu m.kernel

/-- The registers of a process: on the processor, or in its control block. -/
def view (m : Machine σ) (p : ℕ) : Regs :=
  if m.executing = some p then ofCpu m.cpu else ofCtx (m.kernel.pcbs p).ctx

/-- The abstract machine with the same registers for every process of the table. -/
structure Agrees (m : Machine σ) (v : Virtual) : Prop where
  executing : v.executing = m.executing
  regs : ∀ p ∈ entries (m.kernel.scheds C.cpu), v.regs p = view m p

/-- The tables lead to the compiled handlers. -/
structure Wired : Prop where
  inj : Set.InjOn C.sym.stubs {v | v < 256}
  gates : ∀ v < 256, readGate (C.descriptor v).words = some (gateOf C.sym v)
  timer : Implements C.code C.realHandlers C.pitHandler
    (pitHandler (some (tick C.A C.hhdmOffset C.kernelPagemap C.cpu)))
  syscall : Implements C.code C.realHandlers C.sym.syscallHandler
    (fun ctx => onKernel (syscallHandler C.A C.hhdmOffset C.kernelPagemap C.cpu C.dummy ctx))

/-- What holds of the machine before every step. -/
structure Inv (lo hi : ℕ) (m : Machine σ) : Prop where
  sched : SchedDispatch.Inv C.cpu lo hi m.kernel
  member : ∀ p, m.executing = some p → p ∈ entries (m.kernel.scheds C.cpu)
  running : ∀ p ∈ entries (m.kernel.scheds C.cpu),
    (m.kernel.pcbs p).state = .running ↔ m.executing = some p
  timer : m.cpu.mem (C.realHandlers+8*32) = C.pitHandler
  syscall : m.cpu.mem (C.realHandlers+8*0x80) = C.sym.syscallHandler

end Step

variable {C : Config σ} {lo hi : ℕ} {m m' : Machine σ} {v : Virtual}

section Registers
variable {c c' : Cpu} {x : RegisterCtx}

theorem ofCtx_interrupted (vector : ℕ) (err : Option ℕ) (c : Cpu) :
    ofCtx (interrupted vector err c) = ofCpu c := by
  rw [ofCtx, ofCpu]
  congr 1
  funext r
  cases r <;> rfl

theorem ofCpu_resumes (h : Resumes x c) : ofCpu c = ofCtx x := by
  rw [ofCtx, ofCpu, h.reg, h.rip, h.cs, h.rflags, h.rsp, h.ss]

theorem ofCtx_rax (value : ℕ) (x : RegisterCtx) :
    ofCtx { x with rax := value } = setRax value (ofCtx x) := by
  rw [ofCtx, ofCtx, setRax]
  congr 1
  funext r
  cases r <;> rfl

end Registers

section Invariant

/-- The process on the processor is the current one of the table. -/
theorem Inv.current (h : Inv C lo hi m) {p : ℕ} (hp : m.executing = some p) :
    p = currentProc C.cpu m.kernel ∧ schedGetCurrent (m.kernel.scheds C.cpu) = p ∧ p ≠ 0 := by
  have hin := h.member p hp
  have hrun := (h.running p hin).mpr hp
  obtain ⟨i, hi, rfl⟩ := mem_entries.mp hin
  obtain ⟨live, bs, htab⟩ := h.sched.tables
  have hcur : i = (m.kernel.scheds C.cpu).currentPid := by
    rcases h.sched.fit.state i hi with hs | hs | hs
    · rw [hs] at hrun
      exact absurd hrun (by decide)
    · rw [Gone, hrun] at hs
      exact absurd hs (by decide)
    · exact hs.2
  subst hcur
  refine ⟨rfl, ?_, (htab.table C.cpu).filled _ hi⟩
  rw [schedGetCurrent, if_neg (by omega)]

theorem Fit.sameState {cpu : ℕ} {k k' : Kernel σ} (h : Fit cpu k) (hs : k'.scheds = k.scheds)
    (hstate : ∀ p, (k'.pcbs p).state = (k.pcbs p).state)
    (hslice : ∀ p, (k'.pcbs p).timeslice = (k.pcbs p).timeslice) : Fit cpu k' := by
  refine ⟨?_, ?_, ?_, ?_⟩ <;> simp only [hs, Gone, hstate, hslice]
  · exact h.idle
  · exact h.current
  · exact h.state
  · exact h.slice

theorem withErrno_pcb (p e q : ℕ) (k : Kernel σ) :
    (withErrno p e k).pcbs q = { k.pcbs q with
      errno := if q = p then e else (k.pcbs q).errno } := by
  rw [withErrno]
  by_cases hq : q = p
  · rw [hq]
    simp
  · simp [hq]

/-- The control blocks once the outgoing process is saved hold what each process sees. -/
theorem Inv.saved_view (h : Inv C lo hi m) {p : ℕ} (hp : p ∈ entries (m.kernel.scheds C.cpu)) :
    ofCtx (saved C.cpu (interrupted 32 none m.cpu) m.kernel p).ctx = view m p := by
  obtain ⟨live, bs, htab⟩ := h.sched.tables
  rw [view, saved]
  by_cases hex : m.executing = some p
  · obtain ⟨hcur, -, h0⟩ := h.current hex
    have hrun := (h.running p hp).mpr hex
    rw [if_pos hex, ← ofCtx_interrupted 32 none m.cpu]
    rw [hcur, currentProc] at hrun h0
    rw [if_pos ⟨h0, hrun⟩, hcur, currentProc, Function.update_self, savedPcb]
    split_ifs
    · rfl
    · rfl
  · rw [if_neg hex]
    split_ifs with hrun
    · have hne : p ≠ (m.kernel.scheds C.cpu).procs (m.kernel.scheds C.cpu).currentPid := by
        rintro rfl
        exact hex ((h.running _ hp).mp hrun.2)
      rw [Function.update_of_ne hne]
    · rfl

end Invariant

section Simulation

/-- What one step leaves, with the events that it adds. -/
structure Simulated (C : Config σ) (lo hi : ℕ) (m m' : Machine σ) (v : Virtual) : Prop where
  inv : Inv C lo hi m'
  agrees : ∃ es, m'.trace = m.trace ++ es ∧ Agrees C m' (run Virtual.step v es)

theorem compute_simulates (h : Inv C lo hi m) (hv : Agrees C m v) (g : Regs → Regs)
    (hr : step C m (.compute g) = some m') : Simulated C lo hi m m' v := by
  obtain rfl := Option.some.inj hr
  refine ⟨⟨h.sched, h.member, h.running, h.timer, h.syscall⟩, [.compute g], rfl, hv.executing, ?_⟩
  intro p hp
  have hregs := hv.regs p hp
  rw [view] at hregs ⊢
  change (match v.executing with
    | some q => Function.update v.regs q (g (v.regs q))
    | none => v.regs) p = if m.executing = some p then g (ofCpu m.cpu)
      else ofCtx (m.kernel.pcbs p).ctx
  rw [hv.executing]
  rcases hex : m.executing with _ | q
  · rw [hex] at hregs
    exact hregs
  · rw [hex] at hregs
    dsimp only
    by_cases hq : q = p
    · rw [hq, if_pos rfl] at hregs
      rw [hq, if_pos rfl, Function.update_self, hregs]
    · rw [if_neg (fun he => hq (Option.some.inj he))] at hregs ⊢
      rw [Function.update_of_ne (Ne.symm hq), hregs]

theorem mark_simulates (h : Inv C lo hi m) (hv : Agrees C m v) {proc : ℕ}
    (hproc : proc ≠ currentProc C.cpu m.kernel) (hr : step C m (.mark proc) = some m') :
    Simulated C lo hi m m' v := by
  obtain rfl := Option.some.inj hr
  have hne : m.executing ≠ some proc := fun he => hproc (h.current he).1
  have hctx : ∀ p, ((terminated proc m.kernel).pcbs p).ctx = (m.kernel.pcbs p).ctx := by
    intro p
    by_cases hp : p = proc
    · rw [hp, SchedIntegrity.terminated_self]
    · rw [SchedIntegrity.terminated_other hp]
  refine ⟨⟨?_, h.member, fun p hp => ?_, h.timer, h.syscall⟩, [], (List.append_nil _).symm,
    hv.executing, fun p hp => ?_⟩
  · have hmark : SchedIntegrity.step C.A C.hhdmOffset C.kernelPagemap C.kvmCtx m.kernel
        (.mark proc) = some (terminated proc m.kernel) := rfl
    exact step_inv h.sched (o := .mark proc) hproc hmark
  · change ((terminated proc m.kernel).pcbs p).state = .running ↔ m.executing = some p
    by_cases hpp : p = proc
    · rw [hpp, SchedIntegrity.terminated_self]
      exact ⟨fun hs => absurd (show ProcState.terminated = .running from hs) (by decide),
        fun he => absurd he hne⟩
    · rw [SchedIntegrity.terminated_other hpp]
      exact h.running p hp
  · have hregs := hv.regs p hp
    rw [view] at hregs ⊢
    change v.regs p = if m.executing = some p then ofCpu m.cpu
      else ofCtx ((terminated proc m.kernel).pcbs p).ctx
    rw [hctx]
    exact hregs

theorem spawn_simulates (h : Inv C lo hi m) (hv : Agrees C m v) {user : Bool}
    {entry pagemap vctx : ℕ} (hr : step C m (.spawn user entry pagemap vctx) = some m') :
    Simulated C lo hi m m' v := by
  rw [step, Option.map_eq_some_iff] at hr
  obtain ⟨k, hk, rfl⟩ := hr
  have hinv : SchedDispatch.Inv C.cpu lo hi k := step_inv h.sched
    (o := .spawn C.cpu user entry pagemap vctx) rfl hk
  obtain ⟨pid, hk⟩ := returned_eq hk
  obtain ⟨proc, ctx, stack, v₁, v₂, hspawn⟩ := schedSpawn_returned hk
  obtain ⟨live, bs, htab⟩ := h.sched.tables
  obtain ⟨hfresh, -⟩ := htab.heap.kmalloc_fresh hspawn.pcb hspawn.pcb_ne
  have hnew : proc ∉ entries (m.kernel.scheds C.cpu) := fun hin => hfresh (htab.onHeap _ _ hin)
  obtain ⟨htable, hentries⟩ := hspawn.table (htab.table C.cpu) hnew
  have hlast : (k.scheds C.cpu).procs ((k.scheds C.cpu).count-1) = proc := by
    rw [hspawn.sched]
    exact Function.update_self _ _ _
  have hold : ∀ p, p ≠ proc → k.pcbs p = m.kernel.pcbs p := by
    intro p hp
    rw [hspawn.pcbs, Function.update_of_ne hp]
  have hidle : m.executing ≠ some proc := fun he => hnew (h.member _ he)
  have hcases : ∀ p ∈ entries (k.scheds C.cpu), p ∈ entries (m.kernel.scheds C.cpu) ∧ p ≠ proc ∨
      p = proc := by
    intro p hp
    rw [hentries, List.mem_append, List.mem_singleton] at hp
    exact hp.imp_left fun hin => ⟨hin, fun he => hnew (he ▸ hin)⟩
  rw [hlast]
  refine ⟨⟨hinv, fun p he => ?_, fun p hp => ?_, h.timer, h.syscall⟩,
    [.create proc (ofCtx (k.pcbs proc).ctx)], rfl, hv.executing, fun p hp => ?_⟩
  · change p ∈ entries (k.scheds C.cpu)
    rw [hentries]
    exact List.mem_append_left _ (h.member p he)
  · change (k.pcbs p).state = .running ↔ m.executing = some p
    rcases hcases p hp with ⟨hin, hne⟩ | rfl
    · rw [hold p hne]
      exact h.running p hin
    · rw [hspawn.pcbs, Function.update_self]
      exact ⟨fun hs => absurd (show ProcState.ready = .running from hs) (by decide),
        fun he => absurd he hidle⟩
  · change (Function.update v.regs proc (ofCtx (k.pcbs proc).ctx)) p =
      if m.executing = some p then ofCpu m.cpu else ofCtx (k.pcbs p).ctx
    rcases hcases p hp with ⟨hin, hne⟩ | rfl
    · rw [Function.update_of_ne hne, hold p hne]
      exact hv.regs p hin
    · rw [Function.update_self, if_neg hidle]

/-- A trap that comes back did what its handler does to the record. -/
theorem trap_returned {f : RegisterCtx → Call (System σ) RegisterCtx} {vector : ℕ}
    {n : Node (System σ)} {u : Unit}
    (hs : Serviced C.realHandlers vector none f m.cpu m.node.world (trap C vector m.node))
    (hr : trap C vector m.node = (some u, n)) :
    ∃ x, f (interrupted vector none m.cpu) m.node.world = (some x, n.world) ∧
      ofCpu n.cpu = ofCtx x ∧ ∀ a ∈ tableWords C.realHandlers, n.cpu.mem a = m.cpu.mem a := by
  rcases hf : f (interrupted vector none m.cpu) m.node.world with ⟨_ | x, w⟩
  · have hnone := hs.stuck w hf
    rw [hr] at hnone
    exact absurd hnone (by simp)
  · obtain ⟨c', hret, hres, -, -, hmem⟩ := hs.returned x w hf
    rw [hret] at hr
    obtain ⟨-, rfl⟩ := Prod.mk.inj hr
    exact ⟨x, rfl, ofCpu_resumes hres, hmem⟩

theorem Inv.table (h : Inv C lo hi m) {n : Node (System σ)}
    (hmem : ∀ a ∈ tableWords C.realHandlers, n.cpu.mem a = m.cpu.mem a) :
    n.cpu.mem (C.realHandlers+8*32) = C.pitHandler ∧
      n.cpu.mem (C.realHandlers+8*0x80) = C.sym.syscallHandler := by
  rw [hmem _ ⟨32, by decide, rfl⟩, hmem _ ⟨0x80, by decide, rfl⟩]
  exact ⟨h.timer, h.syscall⟩

/-- A tick that is not stranded, on the kernel's side: the process it enters is
the current one, and every process keeps the registers it sees. -/
theorem Inv.ticked (h : Inv C lo hi m) (hno : ¬ Strands C.cpu m.kernel) {k : Kernel σ}
    {r : Option RegisterCtx}
    (hcount : (m.kernel.scheds C.cpu).count ≠ 0)
    (htick : schedTick C.A C.hhdmOffset C.kernelPagemap C.cpu
      (some (interrupted 32 none m.cpu)) m.kernel = (some r, k)) :
    SchedDispatch.Inv C.cpu lo hi k ∧ (k.scheds C.cpu).count ≠ 0 ∧
      currentProc C.cpu k ∈ entries (k.scheds C.cpu) ∧
      r = some (k.pcbs (currentProc C.cpu k)).ctx ∧
      (∀ p ∈ entries (k.scheds C.cpu), p ∈ entries (m.kernel.scheds C.cpu) ∧
        ofCtx (k.pcbs p).ctx = view m p ∧
        ((k.pcbs p).state = .running ↔ some (currentProc C.cpu k) = some p)) := by
  obtain ⟨live, bs, htab⟩ := h.sched.tables
  obtain ⟨out, next, gone, rfl, hticked⟩ := schedTick_returned (htab.table C.cpu) hcount htick
  obtain ⟨hfit, hdisp⟩ := h.sched.fit.dispatched (htab.table C.cpu) hcount hticked hno
  obtain ⟨htabs, -⟩ := htab.tick htick
  obtain ⟨live', bs', htab', -⟩ := htabs
  have hin := (htab'.table C.cpu).used hdisp.present
  refine ⟨⟨⟨live', bs', htab'⟩, hfit⟩, by omega, mem_entries.mpr ⟨_, hin, rfl⟩,
    congrArg some hdisp.frame, fun p hp => ⟨hticked.mem hp, ?_, ?_⟩⟩
  · rw [← h.saved_view (hticked.mem hp), hticked.pcbs, SchedRotation.entered_ctx]
  · obtain ⟨i, hi, rfl⟩ := mem_entries.mp hp
    refine ⟨fun hrun => ?_, fun he => ?_⟩
    · rw [hdisp.only i hi hrun]
      rfl
    · rw [← Option.some.inj he]
      exact hdisp.running

theorem timer_simulates (hw : Wired C) (h : Inv C lo hi m) (hv : Agrees C m v)
    (hperm : Permitted C m .timer) (hr : step C m .timer = some m') :
    Simulated C lo hi m m' v := by
  obtain ⟨hplaced, hno⟩ := hperm
  have hs := interrupt_runs (w := m.node.world) hw.inj (by decide) (hw.gates 32 (by decide))
    (by decide : (none : Option ℕ).isSome ↔ 32 ∈ errorVectors) hplaced h.timer hw.timer
  rw [step] at hr
  rcases htrap : trap C 32 m.node with ⟨_ | u, n⟩
  · rw [htrap] at hr
    exact absurd hr (by simp)
  rw [htrap] at hr
  obtain rfl := Option.some.inj hr
  obtain ⟨x, hf, hregs, hmem⟩ := trap_returned hs htrap
  obtain ⟨htick, -⟩ := pitHandler_returned hf
  obtain ⟨r, hsched, rfl⟩ := tick_returned htick
  obtain ⟨htimer, hsys⟩ := h.table hmem
  by_cases hcount : (m.kernel.scheds C.cpu).count = 0
  · have hidle := h.sched.fit.idle hcount
    rw [Machine.kernel] at hcount
    rw [schedTick_idle hcount, pmset] at hsched
    split_ifs at hsched
    · exact (never_returned hsched).elim
    obtain ⟨-, hk⟩ := Prod.mk.inj hsched
    have hscheds : n.world.kernel.scheds = m.kernel.scheds := by
      rw [← hk]
      rfl
    have hpcbs : n.world.kernel.pcbs = m.kernel.pcbs := by
      rw [← hk]
      rfl
    have hheap : n.world.kernel.heap = m.kernel.heap := by
      rw [← hk]
      rfl
    have hcount' : (n.world.kernel.scheds C.cpu).count = 0 := by rw [hscheds]; exact hcount
    obtain ⟨live, bs, htab⟩ := h.sched.tables
    have hnone : ∀ p, p ∉ entries (m.kernel.scheds C.cpu) := by
      intro p hp
      obtain ⟨i, hi, -⟩ := mem_entries.mp hp
      rw [Machine.kernel] at hi
      omega
    rw [if_pos hcount']
    refine ⟨⟨⟨⟨live, bs, ?_, ?_, ?_, ?_⟩, h.sched.fit.congr hscheds hpcbs⟩, ?_, ?_, htimer, hsys⟩,
      [], (List.append_nil _).symm, hv.executing, ?_⟩
    · exact hheap ▸ htab.heap
    · exact hscheds ▸ htab.table
    · exact hscheds ▸ htab.onHeap
    · exact hscheds ▸ htab.apart
    · exact fun p he => absurd (h.member p he) (hnone p)
    · intro p hp
      exact absurd (hscheds ▸ hp : p ∈ entries (m.kernel.scheds C.cpu)) (hnone p)
    · intro p hp
      exact absurd (hscheds ▸ hp : p ∈ entries (m.kernel.scheds C.cpu)) (hnone p)
  · obtain ⟨hinv, hcount', hcur, rfl, hviews⟩ := h.ticked hno hcount hsched
    rw [Option.getD_some] at hregs
    rw [if_neg hcount']
    refine ⟨⟨hinv, ?_, fun p hp => (hviews p hp).2.2, htimer, hsys⟩, [.enter _], rfl, rfl, ?_⟩
    · intro p he
      rw [← Option.some.inj he]
      exact hcur
    · intro p hp
      obtain ⟨hold, hctx, -⟩ := hviews p hp
      change v.regs p = if some (currentProc C.cpu n.world.kernel) = some p then ofCpu n.cpu
        else ofCtx (n.world.kernel.pcbs p).ctx
      rw [hv.regs p hold, ← hctx]
      split_ifs with he
      · rw [hregs, Option.some.inj he]
      · rfl

theorem syscall_simulates (hw : Wired C) (h : Inv C lo hi m) (hv : Agrees C m v)
    (hperm : Permitted C m .syscall) (hr : step C m .syscall = some m') :
    Simulated C lo hi m m' v := by
  obtain ⟨hplaced, hex, hnum⟩ := hperm
  obtain ⟨q, hq⟩ := Option.ne_none_iff_exists'.mp hex
  obtain ⟨-, hcur, h0⟩ := h.current hq
  have hs := interrupt_runs (w := m.node.world) hw.inj (by decide) (hw.gates 0x80 (by decide))
    (by decide : (none : Option ℕ).isSome ↔ 0x80 ∈ errorVectors) hplaced h.syscall hw.syscall
  rw [step] at hr
  rcases htrap : trap C 0x80 m.node with ⟨_ | u, n⟩
  · rw [htrap] at hr
    exact absurd hr (by simp)
  rw [htrap] at hr
  obtain rfl := Option.some.inj hr
  obtain ⟨x, hf, hregs, hmem⟩ := trap_returned hs htrap
  obtain ⟨htimer, hsys⟩ := h.table hmem
  obtain ⟨k, hk, hworld⟩ := onKernel_returned hf
  obtain ⟨e, hhandler, -⟩ := syscallHandler_returns C.A C.hhdmOffset C.kernelPagemap C.cpu
    (k := m.kernel) C.dummy (interrupted 0x80 none m.cpu) hnum (by rw [hcur]; exact h0)
  obtain ⟨hx, rfl⟩ := Prod.mk.inj (hk.symm.trans hhandler)
  obtain rfl := Option.some.inj hx
  rw [ofCtx_rax, ofCtx_interrupted] at hregs
  rw [hcur] at hworld
  have hkernel : n.world.kernel = withErrno q e m.kernel := by
    rw [hworld]
  have hpcb : ∀ p, (n.world.kernel.pcbs p).state = (m.kernel.pcbs p).state ∧
      (n.world.kernel.pcbs p).timeslice = (m.kernel.pcbs p).timeslice ∧
      (n.world.kernel.pcbs p).ctx = (m.kernel.pcbs p).ctx := by
    intro p
    rw [hkernel, withErrno_pcb]
    exact ⟨rfl, rfl, rfl⟩
  have hscheds : n.world.kernel.scheds = m.kernel.scheds := by
    rw [hkernel]
    rfl
  obtain ⟨live, bs, htab⟩ := h.sched.tables
  refine ⟨⟨⟨⟨live, bs, ?_, ?_, ?_, ?_⟩, Fit.sameState h.sched.fit hscheds (fun p => (hpcb p).1)
    (fun p => (hpcb p).2.1)⟩, ?_, ?_, htimer, hsys⟩, [.compute _], rfl, hv.executing, ?_⟩
  · change HeapRuns.Inv lo hi ⟨n.world.kernel.heap, live⟩ bs
    rw [hkernel]
    exact htab.heap
  · exact hscheds ▸ htab.table
  · exact hscheds ▸ htab.onHeap
  · exact hscheds ▸ htab.apart
  · exact fun p he => hscheds ▸ h.member p he
  · intro p hp
    change (n.world.kernel.pcbs p).state = .running ↔ m.executing = some p
    rw [(hpcb p).1]
    exact h.running p (hscheds ▸ hp)
  · intro p hp
    have hreg := hv.regs p (hscheds ▸ hp)
    rw [view, hq] at hreg
    change (match v.executing with
      | some p => Function.update v.regs p (setRax (statusOf (m.cpu.reg .rax)) (v.regs p))
      | none => v.regs) p = if m.executing = some p then ofCpu n.cpu
        else ofCtx (n.world.kernel.pcbs p).ctx
    rw [hv.executing, hq, (hpcb p).2.2]
    dsimp only
    by_cases hqp : q = p
    · rw [hqp, if_pos rfl] at hreg
      rw [hqp, if_pos rfl, Function.update_self, hreg, hregs]
      rfl
    · rw [if_neg (fun he => hqp (Option.some.inj he))] at hreg ⊢
      rw [Function.update_of_ne (Ne.symm hqp), hreg]

theorem step_simulates (hw : Wired C) (h : Inv C lo hi m) (hv : Agrees C m v) {a : Act}
    (hperm : Permitted C m a) (hr : step C m a = some m') : Simulated C lo hi m m' v := by
  cases a with
  | compute g => exact compute_simulates h hv g hr
  | timer => exact timer_simulates hw h hv hperm hr
  | syscall => exact syscall_simulates hw h hv hperm hr
  | spawn user entry pagemap vctx => exact spawn_simulates h hv hr
  | mark proc => exact mark_simulates h hv hperm hr

/-- What holds of the machine and of its history from `v` on. -/
structure History (C : Config σ) (lo hi : ℕ) (v : Virtual) (m : Machine σ) : Prop where
  inv : Inv C lo hi m
  agrees : Agrees C m (run Virtual.step v m.trace)

theorem History.step (h : History C lo hi v m) (hw : Wired C) {a : Act} (hperm : Permitted C m a)
    (hr : step C m a = some m') : History C lo hi v m' := by
  have hs := step_simulates hw h.inv h.agrees hperm hr
  obtain ⟨es, htrace, hagrees⟩ := hs.agrees
  refine ⟨hs.inv, ?_⟩
  rw [htrace, run_append]
  exact hagrees

theorem History.start (hempty : (m.kernel.scheds C.cpu).count = 0) (hexec : m.executing = none)
    (htrace : m.trace = []) (hv : v.executing = none) (hinv : SchedDispatch.Inv C.cpu lo hi m.kernel)
    (htimer : m.cpu.mem (C.realHandlers+8*32) = C.pitHandler)
    (hsyscall : m.cpu.mem (C.realHandlers+8*0x80) = C.sym.syscallHandler) :
    History C lo hi v m := by
  have hnone : ∀ p, p ∉ entries (m.kernel.scheds C.cpu) := by
    intro p hp
    obtain ⟨i, hi, -⟩ := mem_entries.mp hp
    omega
  refine ⟨⟨hinv, ?_, fun p hp => absurd hp (hnone p), htimer, hsyscall⟩, ?_⟩
  · intro p hp
    rw [hexec] at hp
    exact absurd hp (by simp)
  · rw [htrace]
    exact ⟨hv.trans hexec.symm, fun p hp => absurd hp (hnone p)⟩

end Simulation

/-- From `sched_init` on, whatever interrupts, system calls, computations,
spawns and terminations of other processes follow, the registers that each
process finds are those of its own processor. -/
theorem own_processor (C : Config σ) (hw : Wired C) (lo hi : ℕ) (boot : Kernel σ)
    (live : List ℕ) (bs : List HeapBlocks.Blk) (u : Unit) (m m' : Machine σ) (v : Virtual)
    (hheap : HeapRuns.Inv lo hi ⟨boot.heap, live⟩ bs)
    (hboot : ∀ c, boot.scheds c = ⟨0, fun _ => 0, 0, 0⟩)
    (hinit : schedInit C.cpu boot = (some u, m.kernel))
    (hexec : m.executing = none) (htrace : m.trace = []) (hv : v.executing = none)
    (htimer : m.cpu.mem (C.realHandlers+8*32) = C.pitHandler)
    (hsyscall : m.cpu.mem (C.realHandlers+8*0x80) = C.sym.syscallHandler) (acts : List Act)
    (hperm : Along (lift (step C)) (Issued (Permitted C)) (some m) acts)
    (hrun : run (lift (step C)) (some m) acts = some m') :
    Agrees C m' (run Virtual.step v m'.trace) := by
  have hempty : (m.kernel.scheds C.cpu).count = 0 := by
    obtain ⟨table, heap, -, -, hk⟩ := schedInit_returned hinit
    rw [hk]
    dsimp only
    rw [Function.update_self]
  have hstart : History C lo hi v m := History.start hempty hexec htrace hv
    (SchedDispatch.init_inv hheap hboot hinit) htimer hsyscall
  exact (run_lift_safe (fun m a m' h hperm hr => h.step hw hperm hr) hstart hperm hrun).agrees

section Small

instance decidablePlaced (realHandlers rsp0 : ℕ) (c : Cpu) :
    Decidable (Placed realHandlers rsp0 c) :=
  decidable_of_iff (224 ≤ stackTop rsp0 c ∧ (∀ v < 256, realHandlers+8*v < stackTop rsp0 c-224 ∨
      stackTop rsp0 c ≤ realHandlers+8*v) ∧ realHandlers+2048 ≤ 2^64)
    ⟨fun h => ⟨h.1, by rintro _ ⟨v, hv, rfl⟩; exact h.2.1 v hv, h.2.2⟩,
      fun h => ⟨h.room, fun v hv => h.apart _ ⟨v, hv, rfl⟩, h.bound⟩⟩

instance decidablePermitted (C : Config σ) (m : Machine σ) : ∀ a, Decidable (Permitted C m a)
  | .compute _ => .isTrue trivial
  | .timer => inferInstanceAs (Decidable (_ ∧ ¬ _))
  | .syscall => inferInstanceAs (Decidable (_ ∧ _ ∧ _))
  | .spawn _ _ _ _ => .isTrue trivial
  | .mark _ => inferInstanceAs (Decidable (_ ≠ _))

def smallConfig : Config (List ℕ) where
  A := smallOps
  hhdmOffset := smallLayout.hhdmOffset
  kernelPagemap := smallLayout.hhdmOffset
  kvmCtx := bootContext.1
  cpu := 0
  sym := smallSymbols
  realHandlers := 0x40000
  rsp0 := 0x20000
  pitHandler := 0x400
  code := fun p =>
    if p = 0x400 then
      compiled (pitHandler (some (tick smallOps smallLayout.hhdmOffset smallLayout.hhdmOffset 0)))
    else compiled fun ctx => onKernel
      (syscallHandler smallOps smallLayout.hhdmOffset smallLayout.hhdmOffset 0 {} ctx)
  descriptor := (run (Idt.step smallSymbols) {} [.init, .register 32 0x400]).descriptor
  dummy := {}

theorem smallConfig_wired : Wired smallConfig where
  inj := smallSymbols_inj
  gates := gates_after smallSymbols smallSymbols_stubs [.register 32 0x400]
  timer := compiled_implements rfl
  syscall := compiled_implements rfl

/-- The idle kernel after `timer_init`. -/
def smallMachine : Machine (List ℕ) where
  node := ⟨{ smallCpu 32 0x400 with
      mem := fun a => if a = 0x40000+8*32 then 0x400 else
        if a = 0x40000+8*0x80 then smallSymbols.syscallHandler else 0 }, ⟨idleKernel 2, 0⟩⟩
  executing := none
  trace := []

/-- Two processes of the kernel; the first computes and makes an unknown system call. -/
def twoProcs : List Act :=
  [.spawn false 0x5000 smallLayout.hhdmOffset bootContext.1,
    .spawn false 0x6000 smallLayout.hhdmOffset bootContext.1,
    .timer, .compute (setRax 7), .syscall, .timer]

theorem own_processor_small :
    ∃ m', run (lift (step smallConfig)) (some smallMachine) twoProcs = some m' ∧
      m'.executing = some 8224 ∧ m'.trace.length = 6 ∧
      Agrees smallConfig m' (run Virtual.step ⟨fun _ => ofCpu smallMachine.cpu, none⟩ m'.trace) := by
  obtain ⟨bs, hheap⟩ := bootKernel_heap 2 (by decide) (by decide +kernel)
    (by decide +kernel)
  have hall : (run (lift (step smallConfig)) (some smallMachine) twoProcs).any
      (fun m => decide (m.executing = some 8224 ∧ m.trace.length = 6)) = true := by decide +kernel
  obtain ⟨m', hrun, hm⟩ := (Option.any_eq_true _ _).mp hall
  obtain ⟨hexec, hlen⟩ := of_decide_eq_true hm
  refine ⟨m', hrun, hexec, hlen, ?_⟩
  exact own_processor smallConfig smallConfig_wired _ _ (bootKernel 2) [] bs () smallMachine m' _
    hheap (fun _ => rfl) (idleKernel_init 2 (by decide +kernel)) rfl rfl rfl (by decide +kernel)
    (by decide +kernel) twoProcs (by decide +kernel) hrun

end Small

end Emk.VirtualCpus
