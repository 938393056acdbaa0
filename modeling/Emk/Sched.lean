import Emk.Calls
import Emk.FirstFitHeap
import Emk.LockTrace
import Emk.Vmm

/-!
# The scheduler

`sys/sched.c` and `sys_exit` of `sys/syscall.c`. Process control blocks lie on
the kernel heap and are kept as records at their addresses. A call that ends
in `kpanic` or `hlt`, or in a walk over a list without end, does not return.
Two logs record what the functions do to the locks and which register frames
they copy; nothing reads them.
-/

set_option autoImplicit false

namespace Emk.Sched
open Emk.ByteMemory Emk.MachineWord Emk.DirectMap Emk.PageAllocator Emk.Paging Emk.Vmm Emk.Calls
open Emk.FirstFitHeap (Heap)

def procDefaultTime : ℕ := 1
def procMaxProcsPerCpu : ℕ := 512
def maxCpus : ℕ := 64
def pcbSize : ℕ := 272
def esrch : ℤ := 4

inductive ProcState where
  | ready
  | running
  | waiting
  | terminated
  deriving DecidableEq, Repr

structure RegisterCtx where
  es : ℕ := 0
  ds : ℕ := 0
  cr4 : ℕ := 0
  cr3 : ℕ := 0
  cr2 : ℕ := 0
  cr0 : ℕ := 0
  r15 : ℕ := 0
  r14 : ℕ := 0
  r13 : ℕ := 0
  r12 : ℕ := 0
  r11 : ℕ := 0
  r10 : ℕ := 0
  r9 : ℕ := 0
  r8 : ℕ := 0
  rsi : ℕ := 0
  rdi : ℕ := 0
  rbp : ℕ := 0
  rdx : ℕ := 0
  rcx : ℕ := 0
  rbx : ℕ := 0
  rax : ℕ := 0
  vector : ℕ := 0
  err : ℕ := 0
  rip : ℕ := 0
  cs : ℕ := 0
  rflags : ℕ := 0
  rsp : ℕ := 0
  ss : ℕ := 0
  deriving DecidableEq, Repr

structure Pcb where
  pid : ℕ
  state : ProcState
  timeslice : ℕ
  pagemap : ℕ
  vctx : ℕ
  ctx : RegisterCtx
  exitCode : ℤ
  errno : ℕ
  user : Bool
  deriving DecidableEq, Repr

/-- `table` is the address of the process table, `procs` its entries. -/
structure CpuSched where
  table : ℕ
  procs : ℕ → ℕ
  count : ℕ
  currentPid : ℕ

inductive Copy where
  | save (pcb : ℕ)
  | restore (pcb : ℕ)
  deriving DecidableEq, Repr

structure Kernel (σ : Type) where
  vmm : State σ
  heap : Heap
  pcbs : ℕ → Pcb
  scheds : ℕ → CpuSched
  globalPidCounter : ℕ
  cr3 : ℕ → ℕ
  locks : List (LockTrace.Event ℕ)
  copies : List Copy

variable {σ : Type}

section Primitives
variable {α : Type} (cpu : ℕ)

def spinlockAcquire (lock : ℕ) : Call (Kernel σ) Unit :=
  update fun k => { k with locks := k.locks ++ [.acquire lock] }

def spinlockRelease (lock : ℕ) : Call (Kernel σ) Unit :=
  update fun k => { k with locks := k.locks ++ [.release lock] }

def kpanic : Call (Kernel σ) α := never

def hlt : Call (Kernel σ) α := never

def kmalloc (size : ℕ) : Call (Kernel σ) ℕ :=
  attempt fun k => (FirstFitHeap.kmalloc size k.heap).map fun r => (r.1, { k with heap := r.2 })

def kfree (ptr : ℕ) : Call (Kernel σ) Unit :=
  attempt fun k => (FirstFitHeap.kfree ptr k.heap).map fun h => ((), { k with heap := h })

def onVmm (f : State σ → Option (α × State σ)) : Call (Kernel σ) α :=
  attempt fun k => (f k.vmm).map fun r => (r.1, { k with vmm := r.2 })

def atomicIncFetch : Call (Kernel σ) ℕ := fun k =>
  (some k.globalPidCounter, { k with globalPidCounter := (k.globalPidCounter+1) % 2^32 })

def getSched : Call (Kernel σ) CpuSched := observe fun k => k.scheds cpu

def setSched (g : CpuSched → CpuSched) : Call (Kernel σ) Unit :=
  update fun k => { k with scheds := Function.update k.scheds cpu (g (k.scheds cpu)) }

def getPcb (proc : ℕ) : Call (Kernel σ) Pcb := observe fun k => k.pcbs proc

def setPcb (proc : ℕ) (g : Pcb → Pcb) : Call (Kernel σ) Unit :=
  update fun k => { k with pcbs := Function.update k.pcbs proc (g (k.pcbs proc)) }

def logCopy (c : Copy) : Call (Kernel σ) Unit := update fun k =>
    { k with copies := k.copies ++ [c] }

def pmset (hhdmOffset pagemap : ℕ) : Call (Kernel σ) Unit :=
  if pagemap = 0 ∨ isPageAligned (physical hhdmOffset pagemap) = false then kpanic
  else update fun k =>
    { k with cr3 := Function.update k.cr3 cpu (physical hhdmOffset pagemap) }

end Primitives

variable (A : Ops σ) (hhdmOffset kernelPagemap kvmCtx cpu : ℕ)

section Mapping

/-- The pages of `map_range_to_pagemap`, from the `i`-th on. -/
def mapRangeToPagemap (dest src start flags : ℕ) : ℕ → ℕ → Phys σ → Phys σ
  | 0, _, s => s
  | n+1, i, s =>
    let phys := virtToPhys hhdmOffset s.mem src (wrap (start+4096*i))
    mapRangeToPagemap dest src start flags n (i+1)
      (if phys ≠ 0 then (vmap A hhdmOffset dest (wrap (start+4096*i)) phys flags s).2 else s)

/-- The loop of `sched_spawn` over the regions of the kernel's context. -/
def mapRegions (dest flags : ℕ) (regions : ℕ → Vregion) : ℕ → ℕ → Phys σ → Option (Phys σ)
  | 0, _, _ => none
  | fuel+1, region, s =>
    if region = 0 then some s
    else
      let r := regions region
      mapRegions dest flags regions fuel r.next
        (mapRangeToPagemap A hhdmOffset dest kernelPagemap r.start flags
          (wrap (4096*r.pages) / 4096) 0 s)

/-- What `sched_spawn` maps into the page map of the process besides its stack. -/
def mapKernel (proc table dest flags : ℕ) (s : State σ) : Option (Unit × State σ) :=
  let p := (vmap A hhdmOffset dest proc (virtToPhys hhdmOffset s.phys.mem kernelPagemap proc)
    flags s.phys).2
  let p := mapRangeToPagemap A hhdmOffset dest kernelPagemap table flags
    (8*procMaxProcsPerCpu/4096) 0 p
  (mapRegions A hhdmOffset kernelPagemap dest flags s.regions rounds (s.ctxs kvmCtx).root p).map
    fun p => ((), { s with phys := p })

end Mapping

def schedInit : Call (Kernel σ) Unit := do
  let procs ← kmalloc (8*procMaxProcsPerCpu)
  if procs = 0 then kpanic
  else setSched cpu fun _ => ⟨procs, fun _ => 0, 0, 0⟩

def mapFlags (user : Bool) : ℕ := vmmPresent ||| vmmWrite ||| (if user then vmmUser else 0)

def stackSize : ℕ := 4

/-- The control block before its stack is known. -/
def newPcb (user : Bool) (entry pid pagemap vctx : ℕ) : Pcb :=
  { pid := pid, state := .ready, timeslice := 0, pagemap := pagemap, vctx := vctx
    ctx := { rip := entry, cs := if user then 0x1B else 0x08, ss := if user then 0x23 else 0x10 }
    exitCode := 0, errno := 0, user := user }

def withStack (stack : ℕ) (p : Pcb) : Pcb :=
  { p with
    ctx := { p.ctx with rsp := wrap (stack+4096*stackSize), rflags := 0x202 }
    timeslice := procDefaultTime }

def procContext (pagemap vctx : ℕ) (s : State σ) : ℕ × State σ :=
  if vctx ≠ 0 then (vctx, s) else vinit A pagemap 0x10000 s

def dec32 (n : ℕ) : ℕ := (n+2^32-1) % 2^32

def schedSpawn (user : Bool) (entry pagemap vctx : ℕ) : Call (Kernel σ) ℕ := do
  spinlockAcquire cpu
  let sched ← getSched cpu
  if sched.count ≥ procMaxProcsPerCpu then do
    spinlockRelease cpu
    kpanic
  else do
    let proc ← kmalloc pcbSize
    if proc = 0 then do
      spinlockRelease cpu
      kpanic
    else do
      let pid ← atomicIncFetch
      let pm := if pagemap ≠ 0 then pagemap else kernelPagemap
      let ctx ← onVmm fun s => some (procContext A pm vctx s)
      setPcb proc fun _ => newPcb user entry pid pm ctx
      let stack ← onVmm (valloc A hhdmOffset ctx stackSize (mapFlags user))
      if stack = 0 then do
        kfree proc
        setSched cpu fun c => { c with count := dec32 c.count }
        spinlockRelease cpu
        kpanic
      else do
        onVmm (mapKernel A hhdmOffset kernelPagemap kvmCtx proc sched.table pm (mapFlags user))
        setPcb proc (withStack stack)
        setSched cpu fun c =>
          { c with procs := Function.update c.procs c.count proc, count := c.count+1 }
        spinlockRelease cpu
        pure pid

section Tick

/-- Close the gap that a removed process leaves in the table. -/
def shiftProcs : ℕ → ℕ → (ℕ → ℕ) → ℕ → ℕ
  | 0, _, procs => procs
  | n+1, i, procs => shiftProcs n (i+1) (Function.update procs i (procs (i+1)))

def removeCurrent (c : CpuSched) : CpuSched :=
  { c with
    procs := Function.update (shiftProcs (dec32 c.count-c.currentPid) c.currentPid c.procs)
      (dec32 c.count) 0
    count := dec32 c.count }

/-- Destroy the terminated process that `current_pid` has reached. -/
def reap (proc : ℕ) : Call (Kernel σ) Unit := do
  let pcb ← getPcb proc
  onVmm fun s => (vdestroy A pcb.vctx s).map fun s => ((), s)
  onVmm fun s => some ((), { s with phys := (vunmap hhdmOffset pcb.pagemap proc s.phys).2 })
  kfree proc
  setSched cpu removeCurrent

/-- One round of the loop: step to the next entry and drop a terminated process. -/
def advance : Call (Kernel σ) ℕ := do
  setSched cpu fun c => { c with currentPid := (c.currentPid+1) % procMaxProcsPerCpu }
  let sched ← getSched cpu
  let next := sched.procs sched.currentPid
  let pcb ← getPcb next
  if next ≠ 0 ∧ pcb.state = .terminated then do
    reap A hhdmOffset cpu next
    pure 0
  else pure next

def nextProc (start : ℕ) : ℕ → Call (Kernel σ) ℕ
  | 0 => never
  | fuel+1 => do
    let next ← advance A hhdmOffset cpu
    let sched ← getSched cpu
    if next = 0 ∧ sched.currentPid ≠ start ∧ sched.count > 0 then nextProc start fuel
    else pure next

/-- Fall back to the first entry when the loop found nothing. -/
def orFirst (next : ℕ) : Call (Kernel σ) ℕ := do
  let sched ← getSched cpu
  if next = 0 ∧ sched.count > 0 then do
    setSched cpu fun c => { c with currentPid := 0 }
    pure (sched.procs 0)
  else pure next

/-- The outgoing process keeps its registers and uses up its timeslice. -/
def savedPcb (frame : RegisterCtx) (p : Pcb) : Pcb :=
  let t := wrap (p.timeslice+2^64-1)
  if t = 0 then { p with ctx := frame, state := .ready, timeslice := procDefaultTime }
  else { p with ctx := frame, timeslice := t }

def saveCurrent (proc : ℕ) (frame : RegisterCtx) : Call (Kernel σ) Unit := do
  let pcb ← getPcb proc
  if proc ≠ 0 ∧ pcb.state = .running then do
    logCopy (.save proc)
    setPcb proc (savedPcb frame)
  else pure ()

/-- The last part of `sched_tick`: enter `next`, halt, or stay. -/
def dispatch (next : ℕ) (frame : RegisterCtx) : Call (Kernel σ) RegisterCtx := do
  let sched ← getSched cpu
  let pcb ← getPcb next
  if next ≠ 0 ∧ pcb.state = .ready then do
    setPcb next fun p => { p with state := .running }
    pmset cpu hhdmOffset pcb.pagemap
    logCopy (.restore next)
    spinlockRelease cpu
    pure pcb.ctx
  else if sched.count = 0 then do
    spinlockRelease cpu
    pmset cpu hhdmOffset kernelPagemap
    hlt
  else do
    spinlockRelease cpu
    pure frame

/-- `sched_tick` on a frame; the result is what the frame holds afterwards. -/
def schedTick (ctx : Option RegisterCtx) : Call (Kernel σ) (Option RegisterCtx) :=
  match ctx with
  | none => pure none
  | some frame => do
    spinlockAcquire cpu
    let sched ← getSched cpu
    if sched.count = 0 then do
      spinlockRelease cpu
      pmset cpu hhdmOffset kernelPagemap
      pure (some frame)
    else do
      saveCurrent (sched.procs sched.currentPid) frame
      let next ← nextProc A hhdmOffset cpu sched.currentPid rounds
      let next ← orFirst cpu next
      let frame ← dispatch hhdmOffset kernelPagemap cpu next frame
      pure (some frame)

end Tick

/-- The first entry of the table with this pid. -/
def findPid (c : CpuSched) (pcbs : ℕ → Pcb) (pid : ℕ) : Option ℕ :=
  (List.range c.count).find? fun i => decide (c.procs i ≠ 0 ∧ (pcbs (c.procs i)).pid = pid)

/-- Mark the entry that was found; leave the CPU if it is the current one.
`dummy` is the uninitialised frame on the stack of `sched_terminate`. -/
def terminateEntry (dummy : RegisterCtx) (sched : CpuSched) : Option ℕ → Call (Kernel σ) Unit
  | some i => do
    setPcb (sched.procs i) fun p => { p with state := .terminated }
    if i = sched.currentPid then do
      let _ ← schedTick A hhdmOffset kernelPagemap cpu (some dummy)
      spinlockRelease cpu
    else spinlockRelease cpu
  | none => spinlockRelease cpu

def schedTerminate (dummy : RegisterCtx) (pid : ℕ) : Call (Kernel σ) Unit := do
  spinlockAcquire cpu
  let sched ← getSched cpu
  let found ← observe fun k => findPid (k.scheds cpu) k.pcbs pid
  terminateEntry A hhdmOffset kernelPagemap cpu dummy sched found

def procExit (dummy : RegisterCtx) (code : ℤ) : Call (Kernel σ) Unit := do
  spinlockAcquire cpu
  let sched ← getSched cpu
  let current := sched.procs sched.currentPid
  if current ≠ 0 then do
    setPcb current fun p => { p with exitCode := code }
    spinlockRelease cpu
    let pcb ← getPcb current
    schedTerminate A hhdmOffset kernelPagemap cpu dummy pcb.pid
    spinlockRelease cpu
  else spinlockRelease cpu

/-- `sched_get_current` on a CPU whose index is in range. -/
def schedGetCurrent (c : CpuSched) : ℕ :=
  if c.count = 0 ∨ c.currentPid ≥ c.count then 0 else c.procs c.currentPid

def findPcb (pid : ℕ) : List ℕ → Call (Kernel σ) ℕ
  | [] => pure 0
  | c::cs => do
    spinlockAcquire c
    let sched ← getSched c
    let found ← observe fun k => findPid (k.scheds c) k.pcbs pid
    match found with
    | some i => do
      spinlockRelease c
      pure (sched.procs i)
    | none => do
      spinlockRelease c
      findPcb pid cs

def schedFindPcb (pid : ℕ) : Call (Kernel σ) ℕ := findPcb pid (List.range maxCpus)

def sysExit (dummy : RegisterCtx) (code : ℤ) : Call (Kernel σ) ℤ := do
  let sched ← getSched cpu
  if schedGetCurrent sched = 0 then pure (-esrch)
  else do
    procExit A hhdmOffset kernelPagemap cpu dummy code
    pure 0

end Emk.Sched
