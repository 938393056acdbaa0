import Emk.Sched
import Emk.Transition

/-!
# Bringing up the CPUs

`arch/smp.c`. The bootstrap processor wakes the other CPUs one after the other
and waits for the ready flag of each; a CPU that is up sets its flag and then
counts itself. The processors take atomic steps in any order. What `init_cpu`
does is not part of the state, since it touches neither the flags nor the
counter.
-/

set_option autoImplicit false

namespace Emk.Smp
open Emk.Sched (maxCpus)

def cpuStartTimeout : ℕ := 10000000

structure CpuLocal where
  lapicId : ℕ := 0
  cpuIndex : ℕ := 0
  ready : Bool := false
  deriving DecidableEq, Repr

/-- The boot loader's answer, with the `lapic_id` of each CPU. -/
structure MpResponse where
  cpuCount : ℕ
  bspLapicId : ℕ
  lapicId : ℕ → ℕ

/-- Where the bootstrap processor is in `smp_init`. -/
inductive Bsp where
  | loop (i : ℕ)
  | own (i : ℕ)
  | count (i : ℕ)
  | poll (i timeout : ℕ)
  | recheck (i : ℕ)
  | compare
  | returned
  | panicked
  deriving DecidableEq, Repr

/-- Where another processor is in `smp_entry`, with the index it has found. -/
inductive Ap where
  | parked
  | entered (cpu : ℕ)
  | published (cpu : ℕ)
  | running (cpu : ℕ)
  | panicked
  deriving DecidableEq, Repr

/-- `gotoAddress` says whether the address of `smp_entry` was stored. -/
structure World where
  cpuCount : ℕ := 0
  bootstrapLapicId : ℕ := 0
  startedCpus : ℕ := 0
  cpuLocals : ℕ → CpuLocal := fun _ => {}
  gotoAddress : ℕ → Bool := fun _ => false
  bsp : Bsp := .loop 0
  aps : ℕ → Ap := fun _ => .parked

/-- `smp_early_init`; the result is `none` when it panics. -/
def smpEarlyInit (w : World) : Option MpResponse → Option World
  | none => none
  | some mp =>
    if mp.cpuCount > maxCpus then none
    else some { w with
      cpuCount := mp.cpuCount
      bootstrapLapicId := mp.bspLapicId
      cpuLocals := fun i => if i < mp.cpuCount then ⟨mp.lapicId i, i, false⟩ else w.cpuLocals i }

def World.setReady (w : World) (i : ℕ) : World :=
  { w with cpuLocals := Function.update w.cpuLocals i { w.cpuLocals i with ready := true } }

/-- `atomic_fetch_add(&started_cpus, 1)` -/
def World.increment (w : World) : World :=
  { w with startedCpus := (w.startedCpus+1) % 2^32 }

def World.ready (w : World) (i : ℕ) : Bool := (w.cpuLocals i).ready

def World.goto (w : World) (pc : Bsp) : World := { w with bsp := pc }

def World.setAp (w : World) (j : ℕ) (a : Ap) : World :=
  { w with aps := Function.update w.aps j a }

variable (mp : MpResponse)

/-- One step of the bootstrap processor in `smp_init`. -/
def bspStep (w : World) : World :=
  match w.bsp with
  | .loop i =>
    if i < w.cpuCount then
      if mp.lapicId i = w.bootstrapLapicId then w.goto (.own i)
      else { w.goto (.poll i 0) with gotoAddress := Function.update w.gotoAddress i true }
    else w.goto .compare
  | .own i => (w.setReady i).goto (.count i)
  | .count i => w.increment.goto (.loop (i+1))
  | .poll i timeout =>
    if w.ready i = false ∧ timeout < cpuStartTimeout then w.goto (.poll i (timeout+1))
    else w.goto (.recheck i)
  | .recheck i => if w.ready i = false then w.goto .panicked else w.goto (.loop (i+1))
  | .compare => if w.startedCpus ≠ w.cpuCount then w.goto .panicked else w.goto .returned
  | .returned => w
  | .panicked => w

/-- The search for the own `lapic_id` in `smp_entry`. -/
def findCpu (w : World) (lapicId : ℕ) : Option ℕ :=
  (List.range w.cpuCount).find? fun i => decide ((w.cpuLocals i).lapicId = lapicId)

/-- One step of the processor that `cpus[j]` describes. -/
def apStep (j : ℕ) (w : World) : World :=
  match w.aps j with
  | .parked =>
    if w.gotoAddress j = true then
      match findCpu w (mp.lapicId j) with
      | some i => w.setAp j (.entered i)
      | none => w.setAp j .panicked
    else w
  | .entered i => (w.setReady i).setAp j (.published i)
  | .published i => w.increment.setAp j (.running i)
  | .running _ => w
  | .panicked => w

inductive Actor where
  | bsp
  | ap (j : ℕ)
  deriving DecidableEq, Repr

def step (w : World) : Actor → World
  | .bsp => bspStep mp w
  | .ap j => apStep mp j w

end Emk.Smp
