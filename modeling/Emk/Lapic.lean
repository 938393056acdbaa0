import Emk.Calls
import Emk.Smp

/-!
# The local APIC on the panic path

`sys/apic/lapic.c` and `get_cpu_local` of `arch/smp.c`, as far as a panic
calls them. They panic themselves when something is not set up yet; that call
is a parameter here. What the environment does is part of the state: for how
many reads the command register stays busy, and how long each CPU takes to
answer an interrupt.
-/

set_option autoImplicit false

namespace Emk.Lapic
open Emk.Calls
open Emk.Smp (CpuLocal)

def lapicIdOffset : ℕ := 0x0020
def lapicIcrlo : ℕ := 0x0300
def lapicIcrhi : ℕ := 0x0310

def icrFixed : ℕ := 0x00000000
def icrInit : ℕ := 0x00000500
def icrStartup : ℕ := 0x00000600
def icrPhysical : ℕ := 0x00000000
def icrAssert : ℕ := 0x00004000
def icrEdge : ℕ := 0x00000000
def icrNoShorthand : ℕ := 0x00000000
def icrAllExcludingSelf : ℕ := 0x000C0000
def icrSendPending : ℕ := 0x00001000

/-- The command that has every other CPU run `die`. -/
def dieCommand : ℕ := 0x000C40FE

/-- The globals, with `NULL` for a base that is not set, and the devices.
`kprintfHeld` says that the lock of `kprintf` is held by the CPU that panics,
or by one that the interrupt stops before it gives the lock back. -/
structure Kernel where
  lapicBase : ℕ
  gsBase : Option ℕ
  cpuCount : ℕ
  cpuLocals : ℕ → CpuLocal
  lapicRegs : ℕ → ℕ
  /-- reads of the command register that still find it busy -/
  pending : ℕ
  /-- the same after each command -/
  busy : ℕ
  /-- polls until a CPU has answered -/
  delay : ℕ → ℕ
  kprintfHeld : Bool

inductive Finish where
  | halted
  | spinning
  | fault (address : ℕ)
  deriving DecidableEq

/-- The kernel while a CPU panics, with what it printed and how often it
entered `kpanic`. -/
structure Machine extends Kernel where
  dieSent : Bool := false
  console : List String := []
  entered : ℕ := 0
  finish : Option Finish := none

section Code
variable {α : Type}

def stop (f : Finish) : Call Machine α := fun s => (none, { s with finish := some f })

/-- The arguments are not formatted. -/
def kprintf (text : String) : Call Machine Unit := fun s =>
  if s.kprintfHeld then (none, { s with finish := some .spinning })
  else (some (), { s with console := s.console ++ [text] })

def log (text : String) : Call Machine Unit := kprintf ("[*] " ++ text ++ "\n")

def logEarly (text : String) : Call Machine Unit := log ("early: " ++ text)

def logPanic (text : String) : Call Machine Unit := log ("panic: " ++ text)

/-- Of the command register only the busy bit is ever looked at. -/
def readRegister (offset : ℕ) : Call Machine ℕ := fun s =>
  if offset = lapicIcrlo then
    (some (if s.pending = 0 then 0 else icrSendPending), { s with pending := s.pending-1 })
  else (some (s.lapicRegs offset % 2^32), s)

def writeRegister (offset value : ℕ) : Call Machine Unit := update fun s =>
  if offset = lapicIcrlo then
    { s with pending := s.busy, dieSent := s.dieSent || value == dieCommand }
  else { s with lapicRegs := Function.update s.lapicRegs offset value }

variable (panic : String → Call Machine Unit)

def lapicWrite (offset value : ℕ) : Call Machine Unit := do
  let base ← observe fun s => s.lapicBase
  if base = 0 then do
    logEarly "error: LAPIC not initialized"
    panic "LAPIC write before init"
  else if offset % 16 ≠ 0 then do
    logEarly "error: Misaligned LAPIC offset 0x%x"
    panic "Invalid LAPIC offset"
  else writeRegister offset value

def lapicRead (offset : ℕ) : Call Machine ℕ := do
  let base ← observe fun s => s.lapicBase
  if base = 0 then do
    logEarly "error: LAPIC not initialized"
    pure 0
  else if offset % 16 ≠ 0 then do
    logEarly "error: Misaligned LAPIC offset 0x%x"
    panic "Invalid LAPIC offset"
    never
  else readRegister offset

def lapicGetId : Call Machine ℕ := do
  let base ← observe fun s => s.lapicBase
  if base = 0 then do
    logEarly "error: LAPIC not initialized for ID read"
    panic "LAPIC get_id before init"
    never
  else do
    let value ← lapicRead panic lapicIdOffset
    let id := value >>> 24
    if id > 255 then do
      logEarly "error: Invalid LAPIC ID %u"
      panic "Invalid LAPIC ID"
      never
    else pure id

/-- Wait until the command register is idle. -/
def awaitIdle : ℕ → Call Machine Unit
  | 0 => never
  | fuel+1 => do
    let icr ← lapicRead panic lapicIcrlo
    if icr &&& icrSendPending ≠ 0 then awaitIdle fuel else pure ()

def lapicSendIpi (fuel apicId vector deliveryMode destMode shorthand : ℕ) :
    Call Machine Unit := do
  let base ← observe fun s => s.lapicBase
  if base = 0 then do
    logEarly "error: LAPIC not initialized for IPI"
    panic "LAPIC IPI before init"
  else if vector > 255 ∧ deliveryMode ≠ icrInit ∧ deliveryMode ≠ icrStartup then do
    logEarly "error: Invalid vector 0x%x for IPI"
    panic "Invalid IPI vector"
  else if apicId > 255 ∧ shorthand = icrNoShorthand then do
    logEarly "error: Invalid APIC ID %u for IPI"
    panic "Invalid APIC ID"
  else do
    awaitIdle panic fuel
    lapicWrite panic lapicIcrhi (if shorthand = icrNoShorthand then apicId <<< 24 else 0)
    lapicWrite panic lapicIcrlo
      (vector ||| deliveryMode ||| destMode ||| icrAssert ||| icrEdge ||| shorthand)
    if deliveryMode ≠ icrInit ∧ deliveryMode ≠ icrStartup then awaitIdle panic fuel else pure ()

/-- The record of the CPU with this `lapic_id`. -/
def findCpu (k : Kernel) (lapicId : ℕ) : Option ℕ :=
  (List.range k.cpuCount).find? fun i => decide ((k.cpuLocals i).lapicId = lapicId)

/-- The index of the own record, or `NULL`. -/
def getCpuLocal : Call Machine (Option ℕ) := do
  let cpu ← observe fun s => s.gsBase
  if cpu.isSome then pure cpu
  else do
    let id ← lapicGetId panic
    let found ← observe fun s => findCpu s.toKernel id
    if found.isSome then pure found
    else do
      logEarly "Error: No CPU found with LAPIC ID %u"
      pure none

end Code

/-- What no step of a panic changes. -/
structure Kept (s s' : Machine) : Prop where
  lapicBase : s'.lapicBase = s.lapicBase
  gsBase : s'.gsBase = s.gsBase
  cpuCount : s'.cpuCount = s.cpuCount
  lapicId : ∀ i, (s'.cpuLocals i).lapicId = (s.cpuLocals i).lapicId
  cpuIndex : ∀ i, (s'.cpuLocals i).cpuIndex = (s.cpuLocals i).cpuIndex
  idRegister : s'.lapicRegs lapicIdOffset = s.lapicRegs lapicIdOffset
  kprintfHeld : s'.kprintfHeld = s.kprintfHeld
  busy : s'.busy = s.busy
  entered : s'.entered = s.entered

theorem Kept.refl (s : Machine) : Kept s s :=
  ⟨rfl, rfl, rfl, fun _ => rfl, fun _ => rfl, rfl, rfl, rfl, rfl⟩

theorem Kept.trans {s s' s'' : Machine} (h : Kept s s') (h' : Kept s' s'') : Kept s s'' where
  lapicBase := h'.lapicBase.trans h.lapicBase
  gsBase := h'.gsBase.trans h.gsBase
  cpuCount := h'.cpuCount.trans h.cpuCount
  lapicId := fun i => (h'.lapicId i).trans (h.lapicId i)
  cpuIndex := fun i => (h'.cpuIndex i).trans (h.cpuIndex i)
  idRegister := h'.idRegister.trans h.idRegister
  kprintfHeld := h'.kprintfHeld.trans h.kprintfHeld
  busy := h'.busy.trans h.busy
  entered := h'.entered.trans h.entered

/-- The part of the state that a step may change freely. -/
theorem Kept.rest (s : Machine) {pending : ℕ} {dieSent : Bool} {delay : ℕ → ℕ}
    {console : List String} {finish : Option Finish} :
    Kept s { s with
      pending := pending
      dieSent := dieSent
      delay := delay
      console := console
      finish := finish } :=
  ⟨rfl, rfl, rfl, fun _ => rfl, fun _ => rfl, rfl, rfl, rfl, rfl⟩

theorem Kept.set {s s' : Machine} (h : Kept s s') (hb : s.lapicBase ≠ 0) : s'.lapicBase ≠ 0 :=
  h.lapicBase.symm ▸ hb

/-- Once the local APIC is set up the call enters no panic, and it does not
end in the final halt. -/
def Steady {α : Type} (c : Call Machine α) : Prop :=
  ∀ s : Machine, s.lapicBase ≠ 0 → s.finish = none → Kept s (c s).2 ∧
    ((c s).1.isSome → (c s).2.finish = none) ∧ (c s).2.finish ≠ some .halted

section Rules
variable {α β : Type}

theorem Steady.bind {c : Call Machine α} {f : α → Call Machine β} (hc : Steady c)
    (hf : ∀ a, Steady (f a)) : Steady (c >>= f) := by
  intro s hb hs
  obtain ⟨hk, hret, hne⟩ := hc s hb hs
  rw [bind_apply]
  rcases hcs : c s with ⟨_ | a, s₁⟩
  · rw [hcs] at hk hne
    exact ⟨hk, fun h => absurd h (by simp), hne⟩
  · rw [hcs] at hk hret
    obtain ⟨hk', hret', hne'⟩ := hf a s₁ (hk.set hb) (hret rfl)
    exact ⟨hk.trans hk', hret', hne'⟩

theorem Steady.ite {p : Prop} [Decidable p] {c c' : Call Machine α} (h : Steady c)
    (h' : Steady c') : Steady (if p then c else c') := by
  split_ifs
  · exact h
  · exact h'

theorem steady_pure (a : α) : Steady (pure a : Call Machine α) :=
  fun s _ hs => ⟨.refl s, fun _ => hs, by rw [pure_apply]; simp [hs]⟩

theorem steady_observe (f : Machine → α) : Steady (observe f) :=
  fun s _ hs => ⟨.refl s, fun _ => hs, by simp [observe, hs]⟩

theorem steady_never : Steady (never : Call Machine α) :=
  fun s _ hs => ⟨.refl s, fun _ => hs, by simp [never, hs]⟩

theorem steady_stop {f : Finish} (hf : f ≠ .halted) : Steady (stop f : Call Machine α) :=
  fun s _ _ => ⟨.rest s, fun h => absurd h (by simp [stop]), by simpa [stop] using hf⟩

theorem steady_kprintf (text : String) : Steady (kprintf text) := by
  intro s _ hs
  rw [kprintf]
  split_ifs
  · exact ⟨.rest s, fun h => absurd h (by simp), by simp⟩
  · exact ⟨.rest s, fun _ => hs, by simp [hs]⟩

theorem steady_logEarly (text : String) : Steady (logEarly text) := steady_kprintf _

theorem steady_logPanic (text : String) : Steady (logPanic text) := steady_kprintf _

theorem steady_update {g : Machine → Machine} (hk : ∀ s, Kept s (g s))
    (hf : ∀ s, (g s).finish = s.finish) : Steady (update g) := by
  intro s _ hs
  refine ⟨hk s, fun _ => (hf s).trans hs, ?_⟩
  rw [update, hf, hs]
  simp

theorem Steady.returned {c : Call Machine α} (hc : Steady c) {s s' : Machine} {a : α}
    (hb : s.lapicBase ≠ 0) (hs : s.finish = none) (h : c s = (some a, s')) :
    Kept s s' ∧ s'.finish = none := by
  obtain ⟨hkept, hret, -⟩ := hc s hb hs
  rw [h] at hkept hret
  exact ⟨hkept, hret rfl⟩

/-- What ran before a call that ends in the final halt. -/
theorem Steady.passed {c : Call Machine α} {f : α → Call Machine β} (hc : Steady c) {s : Machine}
    (hb : s.lapicBase ≠ 0) (hs : s.finish = none)
    (h : ((c >>= f) s).2.finish = some .halted) :
    ∃ a s₁, c s = (some a, s₁) ∧ Kept s s₁ ∧ s₁.finish = none ∧
      (f a s₁).2.finish = some .halted := by
  obtain ⟨hk, hret, hne⟩ := hc s hb hs
  rw [bind_apply] at h
  rcases hcs : c s with ⟨_ | a, s₁⟩
  · rw [hcs] at h hne
    exact absurd h hne
  · rw [hcs] at h hk hret
    exact ⟨a, s₁, rfl, hk, hret rfl, h⟩

end Rules

section Values
variable {panic : String → Call Machine Unit} {s : Machine} {offset value fuel : ℕ}

theorem lapicRead_apply (hb : s.lapicBase ≠ 0) (ha : offset % 16 = 0) :
    lapicRead panic offset s = readRegister offset s := by
  rw [lapicRead, observe_bind, if_neg hb, if_neg (not_not.mpr ha)]

theorem lapicWrite_apply (hb : s.lapicBase ≠ 0) (ha : offset % 16 = 0) :
    lapicWrite panic offset value s = writeRegister offset value s := by
  rw [lapicWrite, observe_bind, if_neg hb, if_neg (not_not.mpr ha)]

/-- The `lapic_id` of the CPU that runs. -/
def ownId (k : Kernel) : ℕ := (k.lapicRegs lapicIdOffset % 2^32) >>> 24

theorem ownId_le (k : Kernel) : ownId k ≤ 255 := by
  rw [ownId, Nat.shiftRight_eq_div_pow]
  omega

theorem lapicGetId_apply (hb : s.lapicBase ≠ 0) :
    lapicGetId panic s = (some (ownId s.toKernel), s) := by
  have hread : lapicRead panic lapicIdOffset s =
      (some (s.lapicRegs lapicIdOffset % 2^32), s) := by
    rw [lapicRead_apply hb (by decide), readRegister, if_neg (by decide)]
  rw [lapicGetId, observe_bind, if_neg hb, bind_of_returned hread]
  exact congrFun (if_neg (not_lt.mpr (ownId_le s.toKernel))) s

/-- The record that `get_cpu_local` finds. -/
def localCpu (k : Kernel) : Option ℕ :=
  if k.gsBase.isSome then k.gsBase else findCpu k (ownId k)

theorem localCpu_isSome_iff (k : Kernel) :
    (localCpu k).isSome ↔
      k.gsBase.isSome ∨ ∃ i < k.cpuCount, (k.cpuLocals i).lapicId = ownId k := by
  rw [localCpu]
  split_ifs with h
  · simp [h]
  · rw [findCpu, List.find?_isSome]
    simp [h]

theorem Kept.localCpu {s' : Machine} (h : Kept s s') :
    localCpu s'.toKernel = localCpu s.toKernel := by
  rw [Lapic.localCpu, Lapic.localCpu, findCpu, findCpu, ownId, ownId, h.gsBase, h.cpuCount,
    h.idRegister]
  simp only [h.lapicId]

theorem getCpuLocal_found (hb : s.lapicBase ≠ 0) {i : ℕ} (h : localCpu s.toKernel = some i) :
    getCpuLocal panic s = (some (some i), s) := by
  rw [localCpu] at h
  rw [getCpuLocal, observe_bind]
  split_ifs at h ⊢ with hgs
  · rw [h]
    rfl
  · rw [bind_of_returned (lapicGetId_apply hb), observe_bind, h]
    rfl

theorem getCpuLocal_lost (hb : s.lapicBase ≠ 0) (h : localCpu s.toKernel = none) :
    getCpuLocal panic s = (logEarly "Error: No CPU found with LAPIC ID %u" >>= fun _ =>
      pure none) s := by
  rw [localCpu] at h
  rw [getCpuLocal, observe_bind]
  split_ifs at h ⊢ with hgs
  · rw [h] at hgs
    exact absurd hgs (by simp)
  · rw [bind_of_returned (lapicGetId_apply hb), observe_bind, h]
    rfl

theorem steady_getCpuLocal : Steady (getCpuLocal panic) := by
  intro s hb hs
  cases h : localCpu s.toKernel with
  | none =>
    rw [getCpuLocal_lost hb h]
    exact (steady_logEarly _).bind (fun _ => steady_pure none) s hb hs
  | some i =>
    rw [getCpuLocal_found hb h]
    exact steady_pure (some i) s hb hs

theorem steady_awaitIdle (fuel : ℕ) : Steady (awaitIdle panic fuel) := by
  induction fuel with
  | zero => exact steady_never
  | succ fuel ih =>
    have hread : Steady (lapicRead panic lapicIcrlo) := by
      intro s hb hs
      rw [lapicRead_apply hb (by decide), readRegister, if_pos rfl]
      exact ⟨.rest s, fun _ => hs, by simp [hs]⟩
    exact hread.bind (fun _ => Steady.ite ih (steady_pure ()))

theorem awaitIdle_returns (hb : s.lapicBase ≠ 0) (hfuel : s.pending < fuel) :
    awaitIdle panic fuel s = (some (), { s with pending := 0 }) := by
  induction fuel generalizing s with
  | zero => exact absurd hfuel (Nat.not_lt_zero _)
  | succ fuel ih =>
    have hread : lapicRead panic lapicIcrlo s =
        (some (if s.pending = 0 then 0 else icrSendPending),
          { s with pending := s.pending-1 }) := by
      rw [lapicRead_apply hb (by decide), readRegister, if_pos rfl]
    rw [awaitIdle, bind_of_returned hread]
    by_cases h0 : s.pending = 0
    · rw [if_pos h0, if_neg (by decide), h0]
      rfl
    · rw [if_neg h0, if_pos (by decide)]
      exact ih hb (show s.pending-1 < fuel by omega)

theorem steady_lapicWrite (ha : offset % 16 = 0) (hid : offset ≠ lapicIdOffset) :
    Steady (lapicWrite panic offset value) := by
  intro s hb hs
  rw [lapicWrite_apply hb ha]
  refine steady_update (fun t => ?_) (fun t => ?_) s hb hs
  · split_ifs
    · exact .rest t
    · exact ⟨rfl, rfl, rfl, fun _ => rfl, fun _ => rfl,
        Function.update_of_ne hid.symm _ _, rfl, rfl, rfl⟩
  · split_ifs <;> rfl

variable (panic fuel) in
/-- The command that `kpanic` sends. -/
abbrev sendDie : Call Machine Unit :=
  lapicSendIpi panic fuel 0 0xFE icrFixed icrPhysical icrAllExcludingSelf

theorem sendDie_eq (hb : s.lapicBase ≠ 0) :
    sendDie panic fuel s = (awaitIdle panic fuel >>= fun _ => lapicWrite panic lapicIcrhi 0 >>=
      fun _ => lapicWrite panic lapicIcrlo dieCommand >>= fun _ => awaitIdle panic fuel) s := by
  rw [sendDie, lapicSendIpi, observe_bind, if_neg hb, if_neg (by decide), if_neg (by decide)]
  rfl

/-- The way to the endless recursion. -/
theorem sendDie_unset (hb : s.lapicBase = 0) :
    sendDie panic fuel s = (logEarly "error: LAPIC not initialized for IPI" >>= fun _ =>
      panic "LAPIC IPI before init") s := by
  rw [sendDie, lapicSendIpi, observe_bind, if_pos hb]

theorem steady_sendDie : Steady (sendDie panic fuel) := by
  intro s hb hs
  rw [sendDie_eq hb]
  refine (steady_awaitIdle fuel).bind (fun _ => (steady_lapicWrite ?_ ?_).bind (fun _ =>
    (steady_lapicWrite ?_ ?_).bind (fun _ => steady_awaitIdle fuel))) s hb hs
  all_goals decide

theorem lapicWrite_command (hb : s.lapicBase ≠ 0) :
    lapicWrite panic lapicIcrlo dieCommand s =
      (some (), { s with pending := s.busy, dieSent := true }) := by
  rw [lapicWrite_apply hb (by decide), writeRegister, update, if_pos rfl]
  simp

theorem lapicWrite_other (hb : s.lapicBase ≠ 0) (ha : offset % 16 = 0) (hne : offset ≠ lapicIcrlo) :
    lapicWrite panic offset value s =
      (some (), { s with lapicRegs := Function.update s.lapicRegs offset value }) := by
  rw [lapicWrite_apply hb ha, writeRegister, update, if_neg hne]

variable (panic) in
/-- Once the register becomes idle after each command, the command is sent. -/
theorem sendDie_returns (hb : s.lapicBase ≠ 0) (hpending : s.pending < fuel)
    (hbusy : s.busy < fuel) :
    ∃ s', sendDie panic fuel s = (some (), s') ∧ s'.dieSent = true ∧ s'.delay = s.delay := by
  let idle : Machine := { s with pending := 0 }
  let high : Machine := { idle with lapicRegs := Function.update idle.lapicRegs lapicIcrhi 0 }
  let sent : Machine := { high with pending := s.busy, dieSent := true }
  have hidle : awaitIdle panic fuel s = (some (), idle) := awaitIdle_returns hb hpending
  have hhigh : lapicWrite panic lapicIcrhi 0 idle = (some (), high) :=
    lapicWrite_other hb (by decide) (by decide)
  have hsent : lapicWrite panic lapicIcrlo dieCommand high = (some (), sent) :=
    lapicWrite_command hb
  have hlast : awaitIdle panic fuel sent = (some (), { sent with pending := 0 }) :=
    awaitIdle_returns hb hbusy
  rw [sendDie_eq hb, bind_of_returned hidle, bind_of_returned hhigh, bind_of_returned hsent,
    hlast]
  exact ⟨_, rfl, rfl, rfl⟩

end Values

end Emk.Lapic
