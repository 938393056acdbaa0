import Mathlib.Data.Set.Function
import Emk.LastWrite
import Emk.MachineWord
import Emk.Transition

/-!
# The interrupt descriptor table

`arch/idt.c`: the gates that the processor reads and the table of handlers
that the assembly stubs look into. Functions are known by their addresses,
which the linker chooses; `NULL` is zero.
-/

set_option autoImplicit false

namespace Emk.Idt
open Emk.LastWrite Emk.MachineWord Emk.Transition

def idtInterruptGate : ℕ := 0x8E
def idtTrapGate : ℕ := 0x8F
def gdtAccessRing3 : ℕ := 0x60

structure IdtEntry where
  offLow : ℕ := 0
  sel : ℕ := 0
  ist : ℕ := 0
  attr : ℕ := 0
  offMid : ℕ := 0
  offHigh : ℕ := 0
  zero : ℕ := 0
  deriving DecidableEq, Repr

/-- `idt_descriptor` and `real_handlers`, both zero at the start. -/
structure Tables where
  descriptor : ℕ → IdtEntry := fun _ => {}
  realHandlers : ℕ → ℕ := fun _ => 0

/-- The addresses of the assembly stubs and of the handlers in C. -/
structure Symbols where
  stubs : ℕ → ℕ
  defaultHandler : ℕ
  syscallHandler : ℕ
  die : ℕ

/-- The base address is split over three fields. -/
def gateEntry (base flags : ℕ) : IdtEntry where
  offLow := base &&& 0xFFFF
  sel := 0x8
  ist := 0
  attr := flags
  offMid := base >>> 16 &&& 0xFFFF
  offHigh := base >>> 32 &&& 0xFFFFFFFF
  zero := 0

def idtSetGate (interrupt base flags : ℕ) (t : Tables) : Tables :=
  { t with descriptor := Function.update t.descriptor interrupt (gateEntry base flags) }

def setHandler (vector handler : ℕ) (t : Tables) : Tables :=
  { t with realHandlers := Function.update t.realHandlers vector handler }

@[simp] theorem setHandler_descriptor (vector handler : ℕ) (t : Tables) :
    (setHandler vector handler t).descriptor = t.descriptor := rfl

@[simp] theorem setHandler_realHandlers (vector handler : ℕ) (t : Tables) :
    (setHandler vector handler t).realHandlers = Function.update t.realHandlers vector handler :=
  rfl

variable (sym : Symbols)

def idtInit (t : Tables) : Tables :=
  let t := (List.range 32).foldl (fun t i =>
    setHandler i sym.defaultHandler (idtSetGate i (sym.stubs i) idtTrapGate t)) t
  let t := (List.range' 32 224).foldl (fun t i =>
    idtSetGate i (sym.stubs i) idtInterruptGate t) t
  let t := setHandler 0x80 sym.syscallHandler
    (idtSetGate 0x80 (sym.stubs 0x80) (idtInterruptGate ||| gdtAccessRing3) t)
  setHandler 0xFE sym.die (idtSetGate 0xFE (sym.stubs 0xFE) idtTrapGate t)

/-- The value returned is 1 when the handler was not taken. -/
def idtRegisterHandler (vector handler : ℕ) (t : Tables) : ℕ × Tables :=
  if vector ≥ 256 ∨ handler = 0 then (1, t) else (0, setHandler vector handler t)

/-- Every CPU runs `idt_init` when it starts, on the same tables. -/
inductive Op where
  | init
  | register (vector handler : ℕ)
  deriving DecidableEq

def step (t : Tables) : Op → Tables
  | .init => idtInit sym t
  | .register vector handler => (idtRegisterHandler vector handler t).2

/-- A gate as the processor sees it. -/
structure Gate where
  offset : ℕ
  selector : ℕ
  ist : ℕ
  /-- interrupts stay enabled while the handler runs -/
  trap : Bool
  dpl : ℕ
  present : Bool
  deriving DecidableEq, Repr

/-- The two words of a packed entry. -/
def IdtEntry.words (e : IdtEntry) : ℕ × ℕ :=
  (e.offLow+2^16*e.sel+2^32*e.ist+2^40*e.attr+2^48*e.offMid, e.offHigh+2^32*e.zero)

/-- How the processor takes a gate apart. -/
def readGate (w : ℕ × ℕ) : Option Gate :=
  let kind := w.1 / 2^40 % 2^5
  if kind = 0xE ∨ kind = 0xF then some
    { offset := w.1 % 2^16+2^16*(w.1 / 2^48 % 2^16)+2^32*(w.2 % 2^32)
      selector := w.1 / 2^16 % 2^16
      ist := w.1 / 2^32 % 2^3
      trap := decide (kind = 0xF)
      dpl := w.1 / 2^45 % 2^2
      present := decide (w.1 / 2^47 % 2 = 1) }
  else none

/-- What `idt_init` sets up for a vector. -/
def gateOf (vector : ℕ) : Gate where
  offset := sym.stubs vector
  selector := 0x8
  ist := 0
  trap := decide (vector < 32 ∨ vector = 0xFE)
  dpl := if vector = 0x80 then 3 else 0
  present := true

/-- The entries of `real_handlers` that an operation writes, in order. -/
def writes : Op → List (ℕ × ℕ)
  | .init => (List.range 32).map (fun i => (i, sym.defaultHandler)) ++
      [(0x80, sym.syscallHandler), (0xFE, sym.die)]
  | .register vector handler => if vector ≥ 256 ∨ handler = 0 then [] else [(vector, handler)]

/-- The handler that the writes leave for a vector. -/
def handlerOf (vector : ℕ) (ops : List Op) : ℕ :=
  ((lastWrite Prod.fst vector (ops.flatMap (writes sym))).map Prod.snd).getD 0

section Gates
variable {sym}

/-- An address survives being split over the fields of an entry. -/
theorem readGate_gateEntry {base flags : ℕ} (hbase : base < 2^64)
    (hkind : flags % 2^5 = 0xE ∨ flags % 2^5 = 0xF) (hflags : flags < 2^8) :
    readGate (gateEntry base flags).words = some
      { offset := base, selector := 0x8, ist := 0, trap := decide (flags % 2^5 = 0xF)
        dpl := flags / 2^5 % 2^2, present := decide (flags / 2^7 = 1) } := by
  have hlow : base &&& 0xFFFF = base % 2^16 := Nat.and_two_pow_sub_one_eq_mod base 16
  have hmid : base >>> 16 &&& 0xFFFF = base / 2^16 % 2^16 := by
    rw [Nat.shiftRight_eq_div_pow]
    exact Nat.and_two_pow_sub_one_eq_mod _ 16
  have hhigh : base >>> 32 &&& 0xFFFFFFFF = base / 2^32 % 2^32 := by
    rw [Nat.shiftRight_eq_div_pow]
    exact Nat.and_two_pow_sub_one_eq_mod _ 32
  have hsplit : base = base % 2^16+2^16*(base / 2^16 % 2^16)+2^32*(base / 2^32 % 2^32) := by omega
  have ha := Nat.mod_lt base (show 0 < 2^16 by decide)
  have hb := Nat.mod_lt (base / 2^16) (show 0 < 2^16 by decide)
  have hc := Nat.mod_lt (base / 2^32) (show 0 < 2^32 by decide)
  rw [gateEntry, hlow, hmid, hhigh, IdtEntry.words, readGate]
  generalize base % 2^16 = a at *
  generalize base / 2^16 % 2^16 = b at *
  generalize base / 2^32 % 2^32 = c at *
  dsimp only
  obtain ⟨lo, hlo⟩ : ∃ lo, lo = a+2^16*0x8+2^32*0+2^40*flags+2^48*b := ⟨_, rfl⟩
  rw [← hlo]
  have hattr : lo / 2^40 = flags+2^8*b := by omega
  have hk : lo / 2^40 % 2^5 = flags % 2^5 := by omega
  have hsel : lo / 2^16 % 2^16 = 0x8 := by omega
  have hist : lo / 2^32 % 2^3 = 0 := by omega
  have hdpl : lo / 2^45 % 2^2 = flags / 2^5 % 2^2 := by
    rw [show 2^45 = 2^40*2^5 by rfl, ← Nat.div_div_eq_div_mul, hattr]
    omega
  have hpresent : lo / 2^47 % 2 = flags / 2^7 := by
    rw [show 2^47 = 2^40*2^7 by rfl, ← Nat.div_div_eq_div_mul, hattr]
    omega
  have hmid' : lo / 2^48 % 2^16 = b := by
    rw [show 2^48 = 2^40*2^8 by rfl, ← Nat.div_div_eq_div_mul, hattr,
      Nat.add_mul_div_left _ _ (by decide), Nat.div_eq_of_lt hflags, Nat.zero_add,
      Nat.mod_eq_of_lt hb]
  have hoff : lo % 2^16+2^16*(lo / 2^48 % 2^16)+2^32*((c+2^32*0) % 2^32) = base := by
    rw [show lo % 2^16 = a by omega, hmid',
      show (c+2^32*0) % 2^32 = c by omega, ← hsplit]
  rw [hk, if_pos hkind, hsel, hist, hdpl, hpresent, hoff]

theorem setGates_descriptor (g : Tables → ℕ → Tables) (b : ℕ → ℕ) (flags : ℕ) (l : List ℕ)
    (hg : ∀ t i, (g t i).descriptor = (idtSetGate i (b i) flags t).descriptor) (t : Tables)
    (v : ℕ) :
    (l.foldl g t).descriptor v = if v ∈ l then gateEntry (b v) flags else t.descriptor v := by
  induction l generalizing t with
  | nil => rfl
  | cons i l ih =>
    rw [List.foldl_cons, ih, hg]
    change (if v ∈ l then _ else Function.update t.descriptor i (gateEntry (b i) flags) v) = _
    by_cases hv : v ∈ l
    · rw [if_pos hv, if_pos (List.mem_cons_of_mem _ hv)]
    · by_cases hi : v = i
      · rw [if_neg hv, hi, Function.update_self, if_pos List.mem_cons_self]
      · rw [if_neg hv, Function.update_of_ne hi, if_neg (by simp [hi, hv])]

/-- The flags of the gate of a vector. -/
def flagsOf (vector : ℕ) : ℕ :=
  if vector = 0x80 then 0xEE else if vector < 32 ∨ vector = 0xFE then 0x8F else 0x8E

theorem idtInit_descriptor (t : Tables) {v : ℕ} (hv : v < 256) :
    (idtInit sym t).descriptor v = gateEntry (sym.stubs v) (flagsOf v) := by
  rw [flagsOf]
  change Function.update (Function.update _ 0x80 _) 0xFE _ v = _
  by_cases hdie : v = 0xFE
  · rw [hdie, Function.update_self]
    rfl
  rw [Function.update_of_ne hdie]
  by_cases hsys : v = 0x80
  · rw [hsys, Function.update_self]
    rfl
  rw [Function.update_of_ne hsys, if_neg hsys,
    setGates_descriptor _ sym.stubs idtInterruptGate _ (fun _ _ => rfl),
    setGates_descriptor (fun t i => setHandler i sym.defaultHandler
      (idtSetGate i (sym.stubs i) idtTrapGate t)) sym.stubs idtTrapGate _ (fun _ _ => rfl)]
  by_cases hlow : v < 32
  · rw [if_neg (by rw [List.mem_range'_1]; omega), if_pos (List.mem_range.mpr hlow),
      if_pos (.inl hlow)]
    rfl
  · rw [if_pos (by rw [List.mem_range'_1]; omega), if_neg (by omega)]
    rfl

theorem readGate_flagsOf (v : ℕ) (hstub : sym.stubs v < 2^64) :
    readGate (gateEntry (sym.stubs v) (flagsOf v)).words = some (gateOf sym v) := by
  have hcases : flagsOf v = 0xEE ∧ v = 0x80 ∨
      flagsOf v = 0x8F ∧ v ≠ 0x80 ∧ (v < 32 ∨ v = 0xFE) ∨
      flagsOf v = 0x8E ∧ v ≠ 0x80 ∧ ¬ (v < 32 ∨ v = 0xFE) := by
    rw [flagsOf]
    split_ifs with h h'
    · exact .inl ⟨rfl, h⟩
    · exact .inr (.inl ⟨rfl, h, h'⟩)
    · exact .inr (.inr ⟨rfl, h, h'⟩)
  rcases hcases with ⟨h, hv⟩ | ⟨h, hv, ht⟩ | ⟨h, hv, ht⟩
  · rw [h, readGate_gateEntry hstub (by decide) (by decide), gateOf, if_pos hv, hv]
    rfl
  · rw [h, readGate_gateEntry hstub (by decide) (by decide), gateOf, if_neg hv, decide_eq_true ht]
    rfl
  · rw [h, readGate_gateEntry hstub (by decide) (by decide), gateOf, if_neg hv, decide_eq_false ht]
    rfl

end Gates

section Handlers
variable {sym}

theorem step_realHandlers (t : Tables) (o : Op) :
    (step sym t o).realHandlers =
      (writes sym o).foldl (fun h w => Function.update h w.1 w.2) t.realHandlers := by
  cases o with
  | init =>
    have hlow : ∀ (l : List ℕ) (t : Tables), (l.foldl (fun t i => setHandler i sym.defaultHandler
        (idtSetGate i (sym.stubs i) idtTrapGate t)) t).realHandlers =
        l.foldl (fun h i => Function.update h i sym.defaultHandler) t.realHandlers := by
      intro l t
      induction l generalizing t with
      | nil => rfl
      | cons i l ih => exact ih _
    have hhigh : ∀ (l : List ℕ) (t : Tables), (l.foldl (fun t i =>
        idtSetGate i (sym.stubs i) idtInterruptGate t) t).realHandlers = t.realHandlers := by
      intro l t
      induction l generalizing t with
      | nil => rfl
      | cons i l ih => exact ih _
    rw [step, idtInit, writes, List.foldl_append, List.foldl_map, setHandler, idtSetGate,
      setHandler, idtSetGate]
    dsimp only
    rw [hhigh, hlow]
    rfl
  | register vector handler =>
    rw [step, idtRegisterHandler, writes]
    split_ifs
    · rfl
    · rfl

end Handlers

section Runs
variable {sym}

theorem handlers_run (ops : List Op) (t : Tables) : (run (step sym) t ops).realHandlers =
    (ops.flatMap (writes sym)).foldl (fun h w => Function.update h w.1 w.2) t.realHandlers := by
  induction ops generalizing t with
  | nil => rfl
  | cons o ops ih => rw [run, ih, step_realHandlers, List.flatMap_cons, List.foldl_append]

/-- Registering a handler touches no gate. -/
theorem gate_run (ops : List Op) {v : ℕ} (hv : v < 256) {t : Tables}
    (h : t.descriptor v = gateEntry (sym.stubs v) (flagsOf v)) :
    (run (step sym) t ops).descriptor v = gateEntry (sym.stubs v) (flagsOf v) := by
  induction ops generalizing t with
  | nil => exact h
  | cons o ops ih =>
    refine ih ?_
    cases o with
    | init => exact idtInit_descriptor t hv
    | register vector handler =>
      rw [step, idtRegisterHandler]
      split_ifs
      · exact h
      · exact h

end Runs

theorem gates_after (hstubs : ∀ v < 256, sym.stubs v < 2^64) (ops : List Op) (v : ℕ)
    (hv : v < 256) :
    readGate ((run (step sym) {} (.init::ops)).descriptor v).words = some (gateOf sym v) := by
  rw [run, step, gate_run ops hv (idtInit_descriptor {} hv)]
  exact readGate_flagsOf v (hstubs v hv)

/-- After `idt_init` and any further calls, on any CPU, every gate leads to the
stub of its vector, only the gate of system calls is open to user code, and
each entry of `real_handlers` holds what was written to it last. -/
theorem tables_after (hstubs : ∀ v < 256, sym.stubs v < 2^64) (ops : List Op) (v : ℕ)
    (hv : v < 256) :
    let t := run (step sym) {} (.init::ops)
    readGate (t.descriptor v).words = some (gateOf sym v) ∧
      t.realHandlers v = handlerOf sym v (.init::ops) := by
  refine ⟨gates_after sym hstubs ops v hv, ?_⟩
  rw [handlers_run, foldl_update, handlerOf]

/-- Stubs of sixteen bytes each. -/
def smallSymbols : Symbols := ⟨fun v => 0x1000+16*v, 0x100, 0x200, 0x300⟩

theorem smallSymbols_stubs : ∀ v < 256, smallSymbols.stubs v < 2^64 := by
  intro v hv
  change 0x1000+16*v < 2^64
  omega

theorem smallSymbols_inj : Set.InjOn smallSymbols.stubs {v | v < 256} := by
  intro u _ v _ h
  change 0x1000+16*u = 0x1000+16*v at h
  omega

/-- Another CPU runs `idt_init` after the timer has registered its handler. -/
theorem tables_after_timer :
    let t := run (step smallSymbols) {} [.init, .register 32 0x400, .register 256 0x500, .init]
    readGate (t.descriptor 32).words = some ⟨0x1200, 0x8, 0, false, 0, true⟩ ∧
      t.realHandlers 32 = 0x400 := by
  have h := tables_after smallSymbols smallSymbols_stubs
    [.register 32 0x400, .register 256 0x500, .init] 32 (by decide)
  rwa [show handlerOf smallSymbols 32 (.init::[.register 32 0x400, .register 256 0x500, .init]) =
    0x400 by decide +kernel] at h

end Emk.Idt
