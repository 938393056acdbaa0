import Emk.DirectMap
import Emk.Idt
import Emk.Ioapic

/-!
# From the timer's pin to its handler

`ioapic_init`, `dev/timer/pit.c` and the calls of `emk_entry` that route
interrupts. When the CPUs are up, one pin of the I/O APIC can interrupt, and
its vector leads to the handler of the timer.
-/

set_option autoImplicit false

namespace Emk.TimerBoot
open Emk.Calls Emk.DirectMap Emk.Idt Emk.Ioapic

def pitVector : ℕ := 32
def pitDivisor : ℕ := 5966

/-- What the firmware tables, the page tables and the linker say. The first
argument of `vmap` is the virtual address. -/
structure Config where
  hhdmOffset : ℕ
  ioapicAddrs : List ℕ
  vmap : ℕ → ℕ → ℤ
  /-- of the CPU that boots -/
  lapicId : ℕ
  broadcastPit : Bool
  sym : Symbols
  pitHandler : ℕ
  tick : ℕ

/-- The interrupt tables, the I/O APIC, the timer's variables and what was
written to the ports. -/
structure Machine where
  ioapic : Ioapic.State
  idt : Tables
  pitCallback : ℕ := 0
  tapiEnabled : Bool := false
  ports : List (ℕ × ℕ) := []

section Ioapic
variable (C : Config)

/-- The vector of a pin; the spurious one is passed over. -/
def pinVector (gsi : ℕ) : ℕ := if ((32+gsi : ℕ) : ℤ) = lapicSpuriousVector then 32+gsi+1 else 32+gsi

def initEntry (gsi : ℕ) : Call Ioapic.State Unit := do
  ioapicWrite (ioapicIdxRedTbl+2*gsi) (redtbleLo 0 (pinVector gsi))
  ioapicWrite (ioapicIdxRedTbl+2*gsi+1) ((C.lapicId <<< 24) % 2^32)

def initEntries : List ℕ → Call Ioapic.State Unit
  | [] => pure ()
  | gsi::gsis => do
    initEntry C gsi
    initEntries gsis

def ioapicInit : Call Ioapic.State Unit :=
  match C.ioapicAddrs with
  | [] => kpanic "No IOAPIC available"
  | phys::_ =>
    if phys &&& 0xFFF ≠ 0 then kpanic "Invalid IOAPIC alignment"
    else if C.vmap (higherHalf C.hhdmOffset phys) phys ≠ 0 then kpanic "IOAPIC mapping failed"
    else do
      update fun s => { s with base := higherHalf C.hhdmOffset phys }
      let ver ← ioapicRead ioapicIdxIoapicver
      initEntries C (List.range (entries ver))

end Ioapic

section Boot
variable {α : Type} (C : Config)

def onIoapic (m : Call Ioapic.State α) : Call Machine α := fun s =>
  ((m s.ioapic).1, { s with ioapic := (m s.ioapic).2 })

def onIdt (g : Tables → Tables) : Call Machine Unit := update fun s => { s with idt := g s.idt }

def outb (port value : ℕ) : Call Machine Unit :=
  update fun s => { s with ports := s.ports ++ [(port, value)] }

def pitInit (handler : ℕ) : Call Machine Unit := do
  update fun s => { s with pitCallback := if handler = 0 then s.pitCallback else handler }
  outb 0x43 0x36
  outb 0x40 (pitDivisor &&& 0xFF)
  outb 0x40 (pitDivisor >>> 8 &&& 0xFF)
  onIdt fun t => (idtRegisterHandler pitVector C.pitHandler t).2
  onIoapic (ioapicMap 0 pitVector 0 (if C.broadcastPit then 0xFF else C.lapicId % 256))

def timerInit (handler : ℕ) : Call Machine Unit := do
  pitInit C handler
  update fun s => { s with tapiEnabled := true }

/-- The part of `emk_entry` that routes interrupts, with `idt_init` on each CPU. -/
def emkEntry (cpus : ℕ) : Call Machine Unit := do
  onIdt (idtInit C.sym)
  outb 0x21 0xFF
  outb 0xA1 0xFF
  onIoapic (ioapicInit C)
  timerInit C C.tick
  onIdt fun t => Transition.run (step C.sym) t (List.replicate cpus .init)
  let enabled ← observe Machine.tapiEnabled
  if enabled then onIoapic (ioapicUnmask 0) else pure ()

end Boot

section Entries
variable {C : Config} {s s' : Ioapic.State}

/-- What the accesses to the device keep. -/
structure Same (s s' : Ioapic.State) : Prop where
  base : s'.base = s.base
  isos : s'.isos = s.isos
  low : ∀ i < ioapicIdxRedTbl, s'.reg i = s.reg i

theorem pinVector_low {gsi : ℕ} (h : gsi < 120) : pinVector gsi = 32+gsi := by
  rw [pinVector, if_neg]
  rw [lapicSpuriousVector]
  omega

theorem initEntry_apply (hb : s.base ≠ 0) {gsi : ℕ} (hlow : gsi < 120) :
    ∃ s', initEntry C gsi s = (some (), s') ∧ Same s s' ∧ ∀ i, s'.reg i =
      if i = ioapicIdxRedTbl+2*gsi then redtbleLo 0 (32+gsi)
      else if i = ioapicIdxRedTbl+2*gsi+1 then (C.lapicId <<< 24) % 2^32 else s.reg i := by
  have hlo : (ioapicIdxRedTbl+2*gsi) % 256 = ioapicIdxRedTbl+2*gsi :=
    Nat.mod_eq_of_lt (by rw [ioapicIdxRedTbl]; omega)
  have hhi : (ioapicIdxRedTbl+2*gsi+1) % 256 = ioapicIdxRedTbl+2*gsi+1 :=
    Nat.mod_eq_of_lt (by rw [ioapicIdxRedTbl]; omega)
  have hrun : initEntry C gsi s = (some (), written (written s (ioapicIdxRedTbl+2*gsi)
      (redtbleLo 0 (32+gsi))) (ioapicIdxRedTbl+2*gsi+1) ((C.lapicId <<< 24) % 2^32)) := by
    rw [initEntry, bind_of_returned (ioapicWrite_apply hb), pinVector_low hlow]
    exact ioapicWrite_apply (s := written s _ _) hb
  have hreg : ∀ i, (written (written s (ioapicIdxRedTbl+2*gsi) (redtbleLo 0 (32+gsi)))
      (ioapicIdxRedTbl+2*gsi+1) ((C.lapicId <<< 24) % 2^32)).reg i =
      if i = ioapicIdxRedTbl+2*gsi then redtbleLo 0 (32+gsi)
      else if i = ioapicIdxRedTbl+2*gsi+1 then (C.lapicId <<< 24) % 2^32 else s.reg i := by
    intro i
    rw [written, written]
    dsimp only
    rw [hlo, hhi, Function.update_apply, Function.update_apply]
    split_ifs
    · omega
    all_goals rfl
  refine ⟨_, hrun, ⟨rfl, rfl, fun i hi => ?_⟩, hreg⟩
  rw [hreg, if_neg (by omega), if_neg (by omega)]

/-- The pins of the list get their own vector, masked. -/
theorem initEntries_apply (gsis : List ℕ) (hb : s.base ≠ 0) (hlow : ∀ g ∈ gsis, g < 120) :
    ∃ s', initEntries C gsis s = (some (), s') ∧ Same s s' ∧
      ∀ g ∈ gsis, s'.reg (ioapicIdxRedTbl+2*g) = redtbleLo 0 (32+g) := by
  have hall : ∃ s', initEntries C gsis s = (some (), s') ∧ Same s s' ∧
      ∀ g, s'.reg (ioapicIdxRedTbl+2*g) =
        if g ∈ gsis then redtbleLo 0 (32+g) else s.reg (ioapicIdxRedTbl+2*g) := by
    induction gsis generalizing s with
    | nil => exact ⟨s, rfl, ⟨rfl, rfl, fun _ _ => rfl⟩, fun g => rfl⟩
    | cons gsi gsis ih =>
      obtain ⟨s₁, hrun, hsame, hreg⟩ := initEntry_apply (C := C) hb (hlow gsi (by simp))
      obtain ⟨s', hrun', hsame', hreg'⟩ := ih (s := s₁) (hsame.base ▸ hb)
        (fun g hg => hlow g (List.mem_cons_of_mem _ hg))
      refine ⟨s', ?_, ⟨hsame'.base.trans hsame.base, hsame'.isos.trans hsame.isos,
        fun i hi => (hsame'.low i hi).trans (hsame.low i hi)⟩, fun g => ?_⟩
      · rw [initEntries, bind_of_returned hrun, hrun']
      · rw [hreg', hreg]
        by_cases hg : g ∈ gsis
        · rw [if_pos hg, if_pos (List.mem_cons_of_mem _ hg)]
        · by_cases he : g = gsi
          · rw [if_neg hg, he, if_pos rfl, if_pos List.mem_cons_self]
          · rw [if_neg hg, if_neg (by omega), if_neg (by omega), if_neg (by simp [he, hg])]
  obtain ⟨s', hrun, hsame, hreg⟩ := hall
  exact ⟨s', hrun, hsame, fun g hg => (hreg g).trans (if_pos hg)⟩

theorem masked_low {g : ℕ} (hlow : g < 120) : redtbleLo 0 (32+g) >>> 16 &&& 1 = 1 := by
  have hall : ∀ g < 120, redtbleLo 0 (32+g) >>> 16 &&& 1 = 1 := by decide +kernel
  exact hall g hlow

/-- `ioapic_init` returns with every pin of the device masked. -/
theorem ioapicInit_returned (h : (ioapicInit C s).1 = some ()) (hfew : reported s ≤ 120) :
    (ioapicInit C s).2.base ≠ 0 ∧ (ioapicInit C s).2.isos = s.isos ∧
      (∀ i < ioapicIdxRedTbl, (ioapicInit C s).2.reg i = s.reg i) ∧
      ∀ g < reported s, (ioapicInit C s).2.reg (ioapicIdxRedTbl+2*g) = redtbleLo 0 (32+g) := by
  rw [ioapicInit] at h ⊢
  rcases haddr : C.ioapicAddrs with _ | ⟨phys, rest⟩ <;> rw [haddr] at h
  · exact absurd h (by simp [kpanic])
  · dsimp only at h ⊢
    split_ifs at h ⊢ with halign hmap
    · exact absurd h (by simp [kpanic])
    · exact absurd h (by simp [kpanic])
    · rw [update_bind] at h ⊢
      generalize higherHalf C.hhdmOffset phys = base at h ⊢
      obtain ⟨s₀, hs₀⟩ : ∃ s₀ : Ioapic.State, s₀ = { s with base := base } := ⟨_, rfl⟩
      rw [← hs₀] at h ⊢
      by_cases hb : s₀.base = 0
      · rw [bind_of_returned (ioapicRead_null hb)] at h
        have hone : (initEntries C (List.range (entries 0)) s₀).1 = none := by
          rw [show List.range (entries 0) = [0] by decide, initEntries]
          have hw : (initEntry C 0 s₀).1 = none := by
            rw [initEntry, bind_of_fst_none (ioapicWrite_null hb)]
          rw [bind_of_fst_none hw]
        rw [hone] at h
        exact absurd h (by simp)
      · rw [bind_of_returned (ioapicRead_apply hb)]
        have hver : entries (s₀.reg (ioapicIdxIoapicver % 256)) = reported s := by
          rw [hs₀]
          rfl
        rw [hver]
        obtain ⟨s', hrun, hsame, hreg⟩ := initEntries_apply (C := C) (List.range (reported s))
          (s := selected s₀ ioapicIdxIoapicver) hb
          (fun g hg => Nat.lt_of_lt_of_le (List.mem_range.mp hg) hfew)
        rw [hrun]
        refine ⟨hsame.base ▸ hb, hsame.isos.trans ?_, fun i hi => (hsame.low i hi).trans ?_,
          fun g hg => hreg g (List.mem_range.mpr hg)⟩
        · rw [hs₀]
          rfl
        · rw [hs₀]
          rfl

end Entries

section Boot
variable {C : Config} {α β : Type}

theorem onIoapic_bind (m : Call Ioapic.State α) (f : α → Call Machine β) (s : Machine) {b : β}
    (h : ((onIoapic m >>= f) s).1 = some b) :
    ∃ a, (m s.ioapic).1 = some a ∧
      (onIoapic m >>= f) s = f a { s with ioapic := (m s.ioapic).2 } := by
  cases hm : (m s.ioapic).1 with
  | none =>
    have hnone : (onIoapic m s).1 = none := hm
    rw [bind_of_fst_none hnone] at h
    exact absurd h (by simp)
  | some a =>
    have hsome : onIoapic m s = (some a, { s with ioapic := (m s.ioapic).2 }) := Prod.ext hm rfl
    exact ⟨a, rfl, bind_of_returned hsome⟩

/-- The destination that `pit_init` asks for. -/
def destination (C : Config) : ℕ := if C.broadcastPit then 0xFF else C.lapicId % 256

/-- The routing as `emk_entry` leaves it. -/
structure Up (C : Config) (m m' : Machine) : Prop where
  pin : gsiOf m.ioapic 0 < reported m.ioapic
  only : ∀ g < reported m.ioapic, ∃ lo hi, entry m'.ioapic g = some (lo, hi) ∧
    (lo >>> 16 &&& 1 = 0 ↔ g = gsiOf m.ioapic 0)
  timer : ∃ lo hi, entry m'.ioapic (gsiOf m.ioapic 0) = some (lo, hi) ∧ lo &&& 0xFF = pitVector ∧
    lo >>> 8 &&& 7 = 0 ∧ lo >>> 11 &&& 1 = 0 ∧ hi >>> 24 = destination C
  gate : readGate (m'.idt.descriptor pitVector).words = some (gateOf C.sym pitVector)
  handler : m'.idt.realHandlers pitVector = C.pitHandler
  callback : m'.pitCallback = C.tick
  ports : m'.ports = m.ports ++ [(0x21, 0xFF), (0xA1, 0xFF), (0x43, 0x36), (0x40, 0x4E), (0x40, 0x17)]

/-- The entries once the timer is mapped and its pin is unmasked. -/
theorem routed_alone {s s₁ : Ioapic.State} {vec : ℤ} {dest : ℕ}
    (hmap : (ioapicMap 0 vec 0 dest s₁).1 = some ()) (hisos : s₁.isos = s.isos)
    (hfew : reported s ≤ 120) (hver : reported s₁ = reported s)
    (hmasked : ∀ g < reported s, s₁.reg (ioapicIdxRedTbl+2*g) = redtbleLo 0 (32+g)) :
    let s' := (ioapicUnmask 0 (ioapicMap 0 vec 0 dest s₁).2).2
    gsiOf s 0 < reported s ∧
      (∀ g < reported s, ∃ lo hi, entry s' g = some (lo, hi) ∧
        (lo >>> 16 &&& 1 = 0 ↔ g = gsiOf s 0)) ∧
      ∃ lo hi, entry s' (gsiOf s 0) = some (lo, hi) ∧ lo &&& 0xFF = vec.toNat ∧
        lo >>> 8 &&& 7 = 0 ∧ lo >>> 11 &&& 1 = 0 ∧ hi >>> 24 = dest := by
  intro s'
  have hgsi : gsiOf s₁ 0 = gsiOf s 0 := by rw [gsiOf, gsiOf, hisos]
  obtain ⟨⟨-, hg, hvec⟩, -⟩ := ioapicMap_returns hmap
  rw [hgsi, hver] at hg
  have hlow : gsiOf s₁ 0 < 120 := by omega
  have hreg := map_unmask_reg hmap hlow
  rw [hgsi] at hreg
  obtain ⟨h1, h2, h3, h4⟩ := unmasked_fields (show 0 < 2 by decide) (show vec.toNat < 256 by omega)
  have hentry : ∀ g < reported s, entry s' g =
      some (s'.reg (ioapicIdxRedTbl+2*g), s'.reg (ioapicIdxRedTbl+2*g+1)) :=
    fun g hlt => if_pos (by rw [ioapicIdxRedTbl]; omega)
  refine ⟨hg, fun g hlt => ⟨_, _, hentry g hlt, ?_⟩, _, _, hentry _ hg, ?_⟩
  · rw [hreg]
    by_cases he : g = gsiOf s 0
    · rw [if_pos (by rw [he])]
      exact iff_of_true h4 he
    · rw [if_neg (by omega), if_neg (by omega), hmasked g hlt, masked_low (by omega)]
      exact iff_of_false (by decide) he
  · rw [hreg, hreg, if_pos rfl, if_neg (by omega), if_pos rfl]
    exact ⟨h1, h2, h3, Nat.shiftLeft_shiftRight dest 24⟩

/-- What `timer_init` leaves when it returns. -/
def timed (C : Config) (handler : ℕ) (m : Machine) : Machine where
  ioapic := (ioapicMap 0 pitVector 0 (destination C) m.ioapic).2
  idt := (idtRegisterHandler pitVector C.pitHandler m.idt).2
  pitCallback := if handler = 0 then m.pitCallback else handler
  tapiEnabled := true
  ports := m.ports ++ [(0x43, 0x36), (0x40, 0x4E), (0x40, 0x17)]

theorem timerInit_bind {handler : ℕ} {f : Unit → Call Machine β} {m : Machine} {b : β}
    (h : ((timerInit C handler >>= f) m).1 = some b) :
    (ioapicMap 0 pitVector 0 (destination C) m.ioapic).1 = some () ∧
      (timerInit C handler >>= f) m = f () (timed C handler m) := by
  have hpit : pitInit C handler m = onIoapic (ioapicMap 0 pitVector 0 (destination C))
      { m with
        idt := (idtRegisterHandler pitVector C.pitHandler m.idt).2
        pitCallback := if handler = 0 then m.pitCallback else handler
        ports := m.ports ++ [(0x43, 0x36)] ++ [(0x40, pitDivisor &&& 0xFF)] ++
          [(0x40, pitDivisor >>> 8 &&& 0xFF)] } := rfl
  have hports : m.ports ++ [(0x43, 0x36)] ++ [(0x40, pitDivisor &&& 0xFF)] ++
      [(0x40, pitDivisor >>> 8 &&& 0xFF)] = m.ports ++ [(0x43, 0x36), (0x40, 0x4E), (0x40, 0x17)] := by
    rw [List.append_assoc, List.append_assoc]
    rfl
  cases hmap : (ioapicMap 0 pitVector 0 (destination C) m.ioapic).1 with
  | none =>
    have hnone : (pitInit C handler m).1 = none := by
      rw [hpit]
      exact hmap
    rw [timerInit, bind_assoc_apply, bind_of_fst_none hnone] at h
    exact absurd h (by simp)
  | some u =>
    refine ⟨rfl, ?_⟩
    have hsome : (pitInit C handler m).1 = some u := by
      rw [hpit]
      exact hmap
    rw [timerInit, bind_assoc_apply, bind_of_fst_some hsome, update_bind, hpit, hports]
    rfl

theorem init_keeps_timer (sym : Symbols) (n : ℕ) (t : Tables) :
    (Transition.run (step sym) t (List.replicate n .init)).realHandlers pitVector =
      t.realHandlers pitVector := by
  induction n generalizing t with
  | zero => rfl
  | succ n ih =>
    rw [List.replicate_succ, Transition.run, ih, step_realHandlers, LastWrite.foldl_update,
      (LastWrite.lastWrite_none _).mpr]
    · rfl
    · intro x hx he
      simp only [writes, List.mem_append, List.mem_map, List.mem_range, List.mem_cons,
        List.not_mem_nil, or_false, pitVector] at hx he
      rcases hx with ⟨i, hi, rfl⟩ | rfl | rfl
      · dsimp only at he
        omega
      · exact absurd (show (0x80 : ℕ) = 32 from he) (by decide)
      · exact absurd (show (0xFE : ℕ) = 32 from he) (by decide)

end Boot

/-- When `emk_entry` comes back from these calls, every pin of the I/O APIC is
masked but the timer's, which raises the vector whose gate leads to its stub
and whose handler is `pit_handler`. -/
theorem timer_alone (C : Config) (hstubs : ∀ v < 256, C.sym.stubs v < 2^64)
    (hhandler : C.pitHandler ≠ 0) (htick : C.tick ≠ 0) (cpus : ℕ) (m : Machine)
    (hfew : reported m.ioapic ≤ 120) (h : (emkEntry C cpus m).1 = some ()) :
    Up C m (emkEntry C cpus m).2 := by
  rw [emkEntry, onIdt, outb, outb, update_bind, update_bind, update_bind] at h ⊢
  obtain ⟨u, hinit, hrest⟩ := onIoapic_bind _ _ _ h
  rw [hrest] at h ⊢
  obtain ⟨hmap, hrest⟩ := timerInit_bind h
  rw [hrest, onIdt, update_bind, observe_bind] at h ⊢
  obtain ⟨-, hisos, hlow, hmasked⟩ := ioapicInit_returned hinit hfew
  have hver : reported (ioapicInit C m.ioapic).2 = reported m.ioapic := by
    rw [reported, reported, hlow _ (by decide)]
  obtain ⟨hpin, honly, htimer⟩ := routed_alone hmap hisos hfew hver hmasked
  have hregister : ∀ t, (idtRegisterHandler pitVector C.pitHandler t).2 =
      setHandler pitVector C.pitHandler t := by
    intro t
    rw [idtRegisterHandler, if_neg]
    rw [pitVector]
    omega
  refine ⟨hpin, honly, htimer, ?_, ?_, if_neg htick, ?_⟩
  · change readGate ((Transition.run (step C.sym) (idtRegisterHandler pitVector C.pitHandler
      (idtInit C.sym m.idt)).2 (List.replicate cpus .init)).descriptor pitVector).words = _
    have hinit : (setHandler pitVector C.pitHandler (idtInit C.sym m.idt)).descriptor pitVector =
        gateEntry (C.sym.stubs pitVector) (flagsOf pitVector) := by
      rw [setHandler_descriptor, idtInit_descriptor m.idt (by decide)]
    rw [hregister, gate_run _ (by decide) hinit]
    exact readGate_flagsOf pitVector (hstubs pitVector (by decide))
  · change (Transition.run (step C.sym) (idtRegisterHandler pitVector C.pitHandler
      (idtInit C.sym m.idt)).2 (List.replicate cpus .init)).realHandlers pitVector = _
    rw [init_keeps_timer, hregister, setHandler_realHandlers, Function.update_self]
  · change m.ports ++ [(0x21, 0xFF)] ++ [(0xA1, 0xFF)] ++
      [(0x43, 0x36), (0x40, 0x4E), (0x40, 0x17)] = _
    rw [List.append_assoc, List.append_assoc]
    rfl

/-- Twenty-four pins, the timer on the third one. -/
def smallBoard : Config where
  hhdmOffset := 0xffff800000000000
  ioapicAddrs := [0xfec00000]
  vmap := fun _ _ => 0
  lapicId := 3
  broadcastPit := false
  sym := smallSymbols
  pitHandler := 0x400
  tick := 0x500

theorem timer_alone_small :
    Up smallBoard { ioapic := device 24, idt := {} }
      (emkEntry smallBoard 2 { ioapic := device 24, idt := {} }).2 :=
  timer_alone smallBoard smallSymbols_stubs (by decide) (by decide) 2 _ (by decide +kernel)
    (by decide +kernel)

end Emk.TimerBoot
