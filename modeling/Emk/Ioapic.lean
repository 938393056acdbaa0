import Emk.Calls
import Mathlib.Algebra.Ring.Int.Defs
import Mathlib.Algebra.Ring.Nat
import Mathlib.Logic.Function.Basic
import Mathlib.Tactic.Common

/-!
# Routing interrupts through the I/O APIC

`sys/apic/ioapic.c`. The registers of the device lie behind a select register
that holds eight bits; the redirection entry of a global interrupt is a pair
of them. Overrides of the MADT say which interrupt a legacy one arrives at.
The version register may report more entries than eight bits can select.
-/

set_option autoImplicit false

namespace Emk.Ioapic
open Emk.Calls

/-- An interrupt source override. -/
structure Iso where
  irqSource : ℕ
  gsi : ℕ

/-- The driver's base address and overrides, and the device. -/
structure State where
  base : ℕ
  isos : List Iso
  ioregsel : ℕ
  reg : ℕ → ℕ
  panic : Option String

def ioapicIdxIoapicid : ℕ := 0x00
def ioapicIdxIoapicver : ℕ := 0x01
def ioapicIdxRedTbl : ℕ := 0x10
def lapicSpuriousVector : ℤ := 0xFF

def kpanic {α : Type} (text : String) : Call State α :=
  fun s => (none, { s with panic := some text })

def irqToGsi (irq : ℕ) : List Iso → ℕ
  | [] => irq
  | iso::isos => if iso.irqSource = irq then iso.gsi else irqToGsi irq isos

/-- A parameter of type `uint8_t` selects the register that the next access
goes to. -/
def select (index : ℕ) : Call State Unit := update fun s => { s with ioregsel := index % 256 }

def ioapicWrite (index value : ℕ) : Call State Unit := do
  let base ← observe State.base
  if base = 0 then kpanic "IOAPIC write before init"
  else do
    select index
    update fun s => { s with reg := Function.update s.reg s.ioregsel value }

def ioapicRead (index : ℕ) : Call State ℕ := do
  let base ← observe State.base
  if base = 0 then pure 0
  else do
    select index
    observe fun s => s.reg s.ioregsel

/-- The number of entries that the version register reports. -/
def entries (ver : ℕ) : ℕ := (ver >>> 16 &&& 0xFF)+1

def redtbleLo (destMode vec : ℕ) : ℕ := 1 <<< 16 ||| destMode <<< 11 ||| 0 <<< 8 ||| vec

def ioapicMap (irq vec : ℤ) (destMode lapicId : ℕ) : Call State Unit := do
  let isos ← observe State.isos
  let gsi := irqToGsi (irq % 2^32).toNat isos
  let ver ← ioapicRead ioapicIdxIoapicver
  if gsi ≥ entries ver then kpanic "Invalid GSI for IOAPIC"
  else if vec < 32 ∨ vec > 255 ∨ vec = lapicSpuriousVector then kpanic "Invalid vector"
  else do
    ioapicWrite (ioapicIdxRedTbl+2*gsi) (redtbleLo destMode vec.toNat)
    ioapicWrite (ioapicIdxRedTbl+2*gsi+1) (lapicId <<< 24)

/-- The mask bit cleared in 32 bits. -/
def unmasked (lo : ℕ) : ℕ := lo &&& (2^32-1-1 <<< 16)

def ioapicUnmask (irq : ℤ) : Call State Unit := do
  let isos ← observe State.isos
  let gsi := irqToGsi (irq % 2^32).toNat isos
  let ver ← ioapicRead ioapicIdxIoapicver
  if gsi ≥ entries ver then pure ()
  else do
    let lo ← ioapicRead (ioapicIdxRedTbl+2*gsi)
    ioapicWrite (ioapicIdxRedTbl+2*gsi) (unmasked lo)

variable {s : State} {index value : ℕ}

def selected (s : State) (index : ℕ) : State := { s with ioregsel := index % 256 }

def written (s : State) (index value : ℕ) : State :=
  { selected s index with reg := Function.update s.reg (index % 256) value }

theorem ioapicWrite_apply (hb : s.base ≠ 0) :
    ioapicWrite index value s = (some (), written s index value) := by
  rw [ioapicWrite, observe_bind, if_neg hb]
  rfl

theorem ioapicWrite_null (hb : s.base = 0) : (ioapicWrite index value s).1 = none := by
  rw [ioapicWrite, observe_bind, if_pos hb]
  rfl

theorem ioapicRead_apply (hb : s.base ≠ 0) :
    ioapicRead index s = (some (s.reg (index % 256)), selected s index) := by
  rw [ioapicRead, observe_bind, if_neg hb]
  rfl

theorem ioapicRead_null (hb : s.base = 0) : ioapicRead index s = (some 0, s) := by
  rw [ioapicRead, observe_bind, if_pos hb]
  rfl

/-- The interrupt that `irq` arrives at. -/
def gsiOf (s : State) (irq : ℤ) : ℕ := irqToGsi (irq % 2^32).toNat s.isos

/-- The number of entries the device reports. -/
def reported (s : State) : ℕ := entries (s.reg ioapicIdxIoapicver)

/-- The registers that the accesses to an entry select. -/
def accessed (g : ℕ) : List ℕ :=
  [(ioapicIdxRedTbl+2*g) % 256, (ioapicIdxRedTbl+2*g+1) % 256]

/-- The redirection entry of an interrupt, if eight bits can select it. -/
def entry (s : State) (g : ℕ) : Option (ℕ × ℕ) :=
  if ioapicIdxRedTbl+2*g+1 < 256 then
    some (s.reg (ioapicIdxRedTbl+2*g), s.reg (ioapicIdxRedTbl+2*g+1))
  else none

section Map
variable {irq vec : ℤ} {destMode lapicId : ℕ}

/-- What `ioapic_map` demands. -/
structure Acceptable (s : State) (irq vec : ℤ) : Prop where
  base : s.base ≠ 0
  gsi : gsiOf s irq < reported s
  vec : 32 ≤ vec ∧ vec < 255

/-- A call that returns was acceptable, and wrote two registers. -/
theorem ioapicMap_returns (h : (ioapicMap irq vec destMode lapicId s).1 = some ()) :
    Acceptable s irq vec ∧ (ioapicMap irq vec destMode lapicId s).2.base = s.base ∧
      (ioapicMap irq vec destMode lapicId s).2.isos = s.isos ∧
      (ioapicMap irq vec destMode lapicId s).2.reg =
        Function.update (Function.update s.reg ((ioapicIdxRedTbl+2*gsiOf s irq) % 256)
          (redtbleLo destMode vec.toNat)) ((ioapicIdxRedTbl+2*gsiOf s irq+1) % 256)
          (lapicId <<< 24) := by
  rw [ioapicMap, observe_bind] at h ⊢
  by_cases hb : s.base = 0
  · rw [bind_of_returned (ioapicRead_null hb)] at h
    split_ifs at h
    · exact absurd h (by simp [kpanic])
    · exact absurd h (by simp [kpanic])
    · rw [bind_of_fst_none (ioapicWrite_null hb)] at h
      exact absurd h (by simp)
  · rw [bind_of_returned (ioapicRead_apply hb)] at h ⊢
    split_ifs at h ⊢ with hgsi hvec
    · exact absurd h (by simp [kpanic])
    · exact absurd h (by simp [kpanic])
    · have hspurious : vec ≠ 255 := fun he => hvec (.inr (.inr he))
      refine ⟨⟨hb, Nat.not_le.mp hgsi, by omega, by omega⟩, ?_⟩
      rw [bind_of_returned (ioapicWrite_apply (s := selected s _) hb),
        ioapicWrite_apply (s := written (selected s _) _ _) hb]
      exact ⟨rfl, rfl, rfl⟩

end Map

/-- The call always returns. -/
theorem ioapicUnmask_returns (hb : s.base ≠ 0) (irq : ℤ) :
    (ioapicUnmask irq s).1 = some () := by
  rw [ioapicUnmask, observe_bind, bind_of_returned (ioapicRead_apply hb)]
  split_ifs
  · rfl
  · rw [bind_of_returned (ioapicRead_apply (s := selected s _) hb),
      ioapicWrite_apply (s := selected (selected s _) _) hb]

theorem ioapicUnmask_writes (hb : s.base ≠ 0) {irq : ℤ} (hg : gsiOf s irq < reported s) :
    (ioapicUnmask irq s).2.reg = Function.update s.reg ((ioapicIdxRedTbl+2*gsiOf s irq) % 256)
      (unmasked (s.reg ((ioapicIdxRedTbl+2*gsiOf s irq) % 256))) := by
  have hgsi : ¬ irqToGsi (irq % 2^32).toNat s.isos ≥
      entries (s.reg (ioapicIdxIoapicver % 256)) := Nat.not_le.mpr hg
  rw [ioapicUnmask, observe_bind, bind_of_returned (ioapicRead_apply hb), if_neg hgsi,
    bind_of_returned (ioapicRead_apply (s := selected s _) hb),
    ioapicWrite_apply (s := selected (selected s _) _) hb]
  rfl

/-- After both calls the entry of the interrupt routes it, and nothing else has
changed; no two entries that the device reports share a register. -/
structure Routed (s : State) (irq vec : ℤ) (destMode lapicId : ℕ) (s' : State) : Prop where
  route : ∃ lo hi, entry s' (gsiOf s irq) = some (lo, hi) ∧ lo &&& 0xFF = vec.toNat ∧
    lo >>> 8 &&& 7 = 0 ∧ lo >>> 11 &&& 1 = destMode ∧ lo >>> 16 &&& 1 = 0 ∧ hi >>> 24 = lapicId
  others : ∀ g ≠ gsiOf s irq, entry s' g = entry s g
  ident : s'.reg ioapicIdxIoapicid = s.reg ioapicIdxIoapicid
  version : s'.reg ioapicIdxIoapicver = s.reg ioapicIdxIoapicver
  apart : ∀ g < reported s, ∀ g' < reported s, g ≠ g' → ∀ i ∈ accessed g, i ∉ accessed g'

theorem unmasked_fields {destMode vec : ℕ} (hmode : destMode < 2) (hvec : vec < 256) :
    let lo := unmasked (redtbleLo destMode vec)
    lo &&& 0xFF = vec ∧ lo >>> 8 &&& 7 = 0 ∧ lo >>> 11 &&& 1 = destMode ∧ lo >>> 16 &&& 1 = 0 := by
  have hall : ∀ mode < 2, ∀ v < 256, let lo := unmasked (redtbleLo mode v)
      lo &&& 0xFF = v ∧ lo >>> 8 &&& 7 = 0 ∧ lo >>> 11 &&& 1 = mode ∧ lo >>> 16 &&& 1 = 0 := by
    decide +kernel
  exact hall destMode hmode vec hvec

/-- Entries share registers as soon as there are more than half of 256. -/
theorem apart_iff (n : ℕ) :
    (∀ g < n, ∀ g' < n, g ≠ g' → ∀ i ∈ accessed g, i ∉ accessed g') ↔ n ≤ 128 := by
  constructor
  · intro h
    by_contra hn
    exact h 0 (by omega) 128 (by omega) (by decide) 0x10 (by decide) (by decide)
  · intro hn g hg g' hg' hne i hi hi'
    simp only [accessed, ioapicIdxRedTbl, List.mem_cons, List.not_mem_nil, or_false] at hi hi'
    omega

section Low
variable {irq vec : ℤ} {destMode lapicId : ℕ}

/-- The registers after both calls, for an entry that eight bits can select. -/
theorem map_unmask_reg (h : (ioapicMap irq vec destMode lapicId s).1 = some ())
    (hlow : gsiOf s irq < 120) (i : ℕ) :
    (ioapicUnmask irq (ioapicMap irq vec destMode lapicId s).2).2.reg i =
      if i = ioapicIdxRedTbl+2*gsiOf s irq then unmasked (redtbleLo destMode vec.toNat)
      else if i = ioapicIdxRedTbl+2*gsiOf s irq+1 then lapicId <<< 24 else s.reg i := by
  obtain ⟨⟨hb, hg, -⟩, hbase, hisos, hreg⟩ := ioapicMap_returns h
  generalize (ioapicMap irq vec destMode lapicId s).2 = s₁ at hbase hisos hreg ⊢
  have hlo : (ioapicIdxRedTbl+2*gsiOf s irq) % 256 = ioapicIdxRedTbl+2*gsiOf s irq :=
    Nat.mod_eq_of_lt (by rw [ioapicIdxRedTbl]; omega)
  have hhi : (ioapicIdxRedTbl+2*gsiOf s irq+1) % 256 = ioapicIdxRedTbl+2*gsiOf s irq+1 :=
    Nat.mod_eq_of_lt (by rw [ioapicIdxRedTbl]; omega)
  rw [hlo, hhi] at hreg
  have hgsi : gsiOf s₁ irq = gsiOf s irq := by rw [gsiOf, gsiOf, hisos]
  have hver : reported s₁ = reported s := by
    rw [reported, reported, hreg, Function.update_of_ne, Function.update_of_ne]
    all_goals rw [ioapicIdxRedTbl, ioapicIdxIoapicver]; omega
  rw [ioapicUnmask_writes (hbase ▸ hb) (by rw [hgsi, hver]; exact hg), hgsi, hlo, hreg]
  have hne : ioapicIdxRedTbl+2*gsiOf s irq ≠ ioapicIdxRedTbl+2*gsiOf s irq+1 := by omega
  rw [Function.update_of_ne hne, Function.update_self]
  simp only [Function.update_apply]
  split_ifs <;> rfl

theorem routed_low (hmode : destMode ≤ 1)
    (h : (ioapicMap irq vec destMode lapicId s).1 = some ()) (hlow : gsiOf s irq < 120)
    (hfew : reported s ≤ 128) :
    Routed s irq vec destMode lapicId
      (ioapicUnmask irq (ioapicMap irq vec destMode lapicId s).2).2 := by
  have hreg := map_unmask_reg h hlow
  obtain ⟨⟨-, -, hvec⟩, -⟩ := ioapicMap_returns h
  obtain ⟨h1, h2, h3, h4⟩ := unmasked_fields (show destMode < 2 by omega)
    (show vec.toNat < 256 by omega)
  refine ⟨⟨_, _, ?_, h1, h2, h3, h4, Nat.shiftLeft_shiftRight lapicId 24⟩, fun g hg => ?_, ?_, ?_,
    (apart_iff _).mpr hfew⟩
  · rw [entry, if_pos (by rw [ioapicIdxRedTbl]; omega), hreg, hreg, if_pos rfl, if_neg (by omega),
      if_pos rfl]
  · rw [entry, entry, hreg, hreg]
    rw [if_neg (show ioapicIdxRedTbl+2*g ≠ ioapicIdxRedTbl+2*gsiOf s irq by omega),
      if_neg (show ioapicIdxRedTbl+2*g ≠ ioapicIdxRedTbl+2*gsiOf s irq+1 by omega),
      if_neg (show ioapicIdxRedTbl+2*g+1 ≠ ioapicIdxRedTbl+2*gsiOf s irq by omega),
      if_neg (show ioapicIdxRedTbl+2*g+1 ≠ ioapicIdxRedTbl+2*gsiOf s irq+1 by omega)]
  · rw [hreg, if_neg, if_neg]
    all_goals rw [ioapicIdxRedTbl, ioapicIdxIoapicid]; omega
  · rw [hreg, if_neg, if_neg]
    all_goals rw [ioapicIdxRedTbl, ioapicIdxIoapicver]; omega

/-- An interrupt is routed as asked, and alone, exactly when eight bits can
select its entry and tell the entries of the device apart. -/
theorem ioapic_routes_iff (hmode : destMode ≤ 1)
    (h : (ioapicMap irq vec destMode lapicId s).1 = some ()) :
    (ioapicUnmask irq (ioapicMap irq vec destMode lapicId s).2).1 = some () ∧
      (Routed s irq vec destMode lapicId
          (ioapicUnmask irq (ioapicMap irq vec destMode lapicId s).2).2 ↔
        gsiOf s irq < 120 ∧ reported s ≤ 128) := by
  obtain ⟨⟨hb, -, -⟩, hbase, -⟩ := ioapicMap_returns h
  refine ⟨ioapicUnmask_returns (hbase ▸ hb) irq, fun hr => ⟨?_, (apart_iff _).mp hr.apart⟩,
    fun hcond => routed_low hmode h hcond.1 hcond.2⟩
  obtain ⟨lo, hi, hentry, -⟩ := hr.route
  rw [entry] at hentry
  split_ifs at hentry with hlow
  rw [ioapicIdxRedTbl] at hlow
  omega

end Low

/-- A device that reports this many entries, and no overrides but the one for
the timer. -/
def device (n : ℕ) : State :=
  ⟨0xffff8000fec00000, [⟨0, 2⟩], 0, Function.update (fun _ => 0) 1 ((n-1) <<< 16 ||| 0x11), none⟩

theorem ioapic_routes_iff_timer :
    (ioapicUnmask 0 (ioapicMap 0 32 0 0xFF (device 24)).2).1 = some () ∧
      Routed (device 24) 0 32 0 0xFF (ioapicUnmask 0 (ioapicMap 0 32 0 0xFF (device 24)).2).2 := by
  have hmap : (ioapicMap 0 32 0 0xFF (device 24)).1 = some () := by decide +kernel
  obtain ⟨hreturns, hiff⟩ := ioapic_routes_iff (Nat.zero_le 1) hmap
  exact ⟨hreturns, hiff.mpr (by decide +kernel)⟩

/-- Of 256 entries, the one of interrupt 128 is written over the one of
interrupt 0. -/
theorem ioapic_routes_other :
    (ioapicMap 128 64 0 1 (device 256)).1 = some () ∧
    (ioapicUnmask 128 (ioapicMap 128 64 0 1 (device 256)).2).1 = some () ∧
    ¬ Routed (device 256) 128 64 0 1
      (ioapicUnmask 128 (ioapicMap 128 64 0 1 (device 256)).2).2 := by
  refine ⟨by decide +kernel, by decide +kernel, fun hr => ?_⟩
  have hother := hr.others 0 (by decide +kernel)
  exact absurd hother (by decide +kernel)

end Emk.Ioapic
