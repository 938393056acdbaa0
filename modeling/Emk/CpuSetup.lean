import Emk.Gdt
import Emk.SmpRuns

/-!
# Setting up the CPUs on shared tables

Every CPU runs `init_cpu` on one descriptor table and one task state segment,
without a lock. The protocol of `smp_init` lets one CPU at a time into that
code, so that each finds the tables as it wrote them.
-/

set_option autoImplicit false

namespace Emk.CpuSetup
open Emk.Gdt Emk.Smp Emk.SmpRuns Emk.Transition

/-- The processors with the shared tables, the registers of each, and what each
has still to do in `init_cpu`. -/
structure World where
  smp : Smp.World := {}
  tables : Tables := {}
  cores : Actor → Core := fun _ => {}
  todo : Actor → List Op := fun _ => []
  faulted : Bool := false

inductive Act where
  | cpu (a : Actor)
  | interrupt (a : Actor) (vector : ℕ)
  deriving DecidableEq, Repr

/-- The index with which a processor is in `init_cpu`. -/
def inside (w : Smp.World) : Actor → Option ℕ
  | .bsp => match w.bsp with
    | .own i => some i
    | _ => none
  | .ap j => match w.aps j with
    | .entered i => some i
    | _ => none

/-- `swapgs` in the stub, on the way in only. -/
def swapGs (vector : ℕ) (c : Core) : Core :=
  if vector % 4 = 0 then c else { c with gsBase := c.kernelGsBase, kernelGsBase := c.gsBase }

/-- `get_cpu_local` -/
def getCpuLocal (w : World) (a : Actor) (lapicId : ℕ) : Option ℕ :=
  if (w.cores a).gsBase.isSome then (w.cores a).gsBase else findCpu w.smp lapicId

section Step
variable (mp : MpResponse) (gdtAddress tssAddress kstackTop : ℕ)

def lapicIdOf : Actor → ℕ
  | .bsp => mp.bspLapicId
  | .ap j => mp.lapicId j

/-- The next step of a processor outside the accesses to the tables. -/
def advance (w : World) (a : Actor) : World :=
  let smp := Smp.step mp w.smp a
  { w with
    smp := smp
    todo := Function.update w.todo a (match inside smp a with
      | some i => if inside w.smp a = none then initCpu kstackTop i else []
      | none => []) }

def access (w : World) (a : Actor) (o : Op) (os : List Op) : World :=
  match exec gdtAddress tssAddress w.tables (w.cores a) o with
  | some (t, c) => { w with
      tables := t
      cores := Function.update w.cores a c
      todo := Function.update w.todo a os }
  | none => { w with faulted := true }

/-- Interrupts are disabled in `init_cpu`. -/
def step (w : World) : Act → World
  | .cpu a => match w.todo a with
    | o::os => access gdtAddress tssAddress w a o os
    | [] => advance mp kstackTop w a
  | .interrupt a vector =>
    if inside w.smp a = none then
      { w with cores := Function.update w.cores a (swapGs vector (w.cores a)) }
    else w

end Step

section Exclusive
variable {mp : MpResponse} {i : ℕ} {S : Finset ℕ} {w : Smp.World}

/-- Whoever is in `init_cpu` is the CPU that the bootstrap processor is at. -/
theorem inside_at (h : Inv mp i S w) {a : Actor} {c : ℕ} (ha : inside w a = some c) :
    a = .bsp ∧ mp.lapicId i = mp.bspLapicId ∨ a = .ap i ∧ mp.lapicId i ≠ mp.bspLapicId := by
  cases a with
  | bsp =>
    have hat := h.bsp
    rw [inside] at ha
    cases hpc : w.bsp with
    | own j =>
      rw [hpc] at hat
      obtain ⟨-, -, hown⟩ := hat
      exact .inl ⟨rfl, hown⟩
    | _ =>
      rw [hpc] at ha
      exact absurd ha (by simp)
  | ap j =>
    rw [inside] at ha
    cases hpc : w.aps j with
    | entered d =>
      obtain ⟨-, hle, hother⟩ := h.sent j (h.woken j (by simp [hpc]))
      have heq : j = i := by
        by_contra hne
        obtain ⟨e, he⟩ := h.passed j (by omega) hother
        simp [Signalled, hpc] at he
      rw [heq] at hother
      exact .inr ⟨congrArg Actor.ap heq, hother⟩
    | _ =>
      rw [hpc] at ha
      exact absurd ha (by simp)

/-- One processor at a time is in `init_cpu`. -/
theorem inside_alone (h : Inv mp i S w) {a b : Actor} {c d : ℕ} (ha : inside w a = some c)
    (hb : inside w b = some d) : a = b := by
  rcases inside_at h ha with ⟨rfl, hown⟩ | ⟨rfl, hother⟩
  · rcases inside_at h hb with ⟨rfl, -⟩ | ⟨rfl, hother⟩
    · rfl
    · exact absurd hown hother
  · rcases inside_at h hb with ⟨rfl, hown⟩ | ⟨rfl, -⟩
    · exact absurd hown hother
    · rfl

end Exclusive

section Steps
variable {mp : MpResponse} {w : Smp.World} {a b : Actor} {c : ℕ}

theorem inside_other (h : b ≠ a) : inside (Smp.step mp w a) b = inside w b := by
  cases a with
  | bsp =>
    cases b with
    | bsp => exact absurd rfl h
    | ap j =>
      have haps : (bspStep mp w).aps = w.aps := by
        rw [bspStep]
        split <;> (try split_ifs) <;> rfl
      rw [inside, inside, Smp.step, haps]
  | ap j =>
    cases b with
    | bsp =>
      have hbsp : (apStep mp j w).bsp = w.bsp := by
        rw [apStep]
        split
        · split_ifs
          · split <;> rfl
          · rfl
        all_goals rfl
      rw [inside, inside, Smp.step, hbsp]
    | ap d =>
      have hne : d ≠ j := fun he => h (congrArg Actor.ap he)
      have haps : (apStep mp j w).aps d = w.aps d := by
        rw [apStep]
        split
        · split_ifs
          · split <;> exact Function.update_of_ne hne _ _
          · rfl
        · exact Function.update_of_ne hne _ _
        · exact Function.update_of_ne hne _ _
        all_goals rfl
      rw [inside, inside, Smp.step, haps]

/-- The step after the last access sets the ready flag. -/
theorem step_inside (h : inside w a = some c) :
    inside (Smp.step mp w a) a = none ∧
      ∀ d, (Smp.step mp w a).ready d = true ↔ d = c ∨ w.ready d = true := by
  cases a with
  | bsp =>
    rw [inside] at h
    cases hpc : w.bsp with
    | own i =>
      rw [hpc] at h
      obtain rfl : i = c := Option.some.inj h
      have hstep : Smp.step mp w .bsp = (w.setReady i).goto (.count i) := by
        rw [Smp.step, bspStep, hpc]
      rw [hstep]
      exact ⟨rfl, ready_setReady w i⟩
    | _ =>
      rw [hpc] at h
      exact absurd h (by simp)
  | ap j =>
    rw [inside] at h
    cases hpc : w.aps j with
    | entered i =>
      rw [hpc] at h
      obtain rfl : i = c := Option.some.inj h
      have hstep : Smp.step mp w (.ap j) = (w.setReady i).setAp j (.published i) := by
        rw [Smp.step, apStep, hpc]
      rw [hstep]
      refine ⟨?_, ready_setReady w i⟩
      rw [inside, aps_setAp, if_pos rfl]
    | _ =>
      rw [hpc] at h
      exact absurd h (by simp)

/-- Outside `init_cpu` no ready flag changes. -/
theorem step_outside (h : inside w a = none) : (Smp.step mp w a).ready = w.ready := by
  cases a with
  | bsp =>
    rw [inside] at h
    rw [Smp.step, bspStep]
    cases hpc : w.bsp with
    | own i =>
      rw [hpc] at h
      exact absurd h (by simp)
    | _ =>
      dsimp only
      try split_ifs
      all_goals rfl
  | ap j =>
    rw [inside] at h
    rw [Smp.step, apStep]
    cases hpc : w.aps j with
    | entered i =>
      rw [hpc] at h
      exact absurd h (by simp)
    | parked =>
      dsimp only
      split_ifs
      · split <;> rfl
      · rfl
    | _ => rfl

end Steps

section Runs
variable {mp : MpResponse} {gdtAddress tssAddress kstackTop : ℕ} {w : World} {a b : Actor} {c : ℕ}

/-- The processor can end its accesses if nothing disturbs them. -/
def CanEnd (gdtAddress tssAddress : ℕ) (w : World) (a : Actor) : Prop :=
  ∃ t c, runOps gdtAddress tssAddress w.tables (w.cores a) (w.todo a) = some (t, c) ∧
    Loaded tssAddress c

structure Sound (mp : MpResponse) (gdtAddress tssAddress kstackTop : ℕ) (w : World) : Prop where
  smp : ∃ i S, Inv mp i S w.smp
  calm : w.faulted = false
  described : Described w.tables
  part : ∀ a o, o ∈ w.todo a → ∃ c, inside w.smp a = some c ∧ o ∈ initCpu kstackTop c
  busy : ∀ a c, inside w.smp a = some c → CanEnd gdtAddress tssAddress w a
  gs : ∀ a, (w.cores a).kernelGsBase = none ∧
    (inside w.smp a = none → (w.cores a).gsBase = none)
  loaded : ∀ c < mp.cpuCount, w.smp.ready c = true → ∃ a, lapicIdOf mp a = mp.lapicId c ∧
    (inside w.smp a = none → Loaded tssAddress (w.cores a))

theorem exec_kernelGsBase {t t' : Tables} {k k' : Core} {o : Op}
    (h : exec gdtAddress tssAddress t k o = some (t', k')) : k'.kernelGsBase = k.kernelGsBase := by
  cases o with
  | flush =>
    obtain ⟨k₁, hk, he⟩ := Option.map_eq_some_iff.mp h
    obtain ⟨-, rfl⟩ := Prod.mk.inj he
    rw [flush] at hk
    split_ifs at hk
    rw [← Option.some.inj hk]
  | flushTss =>
    rw [exec, flushTss] at h
    split at h
    · split_ifs at h
      obtain ⟨-, rfl⟩ := Prod.mk.inj (Option.some.inj h)
      rfl
    · exact absurd h (by simp)
  | _ =>
    obtain ⟨-, rfl⟩ := Prod.mk.inj (Option.some.inj h)
    rfl

/-- An access of the processor inside. -/
theorem Sound.access (h : Sound mp gdtAddress tssAddress kstackTop w) {o : Op} {os : List Op}
    (ha : w.todo a = o::os) :
    Sound mp gdtAddress tssAddress kstackTop (access gdtAddress tssAddress w a o os) := by
  obtain ⟨c, hin, ho⟩ := h.part a o (by simp [ha])
  obtain ⟨i, S, hinv⟩ := h.smp
  obtain ⟨t, k, hrun, hload⟩ := h.busy a c hin
  rw [ha, runOps, Option.bind_eq_some_iff] at hrun
  obtain ⟨⟨t₁, k₁⟩, hexec, hrun⟩ := hrun
  have hcore : ∀ b, b ≠ a → Function.update w.cores a k₁ b = w.cores b :=
    fun b hb => Function.update_of_ne hb _ _
  have htodo : ∀ b, b ≠ a → Function.update w.todo a os b = w.todo b :=
    fun b hb => Function.update_of_ne hb _ _
  rw [CpuSetup.access, hexec]
  refine ⟨⟨i, S, hinv⟩, h.calm, h.described.exec ho hexec, fun b o' ho' => ?_, fun b d hb => ?_,
    fun b => ?_, fun d hd hr => ?_⟩
  · by_cases hb : b = a
    · refine h.part b o' ?_
      rw [hb, ha]
      rw [hb] at ho'
      exact List.mem_cons_of_mem _ (by simpa using ho')
    · refine h.part b o' ?_
      rwa [← htodo b hb]
  · obtain rfl := inside_alone hinv hb hin
    refine ⟨t, k, ?_, hload⟩
    dsimp only
    rw [Function.update_self, Function.update_self]
    exact hrun
  · obtain ⟨hkgs, hgs⟩ := h.gs b
    dsimp only
    by_cases hb : b = a
    · rw [hb, Function.update_self, exec_kernelGsBase hexec, ← hb]
      refine ⟨hkgs, fun hout => ?_⟩
      rw [hb, hin] at hout
      exact absurd hout (by simp)
    · rw [hcore b hb]
      exact ⟨hkgs, hgs⟩
  · obtain ⟨b, hid, hb⟩ := h.loaded d hd hr
    refine ⟨b, hid, fun hout => ?_⟩
    dsimp only at hout ⊢
    rw [hcore b (fun he => by rw [he, hin] at hout; exact absurd hout (by simp))]
    exact hb hout

/-- The processor that sets a ready flag is the one it is for. -/
theorem inside_id {i : ℕ} {S : Finset ℕ} {w : Smp.World} (h : Inv mp i S w)
    (ha : inside w a = some c) : lapicIdOf mp a = mp.lapicId c := by
  cases a with
  | bsp =>
    have hat := h.bsp
    rw [inside] at ha
    cases hpc : w.bsp with
    | own j =>
      rw [hpc] at hat ha
      obtain rfl : j = c := Option.some.inj ha
      exact (hat.1 ▸ hat.2.2).symm
    | _ =>
      rw [hpc] at ha
      exact absurd ha (by simp)
  | ap j =>
    rw [inside] at ha
    cases hpc : w.aps j with
    | entered d =>
      rw [hpc] at ha
      obtain rfl : d = c := Option.some.inj ha
      exact (h.first j d (.inl hpc)).2.symm
    | _ =>
      rw [hpc] at ha
      exact absurd ha (by simp)

/-- A step of the protocol, when the processor has no access to make. -/
theorem Sound.advance (h : Sound mp gdtAddress tssAddress kstackTop w) (htss : tssAddress < 2^64)
    (hfew : mp.cpuCount < 2^32) (ha : w.todo a = []) :
    Sound mp gdtAddress tssAddress kstackTop (advance mp kstackTop w a) := by
  obtain ⟨i, S, hinv⟩ := h.smp
  have hinv' : ∃ i S, Inv mp i S (Smp.step mp w.smp a) := by
    cases a with
    | bsp => exact hinv.bspStep hfew
    | ap j =>
      obtain ⟨S', h'⟩ := hinv.apStep hfew j
      exact ⟨i, S', h'⟩
  have hself : ∀ x, Function.update w.todo a x a = x := fun x => Function.update_self _ _ _
  have hother : ∀ x b, b ≠ a → Function.update w.todo a x b = w.todo b :=
    fun x b hb => Function.update_of_ne hb _ _
  -- a processor that leaves has ended its accesses
  have hload : ∀ d, inside w.smp a = some d → Loaded tssAddress (w.cores a) := by
    intro d hd
    obtain ⟨t, k, hrun, hk⟩ := h.busy a d hd
    rw [ha] at hrun
    obtain ⟨-, rfl⟩ := Prod.mk.inj (Option.some.inj hrun)
    exact hk
  refine ⟨hinv', h.calm, h.described, fun b o ho => ?_, fun b d hb => ?_, fun b => ?_,
    fun d hd hr => ?_⟩
  · by_cases hb : b = a
    · subst hb
      rw [CpuSetup.advance] at ho ⊢
      dsimp only at ho ⊢
      rw [hself] at ho
      cases hin : inside (Smp.step mp w.smp b) b with
      | none =>
        rw [hin] at ho
        exact absurd ho (by simp)
      | some d =>
        rw [hin] at ho
        dsimp only at ho
        split_ifs at ho
        · exact ⟨d, rfl, ho⟩
        · exact absurd ho (by simp)
    · rw [CpuSetup.advance] at ho ⊢
      dsimp only at ho ⊢
      rw [hother _ b hb] at ho
      rw [inside_other hb]
      exact h.part b o ho
  · by_cases hba : b = a
    · subst hba
      change inside (Smp.step mp w.smp b) b = some d at hb
      have hout : inside w.smp b = none := by
        by_contra hin
        obtain ⟨e, he⟩ := Option.ne_none_iff_exists'.mp hin
        rw [(step_inside he).1] at hb
        exact absurd hb (by simp)
      obtain ⟨t, k, hrun, hk, -⟩ := initCpu_runs gdtAddress htss kstackTop d w.tables (w.cores b)
      refine ⟨t, k, ?_, hk⟩
      rw [CpuSetup.advance]
      dsimp only
      rw [hself, hb]
      dsimp only
      rw [if_pos hout]
      exact hrun
    · change inside (Smp.step mp w.smp a) b = some d at hb
      rw [inside_other hba] at hb
      obtain ⟨t, k, hrun, hk⟩ := h.busy b d hb
      refine ⟨t, k, ?_, hk⟩
      rw [CpuSetup.advance]
      dsimp only
      rw [hother _ b hba]
      exact hrun
  · refine ⟨(h.gs b).1, fun hout => ?_⟩
    change inside (Smp.step mp w.smp a) b = none at hout
    change (w.cores b).gsBase = none
    by_cases hba : b = a
    · subst hba
      cases hin : inside w.smp b with
      | none => exact (h.gs b).2 hin
      | some d => exact (hload d hin).gsBase
    · rw [inside_other hba] at hout
      exact (h.gs b).2 hout
  · change (Smp.step mp w.smp a).ready d = true at hr
    cases hin : inside w.smp a with
    | none =>
      rw [step_outside hin] at hr
      obtain ⟨b, hid, hb⟩ := h.loaded d hd hr
      refine ⟨b, hid, fun hout => ?_⟩
      change inside (Smp.step mp w.smp a) b = none at hout
      by_cases hba : b = a
      · exact hb (hba ▸ hin)
      · rw [inside_other hba] at hout
        exact hb hout
    | some e =>
      rcases ((step_inside hin).2 d).mp hr with rfl | hr
      · exact ⟨a, inside_id hinv hin, fun _ => hload d hin⟩
      · obtain ⟨b, hid, hb⟩ := h.loaded d hd hr
        refine ⟨b, hid, fun hout => ?_⟩
        change inside (Smp.step mp w.smp a) b = none at hout
        by_cases hba : b = a
        · rw [hba]
          exact hload e hin
        · rw [inside_other hba] at hout
          exact hb hout

theorem swapGs_same (vector : ℕ) {k : Core} (h : k.kernelGsBase = k.gsBase) :
    swapGs vector k = k := by
  obtain ⟨gs, kernelGs, code, data, tr⟩ := k
  obtain rfl : kernelGs = gs := h
  rw [swapGs]
  split_ifs <;> rfl

theorem Sound.interrupt (h : Sound mp gdtAddress tssAddress kstackTop w) (vector : ℕ)
    (hout : inside w.smp a = none) :
    Sound mp gdtAddress tssAddress kstackTop
      { w with cores := Function.update w.cores a (swapGs vector (w.cores a)) } := by
  have hsame : swapGs vector (w.cores a) = w.cores a :=
    swapGs_same vector ((h.gs a).1.trans ((h.gs a).2 hout).symm)
  rw [hsame, Function.update_eq_self]
  exact h

theorem Sound.step (h : Sound mp gdtAddress tssAddress kstackTop w) (htss : tssAddress < 2^64)
    (hfew : mp.cpuCount < 2^32) (act : Act) :
    Sound mp gdtAddress tssAddress kstackTop (step mp gdtAddress tssAddress kstackTop w act) := by
  cases act with
  | cpu a =>
    rw [CpuSetup.step]
    split
    · rename_i o os ha
      exact h.access ha
    · rename_i ha
      exact h.advance htss hfew ha
  | interrupt a vector =>
    rw [CpuSetup.step]
    split_ifs with hout
    · exact h.interrupt vector hout
    · exact h

/-- The state in which `emk_entry` calls `smp_init`: it has run `gdt_init` itself. -/
structure Start (mp : MpResponse) (w : World) : Prop where
  smp : Booted mp w.smp
  calm : w.faulted = false
  described : Described w.tables
  todo : ∀ a, w.todo a = []
  gs : ∀ a, (w.cores a).gsBase = none ∧ (w.cores a).kernelGsBase = none

theorem Start.sound (h : Start mp w) : Sound mp gdtAddress tssAddress kstackTop w := by
  have hout : ∀ a, inside w.smp a = none := by
    intro a
    cases a with
    | bsp => rw [inside, h.smp.bsp]
    | ap j => rw [inside, h.smp.aps j]
  refine ⟨⟨0, ∅, h.smp.inv⟩, h.calm, h.described, fun a o ho => ?_, fun a c ha => ?_, fun a => ?_,
    fun c hc hr => ?_⟩
  · rw [h.todo a] at ho
    exact absurd ho (by simp)
  · rw [hout a] at ha
    exact absurd ha (by simp)
  · exact ⟨(h.gs a).2, fun _ => (h.gs a).1⟩
  · rw [h.smp.ready c hc] at hr
    exact absurd hr (by simp)

end Runs

/-- In every order of the steps one processor at a time is in `init_cpu`, no
descriptor it loads is refused, the descriptors of the shared table stay as
they are, and the processor of a ready flag has loaded its registers. Outside
`init_cpu` the base of `%gs` is zero, so that `get_cpu_local` looks the record
up. -/
theorem init_cpu_alone (mp : MpResponse) (gdtAddress tssAddress kstackTop : ℕ) (w₀ : World)
    (hstart : Start mp w₀) (htss : tssAddress < 2^64) (hfew : mp.cpuCount < 2^32)
    (acts : List Act) :
    let w := run (step mp gdtAddress tssAddress kstackTop) w₀ acts
    w.faulted = false ∧ Described w.tables ∧
      (∀ a b c d, inside w.smp a = some c → inside w.smp b = some d → a = b) ∧
      (∀ c < mp.cpuCount, w.smp.ready c = true → ∃ a, lapicIdOf mp a = mp.lapicId c ∧
        (inside w.smp a = none → Loaded tssAddress (w.cores a))) ∧
      ∀ a id, inside w.smp a = none → getCpuLocal w a id = findCpu w.smp id := by
  have h : Sound mp gdtAddress tssAddress kstackTop
      (run (step mp gdtAddress tssAddress kstackTop) w₀ acts) := by
    apply run_invariant (fun w act h _ => h.step htss hfew act) hstart.sound
    exact along_of_forall (P := fun _ => True) fun _ _ => trivial
  obtain ⟨i, S, hinv⟩ := h.smp
  refine ⟨h.calm, h.described, fun a b c d ha hb => inside_alone hinv ha hb, h.loaded, ?_⟩
  intro a id hout
  rw [getCpuLocal, (h.gs a).2 hout]
  rfl

def twoTables : Tables := ((runOps 0x1000 0x2000 {} {} gdtInit).map Prod.fst).getD {}

/-- Two processors after `smp_early_init`. -/
def twoWorld : World where
  smp := (smpEarlyInit {} (some twoCpus)).getD {}
  tables := twoTables

/-- Both processors set themselves up, with interrupts in between. -/
def twoSetup : List Act :=
  List.replicate 20 (.cpu .bsp) ++ [.cpu (.ap 1), .interrupt .bsp 33, .cpu .bsp] ++
    List.replicate 19 (.cpu (.ap 1))

theorem init_cpu_alone_two :
    let w := run (step twoCpus 0x1000 0x2000 0x9000) twoWorld twoSetup
    w.smp.ready 1 = true ∧ ∃ a, lapicIdOf twoCpus a = twoCpus.lapicId 1 ∧
      (inside w.smp a = none → Loaded 0x2000 (w.cores a)) := by
  have hstart : Start twoCpus twoWorld :=
    ⟨(smpEarlyInit_booted rfl).1, rfl, ⟨rfl, rfl, rfl, rfl⟩, fun _ => rfl, fun _ => ⟨rfl, rfl⟩⟩
  have h := init_cpu_alone twoCpus 0x1000 0x2000 0x9000 twoWorld hstart (by decide) (by decide)
    twoSetup
  have hready : (run (step twoCpus 0x1000 0x2000 0x9000) twoWorld twoSetup).smp.ready 1 = true := by
    decide +kernel
  exact ⟨hready, h.2.2.2.1 1 (by decide) hready⟩

end Emk.CpuSetup
