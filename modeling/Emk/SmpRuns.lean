import Emk.Smp
import Mathlib.Data.Finset.Card

/-!
# Every order of the steps that bring up the CPUs

A processor sets its ready flag before it counts itself, and the bootstrap
processor waits for the flags only. When it compares the counter, the missing
processors are exactly those between these two steps.
-/

set_option autoImplicit false

namespace Emk.SmpRuns
open Emk.Smp Emk.Transition

/-- What `smp_early_init` leaves behind. -/
structure Booted (mp : MpResponse) (w : World) : Prop where
  cpuCount : w.cpuCount = mp.cpuCount
  bootstrap : w.bootstrapLapicId = mp.bspLapicId
  started : w.startedCpus = 0
  lapicId : ∀ j < mp.cpuCount, (w.cpuLocals j).lapicId = mp.lapicId j
  ready : ∀ j < mp.cpuCount, w.ready j = false
  goto : ∀ j, w.gotoAddress j = false
  bsp : w.bsp = .loop 0
  aps : ∀ j, w.aps j = .parked

theorem smpEarlyInit_booted {mp : MpResponse} {w : World}
    (h : smpEarlyInit {} (some mp) = some w) : Booted mp w ∧ mp.cpuCount ≤ Sched.maxCpus := by
  rw [smpEarlyInit] at h
  split_ifs at h with hmany
  obtain rfl := Option.some.inj h
  refine ⟨⟨rfl, rfl, rfl, ?_, ?_, fun _ => rfl, rfl, fun _ => rfl⟩, by omega⟩
  · intro j hj
    exact congrArg CpuLocal.lapicId (if_pos hj)
  · intro j hj
    exact congrArg CpuLocal.ready (if_pos hj)

/-- A processor that has set the ready flag of `cpu`. -/
def Signalled (a : Ap) (cpu : ℕ) : Prop := a = .published cpu ∨ a = .running cpu

/-- The bootstrap processor is at the `i`-th CPU. -/
def BspAt (mp : MpResponse) (i : ℕ) : Bsp → Prop
  | .loop j => j = i
  | .own j => j = i ∧ i < mp.cpuCount ∧ mp.lapicId i = mp.bspLapicId
  | .count j => j = i ∧ i < mp.cpuCount ∧ mp.lapicId i = mp.bspLapicId
  | .poll j _ => j = i ∧ i < mp.cpuCount ∧ mp.lapicId i ≠ mp.bspLapicId
  | .recheck j => j = i ∧ i < mp.cpuCount ∧ mp.lapicId i ≠ mp.bspLapicId
  | .compare => i = mp.cpuCount
  | .returned => i = mp.cpuCount
  | .panicked => True

/-- The first `i` CPUs have set their flags, and the CPUs in `S` have counted themselves. -/
structure Inv (mp : MpResponse) (i : ℕ) (S : Finset ℕ) (w : World) : Prop where
  cpuCount : w.cpuCount = mp.cpuCount
  bootstrap : w.bootstrapLapicId = mp.bspLapicId
  lapicId : ∀ j < mp.cpuCount, (w.cpuLocals j).lapicId = mp.lapicId j
  bound : i ≤ mp.cpuCount
  bsp : BspAt mp i w.bsp
  sent : ∀ j, w.gotoAddress j = true → j < mp.cpuCount ∧ j ≤ i ∧ mp.lapicId j ≠ mp.bspLapicId
  woken : ∀ j, w.aps j ≠ .parked → w.gotoAddress j = true
  first : ∀ j c, w.aps j = .entered c ∨ Signalled (w.aps j) c →
    c ≤ j ∧ mp.lapicId c = mp.lapicId j
  flag : ∀ c < mp.cpuCount, w.ready c = true →
    mp.lapicId c = mp.bspLapicId ∨ ∃ j, Signalled (w.aps j) c
  passed : ∀ j < i, mp.lapicId j ≠ mp.bspLapicId → ∃ c, Signalled (w.aps j) c
  counted : ∀ j, j ∈ S ↔ (j < i ∧ mp.lapicId j = mp.bspLapicId) ∨ ∃ c, w.aps j = .running c
  started : w.startedCpus = S.card

variable {mp : MpResponse} {i : ℕ} {S : Finset ℕ} {w : World}

theorem Booted.inv (h : Booted mp w) : Inv mp 0 ∅ w where
  cpuCount := h.cpuCount
  bootstrap := h.bootstrap
  lapicId := h.lapicId
  bound := Nat.zero_le _
  bsp := by
    rw [h.bsp]
    rfl
  sent := fun j hj => absurd hj (by simp [h.goto j])
  woken := fun j hj => absurd (h.aps j) hj
  first := by
    intro j c hj
    simp [Signalled, h.aps j] at hj
  flag := fun c hc hr => absurd hr (by simp [h.ready c hc])
  passed := fun j hj => absurd hj (Nat.not_lt_zero j)
  counted := by
    intro j
    simp [h.aps j]
  started := h.started

section Bootstrap

/-- Only the position of the bootstrap processor changes. -/
theorem Inv.goto (h : Inv mp i S w) {pc : Bsp} (hpc : BspAt mp i pc) : Inv mp i S (w.goto pc) :=
  { h with bsp := hpc }

theorem Inv.dispatch (h : Inv mp i S w) (hi : i < mp.cpuCount)
    (hother : mp.lapicId i ≠ mp.bspLapicId) :
    Inv mp i S
      { w.goto (.poll i 0) with gotoAddress := Function.update w.gotoAddress i true } := by
  refine { h with bsp := ⟨rfl, hi, hother⟩, sent := fun j hj => ?_, woken := fun j hj => ?_ }
  · by_cases hji : j = i
    · rw [hji]
      exact ⟨hi, le_refl i, hother⟩
    · dsimp only at hj
      rw [Function.update_of_ne hji] at hj
      exact h.sent j hj
  · by_cases hji : j = i
    · rw [hji]
      exact Function.update_self _ _ _
    · exact (Function.update_of_ne hji _ _).trans (h.woken j hj)

theorem ready_setReady (w : World) (c d : ℕ) :
    (w.setReady c).ready d = true ↔ d = c ∨ w.ready d = true := by
  by_cases hd : d = c
  · simp [World.ready, World.setReady, hd]
  · simp [World.ready, World.setReady, hd]

theorem lapicId_setReady (w : World) (c d : ℕ) :
    ((w.setReady c).cpuLocals d).lapicId = (w.cpuLocals d).lapicId := by
  by_cases hd : d = c
  · simp [World.setReady, hd]
  · simp [World.setReady, hd]

theorem Inv.own (h : Inv mp i S w) (hi : i < mp.cpuCount) (hown : mp.lapicId i = mp.bspLapicId) :
    Inv mp i S ((w.setReady i).goto (.count i)) := by
  refine { h with
    bsp := ⟨rfl, hi, hown⟩
    lapicId := fun j hj => (lapicId_setReady w i j).trans (h.lapicId j hj)
    flag := fun c hc hr => ?_ }
  rcases (ready_setReady w i c).mp hr with rfl | hr
  · exact .inl hown
  · exact h.flag c hc hr

theorem Inv.subset (h : Inv mp i S w) : S ⊆ Finset.range mp.cpuCount := by
  intro j hj
  rw [Finset.mem_range]
  rcases (h.counted j).mp hj with ⟨hj, -⟩ | ⟨c, hc⟩
  · exact lt_of_lt_of_le hj h.bound
  · exact (h.sent j (h.woken j (by simp [hc]))).1

/-- One more processor counts itself; the counter does not overflow. -/
theorem Inv.card (h : Inv mp i S w) (hfew : mp.cpuCount < 2^32) {j : ℕ} (hj : j < mp.cpuCount)
    (hnew : j ∉ S) : w.increment.startedCpus = (insert j S).card := by
  have hsub : insert j S ⊆ Finset.range mp.cpuCount :=
    Finset.insert_subset (Finset.mem_range.mpr hj) h.subset
  have hle := Finset.card_le_card hsub
  rw [Finset.card_range, Finset.card_insert_of_notMem hnew] at hle
  rw [World.increment, Finset.card_insert_of_notMem hnew]
  dsimp only
  rw [h.started, Nat.mod_eq_of_lt (by omega)]

theorem Inv.count (h : Inv mp i S w) (hfew : mp.cpuCount < 2^32) (hi : i < mp.cpuCount)
    (hown : mp.lapicId i = mp.bspLapicId) :
    Inv mp (i+1) (insert i S) (w.increment.goto (.loop (i+1))) := by
  have hnew : i ∉ S := by
    intro hin
    rcases (h.counted i).mp hin with ⟨hlt, -⟩ | ⟨c, hc⟩
    · exact absurd hlt (Nat.lt_irrefl i)
    · exact (h.sent i (h.woken i (by simp [hc]))).2.2 hown
  refine { h with
    bound := hi
    bsp := rfl
    sent := fun j hj => ?_
    passed := fun j hj hother => ?_
    counted := fun j => ?_
    started := h.card hfew hi hnew }
  · obtain ⟨h1, h2, h3⟩ := h.sent j hj
    exact ⟨h1, by omega, h3⟩
  · refine h.passed j ?_ hother
    have hne : j ≠ i := fun he => hother (he ▸ hown)
    omega
  · rw [Finset.mem_insert, h.counted, ← or_assoc]
    refine or_congr_left ⟨?_, ?_⟩
    · rintro (rfl | ⟨hlt, hj⟩)
      · exact ⟨by omega, hown⟩
      · exact ⟨by omega, hj⟩
    · rintro ⟨hlt, hj⟩
      by_cases he : j = i
      · exact .inl he
      · exact .inr ⟨by omega, hj⟩

/-- The flag that the bootstrap processor sees was set by the processor it waits for. -/
theorem Inv.next (h : Inv mp i S w) (hi : i < mp.cpuCount) (hother : mp.lapicId i ≠ mp.bspLapicId)
    (hready : w.ready i = true) : Inv mp (i+1) S (w.goto (.loop (i+1))) := by
  obtain ⟨j, hj⟩ := (h.flag i hi hready).resolve_left hother
  have hwoken : w.aps j ≠ .parked := by
    intro hp
    simp [Signalled, hp] at hj
  have hle := (h.sent j (h.woken j hwoken)).2.1
  have hge := (h.first j i (.inr hj)).1
  obtain rfl : j = i := Nat.le_antisymm hle hge
  refine { h with
    bound := hi
    bsp := rfl
    sent := fun d hd => ?_
    passed := fun d hd hne => ?_
    counted := fun d => ?_ }
  · obtain ⟨h1, h2, h3⟩ := h.sent d hd
    exact ⟨h1, by omega, h3⟩
  · by_cases he : d = j
    · exact ⟨j, he ▸ hj⟩
    · exact h.passed d (by omega) hne
  · rw [h.counted]
    refine or_congr_left ⟨fun hd => ⟨by omega, hd.2⟩, fun hd => ⟨?_, hd.2⟩⟩
    have hne : d ≠ j := fun he => hother (he ▸ hd.2)
    omega

theorem Inv.bspStep (h : Inv mp i S w) (hfew : mp.cpuCount < 2^32) :
    ∃ i' S', Inv mp i' S' (bspStep mp w) := by
  have hat := h.bsp
  rw [Smp.bspStep]
  split
  · rename_i j hpc
    rw [hpc] at hat
    obtain rfl : j = i := hat
    rw [h.cpuCount, h.bootstrap]
    split_ifs with hlt hown
    · exact ⟨j, S, h.goto ⟨rfl, hlt, hown⟩⟩
    · exact ⟨j, S, h.dispatch hlt hown⟩
    · exact ⟨j, S, h.goto (Nat.le_antisymm h.bound (by omega))⟩
  · rename_i j hpc
    rw [hpc] at hat
    obtain ⟨rfl, hlt, hown⟩ := hat
    exact ⟨j, S, h.own hlt hown⟩
  · rename_i j hpc
    rw [hpc] at hat
    obtain ⟨rfl, hlt, hown⟩ := hat
    exact ⟨j+1, insert j S, h.count hfew hlt hown⟩
  · rename_i j timeout hpc
    rw [hpc] at hat
    obtain ⟨rfl, hlt, hother⟩ := hat
    split_ifs
    · exact ⟨j, S, h.goto ⟨rfl, hlt, hother⟩⟩
    · exact ⟨j, S, h.goto ⟨rfl, hlt, hother⟩⟩
  · rename_i j hpc
    rw [hpc] at hat
    obtain ⟨rfl, hlt, hother⟩ := hat
    split_ifs with hready
    · exact ⟨j, S, h.goto trivial⟩
    · exact ⟨j+1, S, h.next hlt hother (by simpa using hready)⟩
  · rename_i hpc
    rw [hpc] at hat
    split_ifs
    · exact ⟨i, S, h.goto trivial⟩
    · exact ⟨i, S, h.goto hat⟩
  · exact ⟨i, S, h⟩
  · exact ⟨i, S, h⟩

end Bootstrap

section Others

theorem findCpu_some {id c : ℕ} (h : findCpu w id = some c) :
    c < w.cpuCount ∧ (w.cpuLocals c).lapicId = id ∧
      ∀ d < c, (w.cpuLocals d).lapicId ≠ id := by
  obtain ⟨heq, hc, hlow⟩ := List.find?_range_eq_some.mp h
  refine ⟨List.mem_range.mp hc, of_decide_eq_true heq, fun d hd => ?_⟩
  simpa using hlow d hd

theorem aps_setAp (w : World) (j d : ℕ) (a : Ap) :
    (w.setAp j a).aps d = if d = j then a else w.aps d := Function.update_apply _ _ _ _

/-- A step of one processor, by what it leaves behind. -/
theorem Inv.setAp (h : Inv mp i S w) {j : ℕ} {a : Ap} (hgo : w.gotoAddress j = true)
    (hfirst : ∀ c, a = .entered c ∨ Signalled a c → c ≤ j ∧ mp.lapicId c = mp.lapicId j)
    (hkeep : ∀ c, Signalled (w.aps j) c → Signalled a c)
    (hcount : (∃ c, a = .running c) ↔ ∃ c, w.aps j = .running c) :
    Inv mp i S (w.setAp j a) := by
  have hmono : ∀ d c, Signalled (w.aps d) c → Signalled ((w.setAp j a).aps d) c := by
    intro d c hd
    rw [aps_setAp]
    split_ifs with he
    · exact hkeep c (he ▸ hd)
    · exact hd
  refine { h with woken := ?_, first := ?_, flag := ?_, passed := ?_, counted := ?_ }
  · intro d hd
    rw [aps_setAp] at hd
    split_ifs at hd with he
    · rw [he]
      exact hgo
    · exact h.woken d hd
  · intro d c hd
    rw [aps_setAp] at hd
    split_ifs at hd with he
    · rw [he]
      exact hfirst c hd
    · exact h.first d c hd
  · intro c hc hr
    exact (h.flag c hc hr).imp_right (fun ⟨d, hd⟩ => ⟨d, hmono d c hd⟩)
  · intro d hd hne
    obtain ⟨c, hc⟩ := h.passed d hd hne
    exact ⟨c, hmono d c hc⟩
  · intro d
    rw [h.counted, aps_setAp]
    split_ifs with he
    · rw [he, hcount]
    · rfl

/-- The flag is set together with the step that records it. -/
theorem Inv.setReady (h : Inv mp i S w) {j c : ℕ} (hj : Signalled (w.aps j) c) :
    Inv mp i S (w.setReady c) := by
  refine { h with
    lapicId := fun d hd => (lapicId_setReady w c d).trans (h.lapicId d hd)
    flag := fun d hd hr => ?_ }
  rcases (ready_setReady w c d).mp hr with rfl | hr
  · exact .inr ⟨j, hj⟩
  · exact h.flag d hd hr

/-- The step in which a processor counts itself. -/
theorem Inv.join (h : Inv mp i S w) (hfew : mp.cpuCount < 2^32) {j c : ℕ}
    (hj : w.aps j = .published c) :
    Inv mp i (insert j S) (w.increment.setAp j (.running c)) := by
  have hsent := h.sent j (h.woken j (by simp [hj]))
  have hnew : j ∉ S := by
    intro hin
    rcases (h.counted j).mp hin with ⟨-, hown⟩ | ⟨d, hd⟩
    · exact hsent.2.2 hown
    · simp [hj] at hd
  have hsig : ∀ d e, Signalled ((w.setAp j (.running c)).aps d) e ↔ Signalled (w.aps d) e := by
    intro d e
    rw [aps_setAp]
    split_ifs with he
    · simp [Signalled, he, hj]
    · rfl
  refine { h with
    woken := fun d hd => ?_
    first := fun d e hd => ?_
    flag := fun e he hr => (h.flag e he hr).imp_right fun ⟨d, hd⟩ => ⟨d, (hsig d e).mpr hd⟩
    passed := fun d hd hne => ?_
    counted := fun d => ?_
    started := h.card hfew hsent.1 hnew }
  · refine h.woken d fun hp => hd ?_
    change (w.setAp j (.running c)).aps d = .parked
    rw [aps_setAp, if_neg (fun he => by simp [← he, hp] at hj), hp]
  · rcases hd with hd | hd
    · change (w.setAp j (.running c)).aps d = .entered e at hd
      rw [aps_setAp] at hd
      split_ifs at hd
      exact h.first d e (.inl hd)
    · exact h.first d e (.inr ((hsig d e).mp hd))
  · obtain ⟨e, he⟩ := h.passed d hd hne
    exact ⟨e, (hsig d e).mpr he⟩
  · change _ ↔ _ ∨ ∃ e, (w.setAp j (.running c)).aps d = .running e
    rw [Finset.mem_insert, h.counted, aps_setAp]
    split_ifs with he
    · simp [he]
    · simp [he]

theorem Inv.apStep (h : Inv mp i S w) (hfew : mp.cpuCount < 2^32) (j : ℕ) :
    ∃ S', Inv mp i S' (apStep mp j w) := by
  rw [Smp.apStep]
  split
  · rename_i hj
    split_ifs with hgo
    · split
      · rename_i c hc
        obtain ⟨-, hid, hlow⟩ := findCpu_some hc
        have hsent := h.sent j hgo
        refine ⟨S, h.setAp hgo ?_ (by simp [Signalled, hj]) (by simp [hj])⟩
        intro d hd
        obtain rfl : c = d := by simpa [Signalled] using hd
        have hle : c ≤ j := by
          by_contra hlt
          exact hlow j (by omega) (h.lapicId j hsent.1)
        exact ⟨hle, by rw [← h.lapicId c (by omega), hid]⟩
      · exact ⟨S, h.setAp hgo (by simp [Signalled]) (by simp [Signalled, hj]) (by simp [hj])⟩
    · exact ⟨S, h⟩
  · rename_i c hj
    refine ⟨S, ?_⟩
    have hset := h.setAp (j := j) (a := .published c) (h.woken j (by simp [hj])) ?_
      (by simp [Signalled, hj]) (by simp [hj])
    · exact hset.setReady (j := j) (.inl (by rw [aps_setAp, if_pos rfl]))
    · intro d hd
      obtain rfl : c = d := by simpa [Signalled] using hd
      exact h.first j c (.inl hj)
  · rename_i c hj
    exact ⟨insert j S, h.join hfew hj⟩
  · exact ⟨S, h⟩
  · exact ⟨S, h⟩

end Others

theorem run_inv {w₀ : World} (h : Booted mp w₀) (hfew : mp.cpuCount < 2^32) (acts : List Actor) :
    ∃ i S, Inv mp i S (run (step mp) w₀ acts) := by
  refine run_invariant (I := fun w => ∃ i S, Inv mp i S w) (C := fun _ _ => True) ?_
    ⟨0, ∅, h.inv⟩ (along_of_forall (P := fun _ => True) fun _ _ => trivial)
  rintro w (_ | j) ⟨i, S, h⟩ -
  · exact h.bspStep hfew
  · obtain ⟨S', h'⟩ := h.apStep hfew j
    exact ⟨i, S', h'⟩

/-- Whatever the order of the steps, once every ready flag was seen in time the
last comparison succeeds exactly when no processor is between setting its flag
and counting itself. -/
theorem bring_up_succeeds_iff (mp : MpResponse) (w₀ : World) (acts : List Actor)
    (hboot : Booted mp w₀) (hfew : mp.cpuCount < 2^32)
    (hcompare : (run (step mp) w₀ acts).bsp = .compare) :
    (step mp (run (step mp) w₀ acts) .bsp).bsp = .returned ↔
      ∀ j c, (run (step mp) w₀ acts).aps j ≠ .published c := by
  obtain ⟨i, S, h⟩ := run_inv hboot hfew acts
  have hat := h.bsp
  rw [hcompare] at hat
  obtain rfl : i = mp.cpuCount := hat
  have hall : S.card = mp.cpuCount ↔ S = Finset.range mp.cpuCount := by
    constructor
    · intro hc
      exact Finset.eq_of_subset_of_card_le h.subset (by rw [hc, Finset.card_range])
    · intro hs
      rw [hs, Finset.card_range]
  have hstep : (step mp (run (step mp) w₀ acts) .bsp).bsp = .returned ↔ S.card = mp.cpuCount := by
    rw [step, bspStep, hcompare]
    dsimp only
    rw [h.started, h.cpuCount]
    split_ifs with hne
    · simpa [World.goto] using hne
    · simpa [World.goto] using hne
  rw [hstep, hall]
  constructor
  · intro hs j c hj
    have hin := (h.sent j (h.woken j (by simp [hj]))).1
    rcases (h.counted j).mp (hs ▸ Finset.mem_range.mpr hin) with ⟨-, hown⟩ | ⟨d, hd⟩
    · exact (h.sent j (h.woken j (by simp [hj]))).2.2 hown
    · simp [hj] at hd
  · intro hno
    refine Finset.Subset.antisymm h.subset fun j hj => (h.counted j).mpr ?_
    have hlt := Finset.mem_range.mp hj
    by_cases hown : mp.lapicId j = mp.bspLapicId
    · exact .inl ⟨hlt, hown⟩
    · obtain ⟨c, hc | hc⟩ := h.passed j hlt hown
      · exact absurd hc (hno j c)
      · exact .inr ⟨c, hc⟩

def twoCpus : MpResponse := ⟨2, 0, id⟩

/-- The second processor takes `n` steps before the bootstrap processor looks. -/
def afterSteps (n : ℕ) : List Actor :=
  List.replicate 4 .bsp ++ List.replicate n (.ap 1) ++ List.replicate 3 .bsp

theorem bring_up_succeeds_iff_two :
    ∃ w₀, smpEarlyInit {} (some twoCpus) = some w₀ ∧
      (run (step twoCpus) w₀ (afterSteps 3)).bsp = .compare ∧
      ((step twoCpus (run (step twoCpus) w₀ (afterSteps 3)) .bsp).bsp = .returned ↔
        ∀ j c, (run (step twoCpus) w₀ (afterSteps 3)).aps j ≠ .published c) := by
  refine ⟨_, rfl, by decide, ?_⟩
  exact bring_up_succeeds_iff twoCpus _ (afterSteps 3) (smpEarlyInit_booted rfl).1 (by decide)
    (by decide)

/-- The flag is set but the counter is not yet incremented: the bootstrap
processor sees the flag and panics. -/
theorem bring_up_panics_early :
    ∃ w₀, smpEarlyInit {} (some twoCpus) = some w₀ ∧
      (run (step twoCpus) w₀ (afterSteps 2)).bsp = .compare ∧
      (∀ i < 2, (run (step twoCpus) w₀ (afterSteps 2)).ready i = true) ∧
      (step twoCpus (run (step twoCpus) w₀ (afterSteps 2)) .bsp).bsp = .panicked :=
  ⟨_, rfl, by decide, by decide, by decide⟩

end Emk.SmpRuns
