import Mathlib.Data.List.Rotate
import Emk.SchedDispatch

/-!
# Round robin

When no process exits, every tick enters the next process of the table and
resumes it with the frame that was saved when it was last preempted.
-/

set_option autoImplicit false

namespace Emk.SchedRotation
open Emk.DirectMap Emk.PageAllocator Emk.Vmm Emk.Calls Emk.Sched Emk.CursorScan
open Emk.ReferenceAllocator
open Emk.SchedDispatch (Fit Dispatched Strands)

variable {σ : Type}

/-- All processes are ready, except that the current one may be running. -/
structure Rotating (cpu : ℕ) (k : Kernel σ) : Prop where
  table : Table (k.scheds cpu)
  current : (k.scheds cpu).currentPid < (k.scheds cpu).count
  slice : ∀ i < (k.scheds cpu).count,
    (k.pcbs ((k.scheds cpu).procs i)).timeslice = procDefaultTime
  state : ∀ i < (k.scheds cpu).count, (k.pcbs ((k.scheds cpu).procs i)).state = .ready ∨
    ((k.pcbs ((k.scheds cpu).procs i)).state = .running ∧ i = (k.scheds cpu).currentPid)

/-- `pmset` accepts the page map of every process. -/
def Mapped (hhdmOffset cpu : ℕ) (k : Kernel σ) : Prop :=
  ∀ i < (k.scheds cpu).count, (k.pcbs ((k.scheds cpu).procs i)).pagemap ≠ 0 ∧
    isPageAligned (physical hhdmOffset (k.pcbs ((k.scheds cpu).procs i)).pagemap) = true

instance decidableMapped (hhdmOffset cpu : ℕ) (k : Kernel σ) :
    Decidable (Mapped hhdmOffset cpu k) :=
  inferInstanceAs (Decidable (∀ i < (k.scheds cpu).count, _ ∧ _))

/-- A series of ticks with the process that is current and the frame after each. -/
def ticks (A : Ops σ) (hhdmOffset kernelPagemap cpu : ℕ) :
    List RegisterCtx → Kernel σ → Option (List (ℕ × RegisterCtx) × Kernel σ)
  | [], k => some ([], k)
  | frame::frames, k =>
    match schedTick A hhdmOffset kernelPagemap cpu (some frame) k with
    | (some (some out), k') => (ticks A hhdmOffset kernelPagemap cpu frames k').map fun r =>
        (((k'.scheds cpu).procs (k'.scheds cpu).currentPid, out)::r.1, r.2)
    | _ => none

/-- The current process has been entered. -/
def Running (cpu : ℕ) (k : Kernel σ) : Prop :=
  (k.pcbs ((k.scheds cpu).procs (k.scheds cpu).currentPid)).state = .running

instance decidableRunning (cpu : ℕ) (k : Kernel σ) : Decidable (Running cpu k) :=
  inferInstanceAs (Decidable (_ = _))

/-- The process that tick `t` enters. -/
def turn (cpu : ℕ) (k : Kernel σ) (t : ℕ) : ℕ :=
  (k.scheds cpu).procs (((k.scheds cpu).currentPid+t+1) % (k.scheds cpu).count)

/-- Tick `t` enters a process that was on the CPU before tick `t+1-count`, if
it was ever on the CPU. -/
def Resumes (cpu : ℕ) (k : Kernel σ) (frames : List RegisterCtx) (t : ℕ)
    (out : RegisterCtx) : Prop :=
  if (k.scheds cpu).count ≤ t ∨ (t+1 = (k.scheds cpu).count ∧ Running cpu k) then
    frames[t+1-(k.scheds cpu).count]? = some out
  else out = (k.pcbs (turn cpu k t)).ctx

variable {A : Ops σ} {hhdmOffset kernelPagemap cpu : ℕ} {k k' : Kernel σ} {frame out : RegisterCtx}

theorem Rotating.live (h : Rotating cpu k) {p : ℕ} (hp : p ∈ entries (k.scheds cpu)) :
    ¬ Gone k p := by
  obtain ⟨i, hi, rfl⟩ := mem_entries.mp hp
  rw [Gone]
  rcases h.state i hi with hs | ⟨hs, -⟩ <;> simp [hs]

theorem Rotating.fit (h : Rotating cpu k) : Fit cpu k where
  idle := fun h0 => absurd h.current (by omega)
  current := fun _ => ⟨h.current, h.live (mem_entries.mpr ⟨_, h.current, rfl⟩)⟩
  state := fun i hi => (h.state i hi).imp_right .inr
  slice := h.slice

theorem Rotating.settled (h : Rotating cpu k) :
    Settled cpu (some ((k.scheds cpu).procs (k.scheds cpu).currentPid)) k where
  table := h.table
  slice := h.slice
  state := fun i hi => (h.state i hi).imp_right (fun ⟨hs, hi⟩ => ⟨hs, hi, by rw [hi]⟩)

section Tick

variable (A kernelPagemap) in
theorem tick_returns (h : Rotating cpu k) (hm : Mapped hhdmOffset cpu k) (frame : RegisterCtx) :
    ∃ out k', schedTick A hhdmOffset kernelPagemap cpu (some frame) k = (some (some out), k') := by
  rw [schedTick_busy (by have := h.current; omega)]
  obtain ⟨ps, cs, hsave, hready, -⟩ := saveCurrent_ready
    (k := { k with locks := k.locks ++ [.acquire cpu] }) (h.settled.congr rfl rfl) frame
  have hps := (saveCurrent_returned cpu
    (k := { k with locks := k.locks ++ [.acquire cpu] }) hsave).1
  rw [bind_of_returned hsave, ← bind_assoc_apply]
  obtain ⟨c, hc, hnext⟩ := nextProc_orFirst A hhdmOffset
    (k := { k with locks := k.locks ++ [.acquire cpu], pcbs := ps, copies := k.copies ++ cs })
    h.table (by have := h.current; dsimp only; omega) (fun i hi => (hready i hi).1)
  rw [bind_of_returned hnext]
  have hmap := hm c hc
  have hsame : (ps ((k.scheds cpu).procs c)).pagemap =
    (k.pcbs ((k.scheds cpu).procs c)).pagemap := by
    rw [show ps = _ from hps]
    exact (saved_fate cpu frame _ _).pagemap
  rw [dispatch, bind_pure_apply, getSched, observe_bind, getPcb, observe_bind,
    if_pos ⟨h.table.filled c hc, (hready c hc).1⟩, setPcb, update_bind, pmset, if_neg]
  · exact ⟨_, _, rfl⟩
  · rw [moved_pcbs]
    dsimp only
    rw [hsame]
    rintro (h0 | hbad)
    · exact hmap.1 h0
    · rw [hmap.2] at hbad
      exact absurd hbad (by decide)

/-- The control blocks that a tick changes keep their context, except that of
the process it preempts. -/
theorem saved_ctx (h : Rotating cpu k) {i : ℕ} (hi : i < (k.scheds cpu).count) :
    (saved cpu frame k ((k.scheds cpu).procs i)).ctx =
      if i = (k.scheds cpu).currentPid ∧ Running cpu k then frame
      else (k.pcbs ((k.scheds cpu).procs i)).ctx := by
  have h0 := h.table.filled _ h.current
  rw [saved]
  by_cases hrun : Running cpu k
  · rw [if_pos ⟨h0, hrun⟩]
    by_cases he : i = (k.scheds cpu).currentPid
    · rw [if_pos ⟨he, hrun⟩, he, Function.update_self, savedPcb_expired (h.slice _ h.current)]
    · rw [if_neg (fun hc => he hc.1), Function.update_of_ne]
      exact fun hp => he (h.table.inj i hi _ h.current hp)
  · rw [if_neg (fun hc => hrun hc.2), if_neg (fun hc => hrun hc.2)]

theorem entered_ctx (next p : ℕ) (pcbs : ℕ → Pcb) : (entered next pcbs p).ctx = (pcbs p).ctx := by
  rw [entered]
  split_ifs
  · by_cases hp : p = next
    · rw [hp, Function.update_self]
    · rw [Function.update_of_ne hp]
  · rfl

/-- One tick: the next process of the table runs, and nothing else has changed
but the context of the one before. -/
structure Turned (cpu : ℕ) (frame out : RegisterCtx) (k k' : Kernel σ) : Prop where
  rotating : Rotating cpu k'
  procs : (k'.scheds cpu).procs = (k.scheds cpu).procs
  count : (k'.scheds cpu).count = (k.scheds cpu).count
  next : (k'.scheds cpu).currentPid = ((k.scheds cpu).currentPid+1) % (k.scheds cpu).count
  running : Running cpu k'
  out : out = (k'.pcbs ((k'.scheds cpu).procs (k'.scheds cpu).currentPid)).ctx
  ctx : ∀ i < (k.scheds cpu).count, (k'.pcbs ((k.scheds cpu).procs i)).ctx =
    if i = (k.scheds cpu).currentPid ∧ Running cpu k then frame
    else (k.pcbs ((k.scheds cpu).procs i)).ctx
  pagemap : ∀ p, (k'.pcbs p).pagemap = (k.pcbs p).pagemap

theorem Rotating.next_eq (h : Rotating cpu k) {next : ℕ} {gone : List ℕ}
    (htick : Ticked cpu frame out k k' next gone) :
    (k'.scheds cpu).currentPid = ((k.scheds cpu).currentPid+1) % (k.scheds cpu).count := by
  obtain ⟨low, high, hsplit, hlow, hlen⟩ := entries_split h.current
  obtain ⟨r, hscan, -, hreel⟩ := htick.scan
  have hsize : (k.scheds cpu).currentPid+1+high.length ≤ procMaxProcsPerCpu := by
    rw [hlen]
    exact h.table.bounded
  have hlive := scan_live (rounds-procMaxProcsPerCpu)
    (fun y hy => h.live (hsplit ▸ hy)) hlow hsize
  rw [Nat.sub_add_cancel (by decide), ← hsplit, entries_length] at hlive
  have hlt : ((k.scheds cpu).currentPid+1) % (k.scheds cpu).count < (k.scheds cpu).count :=
    Nat.mod_lt _ (by have := h.current; omega)
  rw [entries_get hlt] at hlive
  obtain rfl := Option.some.inj (hscan.symm.trans hlive)
  exact (congrArg Reel.cursor hreel).symm

theorem Rotating.turned (h : Rotating cpu k)
    (hr : schedTick A hhdmOffset kernelPagemap cpu (some frame) k = (some (some out), k')) :
    Turned cpu frame out k k' := by
  have hcount : (k.scheds cpu).count ≠ 0 := by
    have := h.current
    omega
  obtain ⟨_, next, gone, hout, htick⟩ := schedTick_returned h.table hcount hr
  obtain rfl := Option.some.inj hout
  have hno : ¬ Strands cpu k := by
    intro hs
    obtain ⟨hnext, hcur, hdead⟩ := h.fit.picked h.table hcount htick
    exact h.live (htick.mem (mem_entries.mpr ⟨_, hcur, hnext⟩)) (hdead.mpr hs)
  obtain ⟨hfit, hdisp⟩ := h.fit.dispatched h.table hcount htick hno
  have hgone : gone = [] := List.eq_nil_iff_forall_not_mem.mpr fun p hp =>
    h.live (htick.dead p hp).1 (htick.dead p hp).2
  have hentries : entries (k'.scheds cpu) = entries (k.scheds cpu) := by
    rw [htick.kept, hgone]
    simp
  have hlen : (k'.scheds cpu).count = (k.scheds cpu).count := by
    rw [← entries_length, hentries, entries_length]
  have hcur' := (hfit.current (by omega)).1
  refine ⟨⟨htick.table, hcur', hfit.slice, fun i hi => ?_⟩, ?_, hlen, h.next_eq htick,
    hdisp.running,
    hdisp.frame, fun i hi => ?_, fun p => (htick.fate p).pagemap⟩
  · refine (hfit.state i hi).imp_right (fun hs => hs.resolve_left (fun hg => ?_))
    exact h.live (htick.mem (mem_entries.mpr ⟨i, hi, rfl⟩)) ((htick.fate _).gone.mp hg)
  · funext i
    rw [← htick.table.get, ← h.table.get, hentries]
  · rw [htick.pcbs, entered_ctx, saved_ctx h hi]

end Tick

theorem Turned.mapped (h : Turned cpu frame out k k') (hm : Mapped hhdmOffset cpu k) :
    Mapped hhdmOffset cpu k' := by
  rw [Mapped, h.procs, h.count]
  intro i hi
  rw [h.pagemap]
  exact hm i hi

/-- The turns after a tick are those of the ticks that follow. -/
theorem Turned.turn (h : Turned cpu frame out k k') (t : ℕ) : turn cpu k' t = turn cpu k (t+1) := by
  rw [SchedRotation.turn, SchedRotation.turn, h.procs, h.count, h.next]
  congr 1
  rw [Nat.add_assoc, Nat.mod_add_mod]
  congr 1
  omega

theorem mod_back {i c m : ℕ} (hi : i < c) (h0 : 0 < m) (hm : m ≤ c) : (i+m) % c = i ↔ m = c := by
  constructor
  · intro h
    by_contra hne
    by_cases hlt : i+m < c
    · rw [Nat.mod_eq_of_lt hlt] at h
      omega
    · rw [Nat.mod_eq_sub_mod (by omega), Nat.mod_eq_of_lt (by omega)] at h
      omega
  · rintro rfl
    rw [Nat.add_mod_right, Nat.mod_eq_of_lt hi]

section Resume
variable (h : Turned cpu frame out k k') (hrot : Rotating cpu k)
include h hrot

/-- The context after the tick of a process that is entered within one round. -/
theorem Turned.ctx_turn {t : ℕ} (ht : t < (k.scheds cpu).count) :
    (k'.pcbs (SchedRotation.turn cpu k t)).ctx =
      if t+1 = (k.scheds cpu).count ∧ Running cpu k then frame
      else (k.pcbs (SchedRotation.turn cpu k t)).ctx := by
  have hback : ((k.scheds cpu).currentPid+t+1) % (k.scheds cpu).count = (k.scheds cpu).currentPid ↔
      t+1 = (k.scheds cpu).count := by
    rw [Nat.add_assoc]
    exact mod_back hrot.current (Nat.succ_pos t) ht
  rw [SchedRotation.turn, h.ctx _ (Nat.mod_lt _ (by omega))]
  simp only [hback]

theorem Turned.resumes (frames : List RegisterCtx) : Resumes cpu k (frame::frames) 0 out := by
  have hc := hrot.current
  have hout : out = (k'.pcbs (SchedRotation.turn cpu k 0)).ctx := by
    rw [h.out, h.procs, h.next, SchedRotation.turn, Nat.add_zero]
  rw [h.ctx_turn hrot (by omega)] at hout
  rw [Resumes]
  by_cases hone : 0+1 = (k.scheds cpu).count ∧ Running cpu k
  · rw [if_pos hone] at hout
    rw [if_pos (.inr hone), hout, ← hone.1]
    rfl
  · rw [if_neg hone] at hout
    rw [if_neg (fun hcase => hcase.elim (fun h0 => by omega) hone)]
    exact hout

theorem Turned.resumes_next {frames : List RegisterCtx} {t : ℕ} {out' : RegisterCtx}
    (hr : Resumes cpu k' frames t out') : Resumes cpu k (frame::frames) (t+1) out' := by
  rw [Resumes, h.count, h.turn] at hr
  rw [Resumes]
  by_cases hround : (k.scheds cpu).count ≤ t+1
  · have hcase : (k.scheds cpu).count ≤ t ∨ (t+1 = (k.scheds cpu).count ∧ Running cpu k') := by
      by_cases hle : (k.scheds cpu).count ≤ t
      · exact .inl hle
      · exact .inr ⟨by omega, h.running⟩
    rw [if_pos hcase] at hr
    rw [if_pos (.inl hround), show t+1+1-(k.scheds cpu).count = t+1-(k.scheds cpu).count+1 by omega]
    exact hr
  · rw [if_neg (fun hcase => hcase.elim (fun h0 => by omega) (fun h1 => by omega)),
      h.ctx_turn hrot (by omega)] at hr
    by_cases hlast : t+1+1 = (k.scheds cpu).count ∧ Running cpu k
    · rw [if_pos hlast] at hr
      rw [if_pos (.inr hlast), hr, hlast.1, Nat.sub_self]
      rfl
    · rw [if_neg hlast] at hr
      rw [if_neg (fun hcase => hcase.elim hround hlast)]
      exact hr

end Resume

variable (A kernelPagemap) in
/-- The processes and frames of a series of ticks. -/
theorem Rotating.ticks (h : Rotating cpu k) (hm : Mapped hhdmOffset cpu k)
    (frames : List RegisterCtx) :
    ∃ log k', SchedRotation.ticks A hhdmOffset kernelPagemap cpu frames k = some (log, k') ∧
      log.length = frames.length ∧ (frames = [] ∨ Running cpu k') ∧
      ∀ t < frames.length, ∃ out, log[t]? = some (turn cpu k t, out) ∧
        Resumes cpu k frames t out := by
  induction frames generalizing k with
  | nil => exact ⟨[], k, rfl, rfl, .inl rfl, fun t ht => absurd ht (Nat.not_lt_zero t)⟩
  | cons frame frames ih =>
    obtain ⟨out, k₁, hr⟩ := tick_returns A kernelPagemap h hm frame
    have hturn := h.turned hr
    obtain ⟨log, k', hticks, hlen, hrun, hlog⟩ := ih hturn.rotating (hturn.mapped hm)
    refine ⟨((k₁.scheds cpu).procs (k₁.scheds cpu).currentPid, out)::log, k', ?_, ?_, ?_, ?_⟩
    · rw [SchedRotation.ticks, hr]
      dsimp only
      rw [hticks, Option.map_some]
    · rw [List.length_cons, List.length_cons, hlen]
    · refine .inr (hrun.elim (fun hnil => ?_) id)
      rw [hnil] at hticks
      rw [← (Prod.mk.inj (Option.some.inj hticks)).2]
      exact hturn.running
    · intro t ht
      cases t with
      | zero =>
        refine ⟨out, ?_, hturn.resumes h frames⟩
        rw [List.getElem?_cons_zero, turn, hturn.procs, hturn.next, Nat.add_zero]
      | succ t =>
        obtain ⟨out', hget, hres⟩ := hlog t (by rw [List.length_cons] at ht; omega)
        exact ⟨out', by rw [List.getElem?_cons_succ, hget, hturn.turn], hturn.resumes_next h hres⟩

/-- Any `count` turns in a row are the table, rotated. -/
theorem turns_rotate (h : Rotating cpu k) (t : ℕ) :
    (List.range (k.scheds cpu).count).map (fun j => turn cpu k (t+j)) =
      (entries (k.scheds cpu)).rotate ((k.scheds cpu).currentPid+t+1) := by
  have hc := h.current
  apply List.ext_getElem?
  intro j
  by_cases hj : j < (k.scheds cpu).count
  · rw [List.getElem?_rotate (by rw [entries_length]; exact hj), entries_length,
      entries_get (Nat.mod_lt _ (by omega)), List.getElem?_map, List.getElem?_range hj,
        Option.map_some,
      turn]
    congr 2
    congr 1
    omega
  · rw [List.getElem?_eq_none (by simp; omega),
      List.getElem?_eq_none (by rw [List.length_rotate, entries_length]; omega)]

/-- When nobody exits, every tick leaves a process running; tick after tick
enters the processes of the table in turn and resumes each with the frame it was
preempted with, and any `count` ticks in a row enter each process once. -/
theorem round_robin (k : Kernel σ) (hrot : Rotating cpu k) (hm : Mapped hhdmOffset cpu k)
    (frames : List RegisterCtx) :
    ∃ log k', ticks A hhdmOffset kernelPagemap cpu frames k = some (log, k') ∧
      log.length = frames.length ∧ (frames = [] ∨ Running cpu k') ∧
      (∀ t < frames.length, ∃ out, log[t]? = some (turn cpu k t, out) ∧
        Resumes cpu k frames t out) ∧
      ∀ t, t+(k.scheds cpu).count ≤ frames.length →
        (((log.drop t).take (k.scheds cpu).count).map Prod.fst).Perm (entries (k.scheds cpu)) := by
  obtain ⟨log, k', hticks, hlen, hrun, hlog⟩ := hrot.ticks A kernelPagemap hm frames
  refine ⟨log, k', hticks, hlen, hrun, hlog, fun t ht => ?_⟩
  have hwindow : ((log.drop t).take (k.scheds cpu).count).map Prod.fst =
      (List.range (k.scheds cpu).count).map (fun j => turn cpu k (t+j)) := by
    apply List.ext_getElem?
    intro j
    by_cases hj : j < (k.scheds cpu).count
    · obtain ⟨out, hget, -⟩ := hlog (t+j) (by omega)
      rw [List.getElem?_map, List.getElem?_take_of_lt hj, List.getElem?_drop, hget,
        List.getElem?_map,
        List.getElem?_range hj]
      rfl
    · rw [List.getElem?_eq_none (by simp; omega), List.getElem?_eq_none (by simp; omega)]
  rw [hwindow, turns_rotate hrot]
  exact List.rotate_perm _ _

/-- Three ready processes, none of which has run. -/
def threeProcs : Kernel (List ℕ) :=
  { bootKernel 1 with
    pcbs := fun _ => withStack 0x8000 (newPcb false 0x5000 0 smallLayout.hhdmOffset bootContext.1)
    scheds := fun _ => ⟨0x3000, fun i => if i < 3 then 0x4000+i else 0, 3, 0⟩ }

theorem threeProcs_rotating : Rotating 0 threeProcs where
  table := {
    bounded := by decide
    current := by decide
    filled := by decide
    empty := fun i hi => if_neg (Nat.not_lt.mpr hi)
    inj := by decide }
  current := by decide
  slice := by decide
  state := by decide

theorem round_robin_small :
    ∃ log k', ticks smallOps smallLayout.hhdmOffset smallLayout.hhdmOffset 0
        [{ rax := 1 }, { rax := 2 }, { rax := 3 }, { rax := 4 }] threeProcs = some (log, k') ∧
      log.length = 4 ∧ Running 0 k' ∧
      (∀ t < 4, ∃ out, log[t]? = some (turn 0 threeProcs t, out) ∧
        Resumes 0 threeProcs [{ rax := 1 }, { rax := 2 }, { rax := 3 }, { rax := 4 }] t out) ∧
      ∀ t, t+3 ≤ 4 → (((log.drop t).take 3).map Prod.fst).Perm [0x4000, 0x4001, 0x4002] := by
  obtain ⟨log, k', hticks, hlen, hrun, hlog, hperm⟩ := @round_robin _ smallOps
    smallLayout.hhdmOffset smallLayout.hhdmOffset 0 threeProcs threeProcs_rotating
      (by decide +kernel) [{ rax := 1 }, { rax := 2 }, { rax := 3 }, { rax := 4 }]
  exact ⟨log, k', hticks, hlen, hrun.resolve_left (by simp), hlog, hperm⟩

end Emk.SchedRotation
