import Emk.SchedTraces

/-!
# One timer tick

As long as no process has terminated, a tick makes every entry of the process
table ready, steps `current_pid` around the table to the next entry in use and
enters the process it finds there.
-/

set_option autoImplicit false

namespace Emk.Sched
open Emk.MachineWord Emk.DirectMap Emk.PageAllocator Emk.Paging Emk.Vmm Emk.Calls

variable {σ : Type} {A : Ops σ} {hhdmOffset kernelPagemap cpu : ℕ} {k : Kernel σ}

/-- The entries in use are the first `count` ones, and all different. -/
structure Table (c : CpuSched) : Prop where
  bounded : c.count ≤ procMaxProcsPerCpu
  current : c.currentPid < procMaxProcsPerCpu
  filled : ∀ i < c.count, c.procs i ≠ 0
  empty : ∀ i, c.count ≤ i → c.procs i = 0
  inj : ∀ i < c.count, ∀ j < c.count, c.procs i = c.procs j → i = j

theorem Table.used {c : CpuSched} (h : Table c) {i : ℕ} (hi : c.procs i ≠ 0) : i < c.count := by
  by_contra hge
  exact hi (h.empty i (by omega))

theorem table_empty (table : ℕ) : Table ⟨table, fun _ => 0, 0, 0⟩ where
  bounded := Nat.zero_le _
  current := Nat.two_pow_pos 9
  filled := fun i hi => absurd hi (Nat.not_lt_zero i)
  empty := fun _ _ => rfl
  inj := fun i hi => absurd hi (Nat.not_lt_zero i)

/-- `current_pid` set to `c`. -/
def moved (cpu c : ℕ) (k : Kernel σ) : Kernel σ :=
  { k with scheds := Function.update k.scheds cpu { k.scheds cpu with currentPid := c } }

@[simp] theorem moved_sched (c : ℕ) (k : Kernel σ) :
    (moved cpu c k).scheds cpu = { k.scheds cpu with currentPid := c } := by
  simp [moved]

@[simp] theorem moved_pcbs (c : ℕ) (k : Kernel σ) : (moved cpu c k).pcbs = k.pcbs := rfl

@[simp] theorem moved_moved (c d : ℕ) (k : Kernel σ) :
    moved cpu d (moved cpu c k) = moved cpu d k := by
  simp [moved]

section Scan

/-- A round that meets no terminated process only moves `current_pid`. -/
theorem advance_stay {c : ℕ} (hc : c = ((k.scheds cpu).currentPid+1) % procMaxProcsPerCpu)
    (hlive : (k.scheds cpu).procs c ≠ 0 →
      (k.pcbs ((k.scheds cpu).procs c)).state ≠ .terminated) :
    advance A hhdmOffset cpu k = (some ((k.scheds cpu).procs c), moved cpu c k) := by
  rw [advance, setSched, update_bind, ← hc]
  change (getSched cpu >>= _) (moved cpu c k) = _
  rw [getSched, observe_bind, moved_sched, getPcb, observe_bind, moved_pcbs,
    if_neg (fun h => hlive h.1 h.2)]
  rfl

variable (A hhdmOffset) in
theorem nextProc_found {start : ℕ} (fuel : ℕ) (hstart : start < procMaxProcsPerCpu)
    (hcur : (k.scheds cpu).currentPid < procMaxProcsPerCpu) (hcount : 0 < (k.scheds cpu).count)
    (hlive : ∀ i, (k.scheds cpu).procs i ≠ 0 →
      (k.pcbs ((k.scheds cpu).procs i)).state ≠ .terminated)
    (hfuel : (start+511-(k.scheds cpu).currentPid) % 512 < fuel) :
    ∃ c < procMaxProcsPerCpu, nextProc A hhdmOffset cpu start fuel k =
        (some ((k.scheds cpu).procs c), moved cpu c k) ∧
      ((k.scheds cpu).procs c ≠ 0 ∨ c = start) := by
  induction fuel generalizing k with
  | zero => omega
  | succ fuel ih =>
    obtain ⟨c, hc⟩ : ∃ c, c = ((k.scheds cpu).currentPid+1) % procMaxProcsPerCpu := ⟨_, rfl⟩
    have hc' : c < procMaxProcsPerCpu := by
      rw [hc]
      exact Nat.mod_lt _ (by decide)
    rw [nextProc, bind_of_returned (advance_stay hc (hlive c)), getSched, observe_bind, moved_sched]
    dsimp only
    by_cases hgo : (k.scheds cpu).procs c = 0 ∧ c ≠ start ∧ (k.scheds cpu).count > 0
    · rw [if_pos hgo]
      have hfuel' : (start+511-c) % 512 < fuel := by
        rw [procMaxProcsPerCpu] at *
        omega
      obtain ⟨d, hd, hrun, hstop⟩ := ih (k := moved cpu c k) (by simpa using hc')
        (by simpa using hcount) (by simpa using hlive) (by simpa using hfuel')
      simp only [moved_sched, moved_moved] at hrun hstop
      exact ⟨d, hd, hrun, hstop⟩
    · rw [if_neg hgo]
      refine ⟨c, hc', rfl, ?_⟩
      by_contra hno
      push Not at hno
      exact hgo ⟨hno.1, hno.2, hcount⟩

end Scan

/-- The process on the CPU, if there is one, is the only one that can be
marked as running, and it is the current one. -/
structure Settled (cpu : ℕ) (onCpu : Option ℕ) (k : Kernel σ) : Prop where
  table : Table (k.scheds cpu)
  slice : ∀ i < (k.scheds cpu).count,
    (k.pcbs ((k.scheds cpu).procs i)).timeslice = procDefaultTime
  state : ∀ i < (k.scheds cpu).count, (k.pcbs ((k.scheds cpu).procs i)).state = .ready ∨
    ((k.pcbs ((k.scheds cpu).procs i)).state = .running ∧ i = (k.scheds cpu).currentPid ∧
      onCpu = some ((k.scheds cpu).procs i))

theorem Settled.live {onCpu : Option ℕ} (h : Settled cpu onCpu k) {i : ℕ}
    (hi : (k.scheds cpu).procs i ≠ 0) :
    (k.pcbs ((k.scheds cpu).procs i)).state ≠ .terminated := by
  rcases h.state i (h.table.used hi) with hs | ⟨hs, -⟩ <;> simp [hs]

section Save

theorem savedPcb_expired {p : Pcb} (hp : p.timeslice = procDefaultTime) (frame : RegisterCtx) :
    savedPcb frame p = { p with ctx := frame, state := .ready, timeslice := procDefaultTime } := by
  rw [savedPcb, hp]
  exact if_pos rfl

/-- The one process that may be running is saved and becomes ready. -/
theorem saveCurrent_ready {onCpu : Option ℕ} (h : Settled cpu onCpu k) (frame : RegisterCtx) :
    ∃ ps cs, saveCurrent ((k.scheds cpu).procs (k.scheds cpu).currentPid) frame k =
        (some (), { k with pcbs := ps, copies := k.copies ++ cs }) ∧
      (∀ i < (k.scheds cpu).count, (ps ((k.scheds cpu).procs i)).state = .ready ∧
        (ps ((k.scheds cpu).procs i)).timeslice = procDefaultTime) ∧
      ∀ e ∈ cs, ∃ p, e = .save p ∧ onCpu = some p := by
  rw [saveCurrent, getPcb, observe_bind]
  by_cases hrun : (k.scheds cpu).procs (k.scheds cpu).currentPid ≠ 0 ∧
      (k.pcbs ((k.scheds cpu).procs (k.scheds cpu).currentPid)).state = .running
  · rw [if_pos hrun]
    have hcur := h.table.used hrun.1
    have hon := (h.state _ hcur).resolve_left (by simp [hrun.2])
    refine ⟨_, [.save ((k.scheds cpu).procs (k.scheds cpu).currentPid)], rfl, fun i hi => ?_, ?_⟩
    · by_cases he : (k.scheds cpu).procs i = (k.scheds cpu).procs (k.scheds cpu).currentPid
      · dsimp only
        rw [he, Function.update_self, savedPcb_expired (h.slice _ hcur)]
        exact ⟨rfl, rfl⟩
      · dsimp only
        rw [Function.update_of_ne he]
        refine ⟨(h.state i hi).resolve_right ?_, h.slice i hi⟩
        rintro ⟨-, rfl, -⟩
        exact he rfl
    · intro e he
      exact ⟨_, List.mem_singleton.mp he, hon.2.2⟩
  · rw [if_neg hrun]
    refine ⟨k.pcbs, [], by rw [List.append_nil]; rfl, fun i hi => ?_,
      fun e he => absurd he (by simp)⟩
    refine ⟨(h.state i hi).resolve_right ?_, h.slice i hi⟩
    rintro ⟨hs, rfl, -⟩
    exact hrun ⟨h.table.filled _ hi, hs⟩

end Save

section Dispatch

theorem orFirst_apply (next : ℕ) (k : Kernel σ) :
    orFirst cpu next k = if next = 0 ∧ (k.scheds cpu).count > 0 then
      (some ((k.scheds cpu).procs 0), moved cpu 0 k) else (some next, k) := by
  rw [orFirst, getSched, observe_bind]
  split_ifs
  · rfl
  · rfl

variable (hhdmOffset kernelPagemap cpu) in
/-- Entering a ready process; only its mark changes when the page map is bad. -/
theorem dispatch_enter {next : ℕ} (h0 : next ≠ 0) (hready : (k.pcbs next).state = .ready)
    (frame : RegisterCtx) :
    ∃ cs, (dispatch hhdmOffset kernelPagemap cpu next frame k).2.copies = k.copies ++ cs ∧
      (cs = [.restore next] ∨
        (cs = [] ∧ (dispatch hhdmOffset kernelPagemap cpu next frame k).1 = none)) ∧
      (dispatch hhdmOffset kernelPagemap cpu next frame k).2.scheds = k.scheds ∧
      (dispatch hhdmOffset kernelPagemap cpu next frame k).2.heap = k.heap ∧
      (dispatch hhdmOffset kernelPagemap cpu next frame k).2.pcbs =
        Function.update k.pcbs next { k.pcbs next with state := .running } := by
  rw [dispatch, getSched, observe_bind, getPcb, observe_bind, if_pos ⟨h0, hready⟩, setPcb,
    update_bind]
  by_cases hbad : (k.pcbs next).pagemap = 0 ∨
      isPageAligned (physical hhdmOffset (k.pcbs next).pagemap) = false
  · rw [pmset, if_pos hbad]
    exact ⟨[], (List.append_nil _).symm, .inr ⟨rfl, rfl⟩, rfl, rfl, rfl⟩
  · rw [pmset, if_neg hbad]
    exact ⟨[.restore next], rfl, .inl rfl, rfl, rfl, rfl⟩

end Dispatch

/-- The process restored last, or the one before. -/
def lastRestored (onCpu : Option ℕ) : List Copy → Option ℕ
  | [] => onCpu
  | .restore p::cs => lastRestored (some p) cs
  | .save _::cs => lastRestored onCpu cs

theorem lastRestored_append (onCpu : Option ℕ) (cs ds : List Copy) :
    lastRestored onCpu (cs ++ ds) = lastRestored (lastRestored onCpu cs) ds := by
  induction cs generalizing onCpu with
  | nil => rfl
  | cons c cs ih => cases c <;> exact ih _

theorem Settled.congr {onCpu : Option ℕ} {k' : Kernel σ} (h : Settled cpu onCpu k)
    (hs : k'.scheds cpu = k.scheds cpu) (hp : k'.pcbs = k.pcbs) : Settled cpu onCpu k' := by
  refine ⟨?_, ?_, ?_⟩ <;> rw [hs]
  · exact h.table
  · rw [hp]
    exact h.slice
  · rw [hp]
    exact h.state

variable (A hhdmOffset) in
/-- The entry found by the loop, or the first one. -/
theorem nextProc_orFirst (ht : Table (k.scheds cpu)) (hcount : 0 < (k.scheds cpu).count)
    (hready : ∀ i < (k.scheds cpu).count, (k.pcbs ((k.scheds cpu).procs i)).state = .ready) :
    ∃ c < (k.scheds cpu).count,
      (nextProc A hhdmOffset cpu (k.scheds cpu).currentPid rounds >>= orFirst cpu) k =
        (some ((k.scheds cpu).procs c), moved cpu c k) := by
  have hlive : ∀ i, (k.scheds cpu).procs i ≠ 0 →
      (k.pcbs ((k.scheds cpu).procs i)).state ≠ .terminated := by
    intro i hi
    rw [hready i (ht.used hi)]
    decide
  obtain ⟨c, -, hrun, -⟩ := nextProc_found A hhdmOffset rounds ht.current ht.current
    hcount hlive (lt_of_lt_of_le (Nat.mod_lt _ (by decide)) (by decide))
  rw [bind_of_returned hrun, orFirst_apply, moved_sched]
  dsimp only
  by_cases h0 : (k.scheds cpu).procs c = 0
  · rw [if_pos ⟨h0, hcount⟩, moved_moved]
    exact ⟨0, hcount, rfl⟩
  · rw [if_neg (fun h => h0 h.1)]
    exact ⟨c, ht.used h0, rfl⟩

theorem schedTick_busy (hcount : (k.scheds cpu).count ≠ 0) (frame : RegisterCtx) :
    schedTick A hhdmOffset kernelPagemap cpu (some frame) k =
      (saveCurrent ((k.scheds cpu).procs (k.scheds cpu).currentPid) frame >>= fun _ =>
        nextProc A hhdmOffset cpu (k.scheds cpu).currentPid rounds >>= fun next =>
          orFirst cpu next >>= fun next => dispatch hhdmOffset kernelPagemap cpu next frame >>=
            fun frame => pure (some frame)) { k with locks := k.locks ++ [.acquire cpu] } := by
  rw [schedTick, spinlockAcquire, update_bind, getSched, observe_bind, if_neg hcount]

theorem schedTick_idle (hcount : (k.scheds cpu).count = 0) (frame : RegisterCtx) :
    schedTick A hhdmOffset kernelPagemap cpu (some frame) k =
      (pmset cpu hhdmOffset kernelPagemap >>= fun _ => pure (some frame))
        { k with locks := k.locks ++ [.acquire cpu] ++ [.release cpu] } := by
  rw [schedTick, spinlockAcquire, update_bind, getSched, observe_bind, if_pos hcount,
    spinlockRelease, update_bind]

/-- The state after a tick that found the ready entry `c`. -/
theorem Settled.enter {ps : ℕ → Pcb} {c : ℕ} (ht : Table (k.scheds cpu))
    (hc : c < (k.scheds cpu).count)
    (hready : ∀ i < (k.scheds cpu).count, (ps ((k.scheds cpu).procs i)).state = .ready ∧
      (ps ((k.scheds cpu).procs i)).timeslice = procDefaultTime) {k' : Kernel σ}
    (hs : k'.scheds cpu = { k.scheds cpu with currentPid := c })
    (hp : k'.pcbs = Function.update ps ((k.scheds cpu).procs c)
      { ps ((k.scheds cpu).procs c) with state := .running }) :
    Settled cpu (some ((k.scheds cpu).procs c)) k' := by
  have hother : ∀ i < (k.scheds cpu).count, i ≠ c →
      k'.pcbs ((k.scheds cpu).procs i) = ps ((k.scheds cpu).procs i) := by
    intro i hi hne
    rw [hp, Function.update_of_ne (fun he => hne (ht.inj i hi c hc he))]
  have hself : k'.pcbs ((k.scheds cpu).procs c) =
      { ps ((k.scheds cpu).procs c) with state := .running } := by
    rw [hp, Function.update_self]
  have hb := ht.bounded
  refine ⟨?_, ?_, ?_⟩ <;> rw [hs]
  · exact ⟨ht.bounded, by dsimp only; omega, ht.filled, ht.empty, ht.inj⟩
  · intro i hi
    dsimp only at hi ⊢
    by_cases hic : i = c
    · rw [hic, hself]
      exact (hready c hc).2
    · rw [hother i hi hic]
      exact (hready i hi).2
  · intro i hi
    dsimp only at hi ⊢
    by_cases hic : i = c
    · rw [hic, hself]
      exact .inr ⟨rfl, rfl, rfl⟩
    · rw [hother i hi hic]
      exact .inl (hready i hi).1

variable (A hhdmOffset kernelPagemap) in
/-- A tick saves nobody but the process on the CPU, and what it enters is then
the process on the CPU. -/
theorem schedTick_settled {onCpu : Option ℕ} (h : Settled cpu onCpu k) (frame : RegisterCtx) :
    let r := schedTick A hhdmOffset kernelPagemap cpu (some frame) k
    ∃ cs, r.2.copies = k.copies ++ cs ∧ (∀ p, .save p ∈ cs → onCpu = some p) ∧
      (r.1 ≠ none → Settled cpu (lastRestored onCpu cs) r.2) ∧ r.2.heap = k.heap ∧
      (r.2.scheds cpu).procs = (k.scheds cpu).procs ∧
      (r.2.scheds cpu).count = (k.scheds cpu).count := by
  intro r
  by_cases hcount : (k.scheds cpu).count = 0
  · have hr : r = _ := schedTick_idle hcount frame
    rw [bind_apply, pmset] at hr
    refine ⟨[], ?_⟩
    split_ifs at hr
    · rw [hr]
      exact ⟨(List.append_nil _).symm, fun p hp => absurd hp (by simp),
        fun hn => absurd rfl hn, rfl, rfl, rfl⟩
    · rw [hr]
      exact ⟨(List.append_nil _).symm, fun p hp => absurd hp (by simp),
        fun _ => h.congr rfl rfl, rfl, rfl, rfl⟩
  · have hr : r = _ := schedTick_busy hcount frame
    obtain ⟨ps, cs, hsave, hready, hsaved⟩ := saveCurrent_ready
      (k := { k with locks := k.locks ++ [.acquire cpu] }) (h.congr rfl rfl) frame
    rw [bind_of_returned hsave, ← bind_assoc_apply] at hr
    obtain ⟨c, hc, hnext⟩ := nextProc_orFirst A hhdmOffset
      (k := { k with locks := k.locks ++ [.acquire cpu], pcbs := ps, copies := k.copies ++ cs })
      h.table (Nat.pos_of_ne_zero hcount) (fun i hi => (hready i hi).1)
    rw [bind_of_returned hnext] at hr
    obtain ⟨ds, hds, hcase, hs, hheap, hp⟩ := dispatch_enter hhdmOffset
      kernelPagemap cpu (k := moved cpu c
        { k with locks := k.locks ++ [.acquire cpu], pcbs := ps, copies := k.copies ++ cs })
      (h.table.filled c hc) (hready c hc).1 frame
    rw [bind_pure_apply] at hr
    have hstate := congrArg Prod.snd hr
    refine ⟨cs ++ ds, ?_, ?_, ?_, ?_, ?_, ?_⟩
    · rw [hstate, hds, ← List.append_assoc]
      rfl
    · intro p hin
      rcases List.mem_append.mp hin with hin | hin
      · obtain ⟨q, hq, hon⟩ := hsaved _ hin
        rw [hon, Copy.save.inj hq]
      · rcases hcase with rfl | ⟨rfl, -⟩ <;> simp at hin
    · intro hret
      rcases hcase with rfl | ⟨-, hnone⟩
      · rw [lastRestored_append, hstate]
        exact Settled.enter h.table hc hready (by rw [hs, moved_sched]) hp
      · exact absurd (by rw [hr, hnone]; rfl) hret
    · rw [hstate, hheap]
      rfl
    · rw [hstate, hs, moved_sched]
    · rw [hstate, hs, moved_sched]

end Emk.Sched
