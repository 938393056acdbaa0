import Emk.SchedSpawn
import Emk.SchedTick

/-!
# The last process exits

When the only process of a CPU exits, the nested tick goes once around the
table, destroys the process and halts the CPU. The call never returns and no
register frame is copied.
-/

set_option autoImplicit false

namespace Emk.Sched
open Emk.PageAllocator Emk.Paging Emk.Vmm Emk.Calls

variable {σ : Type} {A : Ops σ} {hhdmOffset kernelPagemap cpu : ℕ} {k k' : Kernel σ}

theorem kfree_returned {p : ℕ} {u : Unit} (h : kfree p k = (some u, k')) :
    ∃ heap, FirstFitHeap.kfree p k.heap = some heap ∧ k' = { k with heap := heap } := by
  rw [kfree] at h
  have ha := attempt_returned h
  obtain ⟨heap, hfree, he⟩ := Option.map_eq_some_iff.mp ha
  exact ⟨heap, hfree, ((Prod.mk.inj he).2).symm⟩

theorem reap_sched {proc : ℕ} {u : Unit} (h : reap A hhdmOffset cpu proc k = (some u, k')) :
    k'.scheds cpu = removeCurrent (k.scheds cpu) := by
  rw [reap, getPcb, observe_bind] at h
  obtain ⟨_, k₁, h1, h⟩ := bind_returned h
  obtain ⟨v₁, -, rfl⟩ := onVmm_returned h1
  obtain ⟨_, k₂, h2, h⟩ := bind_returned h
  obtain ⟨v₂, -, rfl⟩ := onVmm_returned h2
  obtain ⟨_, k₃, h3, h⟩ := bind_returned h
  obtain ⟨heap, -, rfl⟩ := kfree_returned h3
  obtain ⟨-, rfl⟩ := Prod.mk.inj h
  exact Function.update_self _ _ _

/-- The table holds one process, at index `0`, and it has terminated. -/
structure Dying (cpu : ℕ) (k : Kernel σ) : Prop where
  count : (k.scheds cpu).count = 1
  filled : (k.scheds cpu).procs 0 ≠ 0
  empty : ∀ i, i ≠ 0 → (k.scheds cpu).procs i = 0
  state : (k.pcbs ((k.scheds cpu).procs 0)).state = .terminated

theorem Dying.moved (h : Dying cpu k) (c : ℕ) : Dying cpu (moved cpu c k) := by
  refine ⟨?_, ?_, ?_, ?_⟩ <;> rw [moved_sched]
  · exact h.count
  · exact h.filled
  · exact h.empty
  · exact h.state

variable (A hhdmOffset) in
theorem advance_dying (h : Dying cpu k)
    (hc : ((k.scheds cpu).currentPid+1) % procMaxProcsPerCpu = 0) :
    (advance A hhdmOffset cpu k).1 = none ∨
      ((advance A hhdmOffset cpu k).1 = some 0 ∧
        ((advance A hhdmOffset cpu k).2.scheds cpu).count = 0) := by
  rw [advance, setSched, update_bind, hc]
  change ((getSched cpu >>= _) (Sched.moved cpu 0 k)).1 = _ ∨
    ((getSched cpu >>= _) (Sched.moved cpu 0 k)).1 = _ ∧
      (((getSched cpu >>= _) (Sched.moved cpu 0 k)).2.scheds cpu).count = 0
  rw [getSched, observe_bind, moved_sched, getPcb, observe_bind, moved_pcbs,
    if_pos ⟨h.filled, h.state⟩, bind_apply]
  rcases hr : reap A hhdmOffset cpu ((k.scheds cpu).procs 0) (Sched.moved cpu 0 k) with ⟨_ | u, k'⟩
  · exact .inl rfl
  · refine .inr ⟨rfl, ?_⟩
    change (k'.scheds cpu).count = 0
    rw [reap_sched hr, moved_sched, removeCurrent, h.count]
    rfl

variable (A hhdmOffset) in
theorem nextProc_dying (fuel : ℕ) (h : Dying cpu k)
    (hcur : (k.scheds cpu).currentPid < procMaxProcsPerCpu)
    (hfuel : 511-(k.scheds cpu).currentPid < fuel) :
    (nextProc A hhdmOffset cpu 0 fuel k).1 = none ∨
      ((nextProc A hhdmOffset cpu 0 fuel k).1 = some 0 ∧
        ((nextProc A hhdmOffset cpu 0 fuel k).2.scheds cpu).count = 0) := by
  induction fuel generalizing k with
  | zero => omega
  | succ fuel ih =>
    rw [nextProc]
    obtain ⟨c, hc⟩ : ∃ c, c = ((k.scheds cpu).currentPid+1) % procMaxProcsPerCpu := ⟨_, rfl⟩
    by_cases h0 : c = 0
    · have hadv := advance_dying A hhdmOffset h (hc.symm.trans h0)
      rcases ha : advance A hhdmOffset cpu k with ⟨_ | next, k'⟩
      · rw [bind_of_never ha]
        exact .inl rfl
      · rw [ha] at hadv
        obtain ⟨hnext, hcount⟩ := hadv.resolve_left (by simp)
        dsimp only at hcount
        rw [bind_of_returned ha, getSched, observe_bind, if_neg (fun hgo => by omega)]
        exact .inr ⟨hnext, hcount⟩
    · have hzero := h.empty c h0
      rw [bind_of_returned (advance_stay hc (fun hne => absurd hzero hne)), getSched, observe_bind,
        moved_sched]
      dsimp only
      rw [if_pos ⟨hzero, h0, by rw [h.count]; decide⟩]
      rw [procMaxProcsPerCpu] at hc hcur
      apply ih (h.moved c)
      · rw [moved_sched, procMaxProcsPerCpu]
        dsimp only
        omega
      · rw [moved_sched]
        dsimp only
        omega

variable (hhdmOffset kernelPagemap) in
/-- With an empty table there is nothing to enter. -/
theorem dispatch_halts (hcount : (k.scheds cpu).count = 0) (frame : RegisterCtx) :
    (dispatch hhdmOffset kernelPagemap cpu 0 frame k).1 = none ∧
      (dispatch hhdmOffset kernelPagemap cpu 0 frame k).2.copies = k.copies := by
  rw [dispatch, getSched, observe_bind, getPcb, observe_bind, if_neg (fun h => h.1 rfl),
    if_pos hcount, spinlockRelease, update_bind, pmset]
  split_ifs
  · exact ⟨rfl, rfl⟩
  · exact ⟨rfl, rfl⟩

variable (A hhdmOffset kernelPagemap) in
/-- The tick of a CPU whose only process has terminated ends in `hlt`. -/
theorem schedTick_dying (h : Dying cpu k) (hcur : (k.scheds cpu).currentPid = 0)
    (frame : RegisterCtx) :
    (schedTick A hhdmOffset kernelPagemap cpu (some frame) k).1 = none ∧
      (schedTick A hhdmOffset kernelPagemap cpu (some frame) k).2.copies = k.copies := by
  have hcount : (k.scheds cpu).count ≠ 0 := by
    rw [h.count]
    decide
  obtain ⟨k₀, hk₀⟩ : ∃ k₀ : Kernel σ, k₀ = { k with locks := k.locks ++ [.acquire cpu] } := ⟨_, rfl⟩
  have h₀ : Dying cpu k₀ := by
    rw [hk₀]
    exact ⟨h.count, h.filled, h.empty, h.state⟩
  have hcur₀ : (k₀.scheds cpu).currentPid = 0 := by rw [hk₀]; exact hcur
  have hsave : saveCurrent ((k.scheds cpu).procs 0) frame k₀ = (some (), k₀) := by
    rw [saveCurrent, getPcb, observe_bind, if_neg]
    · rfl
    · rw [hk₀]
      dsimp only
      rw [h.state]
      simp
  rw [schedTick_busy hcount frame, hcur, ← hk₀, bind_of_returned hsave]
  have hcopies := (silent_nextProc 0 rounds : Silent Kernel.copies
    (nextProc A hhdmOffset cpu 0 rounds)) k₀
  have hnext := nextProc_dying A hhdmOffset rounds h₀
    (by rw [hcur₀]; decide) (by rw [hcur₀]; decide)
  rcases hn : nextProc A hhdmOffset cpu 0 rounds k₀ with ⟨_ | next, k₁⟩
  · rw [hn] at hcopies
    rw [bind_of_never hn]
    exact ⟨rfl, hcopies.trans (by rw [hk₀])⟩
  · rw [hn] at hcopies hnext
    obtain ⟨hzero, hempty⟩ := hnext.resolve_left (by simp)
    obtain rfl : next = 0 := Option.some.inj hzero
    have hdisp := dispatch_halts hhdmOffset kernelPagemap (k := k₁) hempty frame
    rw [bind_of_returned hn, bind_of_returned (orFirst_apply 0 k₁ ▸ if_neg (by
      dsimp only at hempty
      omega)), bind_pure_apply]
    exact ⟨by rw [hdisp.1]; rfl, hdisp.2.trans (hcopies.trans (by rw [hk₀]))⟩

theorem findPid_first {c : CpuSched} {pcbs : ℕ → Pcb} (hcount : c.count = 1)
    (h0 : c.procs 0 ≠ 0) : findPid c pcbs (pcbs (c.procs 0)).pid = some 0 := by
  rw [findPid, hcount]
  simp [List.range_succ, h0]

variable (A hhdmOffset kernelPagemap) in
theorem schedTerminate_alone {p : ℕ} (hcount : (k.scheds cpu).count = 1)
    (hcur : (k.scheds cpu).currentPid = 0) (hp : (k.scheds cpu).procs 0 = p) (h0 : p ≠ 0)
    (hempty : ∀ i, i ≠ 0 → (k.scheds cpu).procs i = 0) (dummy : RegisterCtx) :
    (schedTerminate A hhdmOffset kernelPagemap cpu dummy (k.pcbs p).pid k).1 = none ∧
      (schedTerminate A hhdmOffset kernelPagemap cpu dummy (k.pcbs p).pid k).2.copies =
        k.copies := by
  rw [schedTerminate, spinlockAcquire, update_bind, getSched, observe_bind, observe_bind]
  dsimp only
  rw [← hp, findPid_first hcount (hp ▸ h0), terminateEntry, setPcb, update_bind, hcur, if_pos rfl]
  have hdying : Dying cpu { k with
      locks := k.locks ++ [.acquire cpu]
      pcbs := Function.update k.pcbs ((k.scheds cpu).procs 0)
        { k.pcbs ((k.scheds cpu).procs 0) with state := .terminated } } := by
    refine ⟨hcount, hp ▸ h0, hempty, ?_⟩
    dsimp only
    rw [Function.update_self]
  obtain ⟨hnone, hcopies⟩ := schedTick_dying A hhdmOffset kernelPagemap hdying hcur dummy
  rw [bind_of_fst_none hnone]
  exact ⟨rfl, hcopies⟩

variable (A hhdmOffset kernelPagemap) in
/-- The only process of the CPU does not return from `proc_exit`. -/
theorem procExit_alone {onCpu : Option ℕ} (h : Settled cpu onCpu k)
    (hcount : (k.scheds cpu).count = 1) (hcur : (k.scheds cpu).currentPid = 0)
    (dummy : RegisterCtx) (code : ℤ) :
    (procExit A hhdmOffset kernelPagemap cpu dummy code k).1 = none ∧
      (procExit A hhdmOffset kernelPagemap cpu dummy code k).2.copies = k.copies := by
  have h0 : (k.scheds cpu).procs 0 ≠ 0 := h.table.filled 0 (by omega)
  have hempty : ∀ i, i ≠ 0 → (k.scheds cpu).procs i = 0 := fun i hi => h.table.empty i (by omega)
  rw [procExit, spinlockAcquire, update_bind, getSched, observe_bind]
  dsimp only
  rw [hcur, if_pos h0, setPcb, update_bind, spinlockRelease, update_bind, getPcb, observe_bind]
  obtain ⟨hnone, hcopies⟩ := schedTerminate_alone A hhdmOffset
    kernelPagemap (k := { k with
      locks := k.locks ++ [.acquire cpu] ++ [.release cpu]
      pcbs := Function.update k.pcbs ((k.scheds cpu).procs 0)
        { k.pcbs ((k.scheds cpu).procs 0) with exitCode := code } }) hcount hcur rfl h0 hempty dummy
  rw [bind_of_fst_none hnone]
  exact ⟨rfl, hcopies⟩

end Emk.Sched
