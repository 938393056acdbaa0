import Emk.CursorOrder
import Emk.SchedDispatch

/-!
# Who comes next

A tick is to enter the first process behind the current position, in cyclic
order, that has not terminated. Each terminated process that the loop removes
hides the one behind it, so it depends on where the terminated ones stand
whether that process is seen.
-/

set_option autoImplicit false

namespace Emk.SchedNext
open Emk.PageAllocator Emk.Vmm Emk.Calls Emk.Transition Emk.Sched Emk.CursorScan
open Emk.ReferenceAllocator
open Emk.SchedIntegrity (Op step)
open Emk.SchedDispatch (Permitted smallStep smallTick fourProcs)

variable {σ : Type}

/-- The processes up to the current position. -/
def front (cpu : ℕ) (k : Kernel σ) : List ℕ :=
  (entries (k.scheds cpu)).take ((k.scheds cpu).currentPid+1)

/-- The processes behind the current position. -/
def behind (cpu : ℕ) (k : Kernel σ) : List ℕ :=
  (entries (k.scheds cpu)).drop ((k.scheds cpu).currentPid+1)

/-- The first process behind the current position, in cyclic order, that has
not terminated. -/
def nextLive (cpu : ℕ) (k : Kernel σ) : Option ℕ :=
  (behind cpu k ++ front cpu k).find? (fun p => ¬ Gone k p)

/-- The process is current and running, and the frame is its context. -/
structure Entered (cpu : ℕ) (out : RegisterCtx) (p : ℕ) (k : Kernel σ) : Prop where
  current : (k.scheds cpu).procs (k.scheds cpu).currentPid = p
  running : (k.pcbs p).state = .running
  frame : out = (k.pcbs p).ctx

/-- Processes are ready or have terminated; the current one may be running. -/
def Runnable (cpu : ℕ) (k : Kernel σ) : Prop :=
  ∀ i < (k.scheds cpu).count, (k.pcbs ((k.scheds cpu).procs i)).state = .ready ∨
    Gone k ((k.scheds cpu).procs i) ∨
    ((k.pcbs ((k.scheds cpu).procs i)).state = .running ∧ i = (k.scheds cpu).currentPid)

variable {A : Ops σ} {hhdmOffset kernelPagemap cpu p : ℕ} {k k' : Kernel σ}
  {frame out : RegisterCtx} {next : ℕ} {gone : List ℕ}

theorem nextLive_mem (h : nextLive cpu k = some p) : p ∈ entries (k.scheds cpu) ∧ ¬ Gone k p := by
  have hin := List.mem_of_find?_eq_some h
  rw [List.mem_append, or_comm, ← List.mem_append, front, behind, List.take_append_drop] at hin
  exact ⟨hin, by simpa using List.find?_some h⟩

/-- A live process that the loop ends on is entered. -/
theorem entered_picked (ht : Table (k.scheds cpu)) (hstate : Runnable cpu k)
    (htick : Ticked cpu frame out k k' p gone) (hp : p ∈ entries (k.scheds cpu))
    (hlive : ¬ Gone k p) : (k'.pcbs p).state = .running ∧ out = (k'.pcbs p).ctx := by
  obtain ⟨i, hi, rfl⟩ := mem_entries.mp hp
  have hsaved : (saved cpu frame k ((k.scheds cpu).procs i)).state = .ready ∨
      (saved cpu frame k ((k.scheds cpu).procs i)).state = .running ∧
        (saved cpu frame k ((k.scheds cpu).procs i)).ctx = frame := by
    rw [saved]
    split_ifs with hrun
    · by_cases he : (k.scheds cpu).procs i = (k.scheds cpu).procs (k.scheds cpu).currentPid
      · rw [he, Function.update_self, savedPcb]
        split_ifs
        · exact .inl rfl
        · exact .inr ⟨hrun.2, rfl⟩
      · rw [Function.update_of_ne he]
        refine .inl (((hstate i hi).resolve_right ?_))
        rintro (hg | ⟨-, rfl⟩)
        · exact hlive hg
        · exact he rfl
    · refine .inl ((hstate i hi).resolve_right ?_)
      rintro (hg | ⟨hs, rfl⟩)
      · exact hlive hg
      · exact hrun ⟨ht.filled _ hi, hs⟩
  rw [htick.pcbs, htick.out, entered]
  rcases hsaved with hready | ⟨hrunning, hctx⟩
  · rw [if_pos hready, if_pos hready, Function.update_self]
    exact ⟨rfl, rfl⟩
  · have hno : (saved cpu frame k ((k.scheds cpu).procs i)).state ≠ .ready := by
      rw [hrunning]
      decide
    rw [if_neg hno, if_neg hno]
    exact ⟨hrunning, hctx.symm⟩

/-- A tick enters the first live process behind the current position exactly
when the loop reaches it. -/
theorem tick_enters_next (ht : Table (k.scheds cpu)) (hstate : Runnable cpu k)
    (hnext : nextLive cpu k = some p)
    (hr : schedTick A hhdmOffset kernelPagemap cpu (some frame) k = (some (some out), k')) :
    Entered cpu out p k' ↔ Reached (Gone k) (front cpu k) (behind cpu k) := by
  obtain ⟨hp, hlive⟩ := nextLive_mem hnext
  have hcount : (k.scheds cpu).count ≠ 0 := by
    obtain ⟨i, hi, -⟩ := mem_entries.mp hp
    omega
  obtain ⟨out', next, gone, hout, htick⟩ := schedTick_returned ht hcount hr
  obtain rfl := Option.some.inj hout
  obtain ⟨r, hscan, hpick, hreel⟩ := htick.scan
  have hsplit : front cpu k ++ behind cpu k = entries (k.scheds cpu) := List.take_append_drop _ _
  have hcut : Cut (front cpu k) (behind cpu k) (k.scheds cpu).currentPid := by
    refine ⟨List.length_take_le _ _, fun hne => ?_⟩
    rw [front, List.length_take]
    have := List.length_pos_of_ne_nil hne
    rw [behind, List.length_drop] at this
    omega
  obtain ⟨r', hscan', hitem, hiff⟩ := pick_first_iff
    (rounds-procMaxProcsPerCpu) hcut (hsplit ▸ ht.nodup) ht.current (by
      rw [hsplit, entries_length]
      exact ht.bounded) hnext
  rw [Nat.sub_add_cancel (by decide), hsplit] at hscan'
  obtain rfl := Option.some.inj (hscan.symm.trans hscan')
  rw [← hiff, hpick]
  have hcurrent : (k'.scheds cpu).procs (k'.scheds cpu).currentPid = next := by
    rw [hpick, hreel, reel] at hitem
    rw [← htick.table.get, hitem, Option.getD_some]
  constructor
  · intro h
    rw [← hcurrent, h.current]
  · intro h
    obtain rfl := Option.some.inj h
    obtain ⟨hrun, hctx⟩ := entered_picked ht hstate htick hp hlive
    exact ⟨hcurrent, hrun, hctx⟩

/-- The first two of four processes have terminated, the last one is current:
the third one is entered. -/
theorem tick_enters_next_small :
    ∃ k k' out, run (lift smallStep) (some (idleKernel 2)) (fourProcs ++ [.mark 8224, .mark 8512]) =
        some k ∧ smallTick k = (some (some out), k') ∧ Entered 0 out 8800 k' := by
  obtain ⟨bs, hheap⟩ := bootKernel_heap 2 (by decide) (by decide +kernel)
    (by decide +kernel)
  have hinit := idleKernel_init 2 (by decide +kernel)
  have hall : (run (lift smallStep) (some (idleKernel 2))
    (fourProcs ++ [.mark 8224, .mark 8512])).any
      (fun k => (smallTick k).1.any (fun out => out.isSome) &&
        decide (nextLive 0 k = some 8800 ∧ Reached (Gone k) (front 0 k) (behind 0 k))) = true := by
    decide +kernel
  obtain ⟨k, hk, hall⟩ := (Option.any_eq_true _ _).mp hall
  obtain ⟨hret, hcond⟩ := Bool.and_eq_true_iff.mp hall
  obtain ⟨r, hr, hsome⟩ := (Option.any_eq_true _ _).mp hret
  obtain ⟨out, rfl⟩ := Option.isSome_iff_exists.mp hsome
  obtain ⟨hnext, hreached⟩ := of_decide_eq_true hcond
  have hops : Along (lift smallStep) (Issued (Permitted 0)) (some (idleKernel 2))
      (fourProcs ++ [.mark 8224, .mark 8512]) := by decide +kernel
  have hinv := run_lift_safe (fun _ _ _ hi hp hr => SchedDispatch.step_inv hi hp hr)
    (SchedDispatch.init_inv hheap (fun _ => rfl) hinit) hops hk
  obtain ⟨live, bs', htab⟩ := hinv.tables
  refine ⟨k, (smallTick k).2, out, hk, Prod.ext hr rfl, ?_⟩
  exact (tick_enters_next (htab.table 0) hinv.fit.state hnext (Prod.ext hr rfl)).mpr hreached

/-- The second of three processes has terminated while the first is current:
the tick removes it and comes back to the first. -/
theorem tick_skips_neighbour :
    ∃ k k' out, run (lift smallStep) (some (idleKernel 2))
        (List.replicate 3 (.spawn 0 false 0x5000 0 0) ++ [.mark 8512]) = some k ∧
      nextLive 0 k = some 8800 ∧ smallTick k = (some (some out), k') ∧ ¬ Entered 0 out 8800 k' := by
  have hall : (run (lift smallStep) (some (idleKernel 2))
    (List.replicate 3 (.spawn 0 false 0x5000 0 0) ++ [.mark 8512])).any
      (fun k => (smallTick k).1.any (fun out => out.isSome) &&
        decide (nextLive 0 k = some 8800 ∧
          ((smallTick k).2.scheds 0).procs ((smallTick k).2.scheds 0).currentPid = 8224)) =
        true := by
    decide +kernel
  obtain ⟨k, hk, hall⟩ := (Option.any_eq_true _ _).mp hall
  obtain ⟨hret, hcond⟩ := Bool.and_eq_true_iff.mp hall
  obtain ⟨r, hr, hsome⟩ := (Option.any_eq_true _ _).mp hret
  obtain ⟨out, rfl⟩ := Option.isSome_iff_exists.mp hsome
  obtain ⟨hnext, hcurrent⟩ := of_decide_eq_true hcond
  refine ⟨k, (smallTick k).2, out, hk, hnext, Prod.ext hr rfl, fun h => ?_⟩
  exact absurd (hcurrent.symm.trans h.current) (by decide)

end Emk.SchedNext
