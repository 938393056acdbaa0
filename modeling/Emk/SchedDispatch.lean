import Emk.SchedIntegrity

/-!
# What a tick leaves on the CPU

As long as only other processes than the current one are terminated, a tick
enters a ready process, with one exception: the scan can pass over every live
process, come back to where it started and then fall back to a first entry
that has terminated too.
-/

set_option autoImplicit false

namespace Emk.SchedDispatch
open Emk.PageAllocator Emk.Vmm Emk.Calls Emk.Transition Emk.Sched Emk.CursorScan
open Emk.ReferenceAllocator
open Emk.SchedIntegrity (Op step returned_eq terminated terminated_self terminated_other)

variable {σ : Type}

/-- The terminated processes of the table are placed so that a tick ends on one of them. -/
def Strands (cpu : ℕ) (k : Kernel σ) : Prop :=
  Stranded (Gone k) (entries (k.scheds cpu)) (k.scheds cpu).currentPid

instance decidableStrands (cpu : ℕ) (k : Kernel σ) : Decidable (Strands cpu k) :=
  inferInstanceAs (Decidable (Stranded _ _ _))

/-- Only `cpu` is at work, and its current process is not terminated. -/
def Permitted (cpu : ℕ) (k : Kernel σ) : Op → Prop
  | .init _ => False
  | .spawn c _ _ _ _ => c = cpu
  | .tick c _ => c = cpu ∧ ¬ Strands cpu k
  | .mark proc => proc ≠ (k.scheds cpu).procs (k.scheds cpu).currentPid

instance decidablePermitted (cpu : ℕ) (k : Kernel σ) : ∀ o, Decidable (Permitted cpu k o)
  | .init _ => inferInstanceAs (Decidable False)
  | .spawn c _ _ _ _ => inferInstanceAs (Decidable (c = cpu))
  | .tick _ _ => inferInstanceAs (Decidable (_ ∧ ¬ Strands cpu k))
  | .mark _ => inferInstanceAs (Decidable (_ ≠ _))

/-- The current process runs, no other one does, and the frame is its context. -/
structure Dispatched (cpu : ℕ) (out : RegisterCtx) (k : Kernel σ) : Prop where
  present : (k.scheds cpu).procs (k.scheds cpu).currentPid ≠ 0
  running : (k.pcbs ((k.scheds cpu).procs (k.scheds cpu).currentPid)).state = .running
  only : ∀ i < (k.scheds cpu).count, (k.pcbs ((k.scheds cpu).procs i)).state = .running →
    i = (k.scheds cpu).currentPid
  frame : out = (k.pcbs ((k.scheds cpu).procs (k.scheds cpu).currentPid)).ctx

/-- What a tick finds: the current process has not terminated, and only it can run. -/
structure Fit (cpu : ℕ) (k : Kernel σ) : Prop where
  idle : (k.scheds cpu).count = 0 → (k.scheds cpu).currentPid = 0
  current : (k.scheds cpu).count ≠ 0 → (k.scheds cpu).currentPid < (k.scheds cpu).count ∧
    ¬ Gone k ((k.scheds cpu).procs (k.scheds cpu).currentPid)
  state : ∀ i < (k.scheds cpu).count, (k.pcbs ((k.scheds cpu).procs i)).state = .ready ∨
    Gone k ((k.scheds cpu).procs i) ∨
    ((k.pcbs ((k.scheds cpu).procs i)).state = .running ∧ i = (k.scheds cpu).currentPid)
  slice : ∀ i < (k.scheds cpu).count,
    (k.pcbs ((k.scheds cpu).procs i)).timeslice = procDefaultTime

variable {A : Ops σ} {hhdmOffset kernelPagemap kvmCtx cpu lo hi : ℕ} {k k' : Kernel σ}

section Tick
variable {frame out : RegisterCtx} {next : ℕ} {gone : List ℕ}

variable (frame) in
/-- Once the outgoing process is saved, every process is ready or has terminated. -/
theorem Fit.saved (h : Fit cpu k) (ht : Table (k.scheds cpu)) {p : ℕ}
    (hp : p ∈ entries (k.scheds cpu)) :
    ((saved cpu frame k p).state = .ready ∨ Gone k p) ∧
      (saved cpu frame k p).timeslice = procDefaultTime := by
  obtain ⟨i, hi, rfl⟩ := mem_entries.mp hp
  rw [Sched.saved]
  split_ifs with hrun
  · by_cases he : (k.scheds cpu).procs i = (k.scheds cpu).procs (k.scheds cpu).currentPid
    · rw [he, Function.update_self, savedPcb_expired (h.slice _ (ht.used hrun.1)) frame]
      exact ⟨.inl rfl, rfl⟩
    · rw [Function.update_of_ne he]
      refine ⟨(h.state i hi).imp_right (fun hs => hs.resolve_right ?_), h.slice i hi⟩
      rintro ⟨-, rfl⟩
      exact he rfl
  · refine ⟨(h.state i hi).imp_right (fun hs => hs.resolve_right ?_), h.slice i hi⟩
    rintro ⟨hs, rfl⟩
    exact hrun ⟨ht.filled _ hi, hs⟩

/-- The picked process is the current one, and whether it has terminated is
decided by the table before the tick. -/
theorem Fit.picked (h : Fit cpu k) (ht : Table (k.scheds cpu)) (hcount : (k.scheds cpu).count ≠ 0)
    (htick : Ticked cpu frame out k k' next gone) :
    (k'.scheds cpu).procs (k'.scheds cpu).currentPid = next ∧
      (k'.scheds cpu).currentPid < (k'.scheds cpu).count ∧ (Gone k next ↔ Strands cpu k) := by
  obtain ⟨hc, hlive⟩ := h.current hcount
  obtain ⟨low, high, hsplit, hlow, hlen⟩ := entries_split hc
  obtain ⟨r, hscan, hpick, hreel⟩ := htick.scan
  have hsize : (k.scheds cpu).currentPid+1+high.length ≤ procMaxProcsPerCpu := by
    rw [hlen]
    exact ht.bounded
  obtain ⟨r', y, hscan', hpick', hat, hdead⟩ := pick_dead_iff (rounds-procMaxProcsPerCpu)
    hlive hlow hsize
  rw [Nat.sub_add_cancel (by decide), ← hsplit] at hscan'
  rw [← hsplit] at hdead
  obtain rfl := Option.some.inj (hscan.symm.trans hscan')
  obtain rfl := Option.some.inj (hpick.symm.trans hpick')
  rw [hreel, reel] at hat
  dsimp only at hat
  have hin : (k'.scheds cpu).currentPid < (k'.scheds cpu).count := by
    by_contra hge
    rw [entries_past (by omega)] at hat
    exact absurd hat (by simp)
  rw [entries_get hin] at hat
  exact ⟨Option.some.inj hat, hin, hdead⟩

/-- A tick that is not stranded leaves the picked process running. -/
theorem Fit.dispatched (h : Fit cpu k) (ht : Table (k.scheds cpu))
    (hcount : (k.scheds cpu).count ≠ 0) (htick : Ticked cpu frame out k k' next gone)
    (hno : ¬ Strands cpu k) : Fit cpu k' ∧ Dispatched cpu out k' := by
  obtain ⟨hnext, hcur, hdead⟩ := h.picked ht hcount htick
  have hlive : ¬ Gone k next := fun hg => hno (hdead.mp hg)
  have hin : next ∈ entries (k'.scheds cpu) := mem_entries.mpr ⟨_, hcur, hnext⟩
  have hready : (Sched.saved cpu frame k next).state = .ready :=
    (h.saved frame ht (htick.mem hin)).1.resolve_right hlive
  have hself : k'.pcbs next = { Sched.saved cpu frame k next with state := .running } := by
    rw [htick.pcbs, entered, if_pos hready, Function.update_self]
  have hother : ∀ p, p ≠ next → k'.pcbs p = Sched.saved cpu frame k p := by
    intro p hp
    rw [htick.pcbs, entered, if_pos hready, Function.update_of_ne hp]
  have hstate : ∀ i < (k'.scheds cpu).count, i ≠ (k'.scheds cpu).currentPid →
      (k'.pcbs ((k'.scheds cpu).procs i)).state = .ready ∨ Gone k' ((k'.scheds cpu).procs i) := by
    intro i hi hne
    have hp : (k'.scheds cpu).procs i ≠ next := by
      rw [← hnext]
      exact fun he => hne (htick.table.inj i hi _ hcur he)
    have hs := (h.saved frame ht (htick.mem (mem_entries.mpr ⟨i, hi, rfl⟩))).1
    rw [Gone, (htick.fate _).gone, hother _ hp]
    exact hs
  refine ⟨⟨fun h0 => by omega, fun _ => ⟨hcur, ?_⟩, fun i hi => ?_, fun i hi => ?_⟩, ?_, ?_, ?_, ?_⟩
  · rw [hnext, Gone, (htick.fate next).gone]
    exact hlive
  · by_cases hi' : i = (k'.scheds cpu).currentPid
    · rw [hi', hnext, hself]
      exact .inr (.inr ⟨rfl, rfl⟩)
    · exact (hstate i hi hi').imp_right .inl
  · have hs := (h.saved frame ht (htick.mem (mem_entries.mpr ⟨i, hi, rfl⟩))).2
    by_cases hp : (k'.scheds cpu).procs i = next
    · rw [hp] at hs ⊢
      rw [hself]
      exact hs
    · rw [hother _ hp]
      exact hs
  · rw [hnext]
    exact htick.table.nonzero hin
  · rw [hnext, hself]
  · intro i hi hrun
    by_contra hne
    rcases hstate i hi hne with hs | hs
    · rw [hs] at hrun
      exact absurd hrun (by decide)
    · rw [Gone, hrun] at hs
      exact absurd hs (by decide)
  · rw [hnext, hself, htick.out, if_pos hready]

/-- A stranded tick leaves a terminated process current. -/
theorem Fit.dispatched_iff (h : Fit cpu k) (ht : Table (k.scheds cpu))
    (hcount : (k.scheds cpu).count ≠ 0) (htick : Ticked cpu frame out k k' next gone) :
    Dispatched cpu out k' ↔ ¬ Strands cpu k := by
  refine ⟨fun hd hs => ?_, fun hno => (h.dispatched ht hcount htick hno).2⟩
  obtain ⟨hnext, -, hdead⟩ := h.picked ht hcount htick
  have hgone := ((htick.fate next).gone).mpr (hdead.mpr hs)
  have hrun := hd.running
  rw [hnext, hgone] at hrun
  exact absurd hrun (by decide)

end Tick

section Steps

theorem Fit.spawn (h : Fit cpu k) {user : Bool}
    {entry pagemap vctx proc ctx stack : ℕ} {v₁ v₂ : State σ}
    (hspawn : Spawned A hhdmOffset kernelPagemap kvmCtx cpu user entry pagemap vctx k k' proc ctx
      stack v₁ v₂) (hnew : proc ∉ entries (k.scheds cpu)) : Fit cpu k' := by
  have hold : ∀ i < (k.scheds cpu).count, Function.update (k.scheds cpu).procs
      (k.scheds cpu).count proc i = (k.scheds cpu).procs i :=
    fun i hi => Function.update_of_ne (by omega) _ _
  have hlast : Function.update (k.scheds cpu).procs (k.scheds cpu).count proc
      (k.scheds cpu).count = proc := Function.update_self _ _ _
  have hkeep : ∀ i < (k.scheds cpu).count,
      k'.pcbs ((k.scheds cpu).procs i) = k.pcbs ((k.scheds cpu).procs i) := by
    intro i hi
    rw [hspawn.pcbs, Function.update_of_ne (fun he => hnew (mem_entries.mpr ⟨i, hi, he⟩))]
  have hpcb : (k'.pcbs proc).state = .ready ∧ (k'.pcbs proc).timeslice = procDefaultTime := by
    rw [hspawn.pcbs, Function.update_self]
    exact ⟨rfl, rfl⟩
  refine ⟨?_, ?_, ?_, ?_⟩ <;> rw [hspawn.sched] <;> dsimp only
  · intro h0
    omega
  · intro _
    by_cases h0 : (k.scheds cpu).count = 0
    · rw [h.idle h0, Gone, show Function.update (k.scheds cpu).procs (k.scheds cpu).count proc 0 =
        proc by rw [h0, Function.update_self], hpcb.1]
      exact ⟨by omega, by decide⟩
    · obtain ⟨hc, hlive⟩ := h.current h0
      rw [hold _ hc, Gone, hkeep _ hc]
      exact ⟨by omega, hlive⟩
  · intro i hi
    by_cases hlt : i < (k.scheds cpu).count
    · rw [hold i hlt, Gone, hkeep i hlt]
      exact h.state i hlt
    · rw [show i = (k.scheds cpu).count by omega, hlast]
      exact .inl hpcb.1
  · intro i hi
    by_cases hlt : i < (k.scheds cpu).count
    · rw [hold i hlt, hkeep i hlt]
      exact h.slice i hlt
    · rw [show i = (k.scheds cpu).count by omega, hlast]
      exact hpcb.2

theorem Fit.mark (h : Fit cpu k) {proc : ℕ}
    (hne : proc ≠ (k.scheds cpu).procs (k.scheds cpu).currentPid) :
      Fit cpu (terminated proc k) := by
  refine ⟨h.idle, fun h0 => ?_, fun i hi => ?_, fun i hi => ?_⟩
  · obtain ⟨hc, hlive⟩ := h.current h0
    refine ⟨hc, ?_⟩
    rw [Gone]
    dsimp only [terminated]
    rw [Function.update_of_ne (Ne.symm hne)]
    exact hlive
  · by_cases hp : (k.scheds cpu).procs i = proc
    · refine .inr (.inl ?_)
      rw [Gone]
      dsimp only [terminated]
      rw [hp, Function.update_self]
    · have hs := h.state i hi
      rw [Gone] at hs ⊢
      dsimp only [terminated]
      rw [Function.update_of_ne hp]
      exact hs
  · have hs := h.slice i hi
    dsimp only [terminated]
    by_cases hp : (k.scheds cpu).procs i = proc
    · rw [hp] at hs ⊢
      rw [Function.update_self]
      exact hs
    · rw [Function.update_of_ne hp]
      exact hs

theorem Fit.congr (h : Fit cpu k) (hs : k'.scheds = k.scheds) (hp : k'.pcbs = k.pcbs) :
    Fit cpu k' := by
  refine ⟨?_, ?_, ?_, ?_⟩ <;> simp only [hs, hp, Gone]
  · exact h.idle
  · exact h.current
  · exact h.state
  · exact h.slice

structure Inv (cpu lo hi : ℕ) (k : Kernel σ) : Prop where
  tables : ∃ live bs, SchedIntegrity.Inv lo hi k live bs
  fit : Fit cpu k

theorem step_inv (hi' : Inv cpu lo hi k) {o : Op} (hperm : Permitted cpu k o)
    (hr : step A hhdmOffset kernelPagemap kvmCtx k o = some k') : Inv cpu lo hi k' := by
  obtain ⟨live, bs, htab⟩ := hi'.tables
  refine ⟨SchedIntegrity.step_inv htab hr, ?_⟩
  cases o with
  | init c => exact hperm.elim
  | spawn c user entry pagemap vctx =>
    obtain rfl : c = cpu := hperm
    obtain ⟨pid, h⟩ := returned_eq hr
    obtain ⟨proc, ctx, stack, v₁, v₂, hspawn⟩ := schedSpawn_returned h
    obtain ⟨hfresh, -⟩ := htab.heap.kmalloc_fresh hspawn.pcb hspawn.pcb_ne
    exact hi'.fit.spawn hspawn (fun hin => hfresh (htab.onHeap c proc hin))
  | tick c ctx =>
    obtain ⟨rfl, hno⟩ := hperm
    obtain ⟨r, h⟩ := returned_eq hr
    rcases SchedIntegrity.tick_cases htab.table h with
      ⟨hs, -, hp⟩ | ⟨frame, out, next, gone, -, -, hcount, htick⟩
    · exact hi'.fit.congr hs hp
    · exact (hi'.fit.dispatched (htab.table c) hcount htick hno).1
  | mark proc =>
    obtain rfl : terminated proc k = k' := Option.some.inj hr
    exact hi'.fit.mark hperm

end Steps

theorem init_inv {boot : Kernel σ} {live : List ℕ} {bs : List HeapBlocks.Blk} {u : Unit}
    (hheap : HeapRuns.Inv lo hi ⟨boot.heap, live⟩ bs)
    (hboot : ∀ c, boot.scheds c = ⟨0, fun _ => 0, 0, 0⟩)
    (hinit : schedInit cpu boot = (some u, k)) : Inv cpu lo hi k := by
  obtain ⟨live', bs', htab, -⟩ := (SchedIntegrity.boot_inv hheap hboot).init hinit
  refine ⟨⟨live', bs', htab⟩, ?_⟩
  obtain ⟨table, heap, -, -, rfl⟩ := schedInit_returned hinit
  refine ⟨?_, ?_, ?_, ?_⟩ <;> dsimp only <;> rw [Function.update_self]
  · exact fun _ => rfl
  · exact fun h0 => absurd rfl h0
  · exact fun i hi => absurd hi (Nat.not_lt_zero i)
  · exact fun i hi => absurd hi (Nat.not_lt_zero i)

/-- From `sched_init` on, in every run of one CPU that terminates only other
processes than the current one and whose ticks are not stranded, a tick leaves
the CPU on a running process exactly when it is not stranded itself. -/
theorem tick_dispatches (boot start k : Kernel σ) (live : List ℕ) (bs : List HeapBlocks.Blk)
    (ops : List Op) (hheap : HeapRuns.Inv lo hi ⟨boot.heap, live⟩ bs)
    (hboot : ∀ c, boot.scheds c = ⟨0, fun _ => 0, 0, 0⟩)
    (hinit : schedInit cpu boot = (some (), start))
    (hops : Along (lift (step A hhdmOffset kernelPagemap kvmCtx)) (Issued (Permitted cpu))
      (some start) ops)
    (hrun : run (lift (step A hhdmOffset kernelPagemap kvmCtx)) (some start) ops = some k) :
    ∀ frame out k', schedTick A hhdmOffset kernelPagemap cpu (some frame) k =
      (some (some out), k') →
      0 < (k'.scheds cpu).count → (Dispatched cpu out k' ↔ ¬ Strands cpu k) := by
  have hinv := run_lift_safe (fun _ _ _ hi hp hr => step_inv hi hp hr) (init_inv hheap hboot hinit)
    hops hrun
  obtain ⟨live', bs', htab⟩ := hinv.tables
  intro frame out k' hr hcount'
  have hcount : (k.scheds cpu).count ≠ 0 := by
    intro h0
    rw [schedTick_idle h0, pmset] at hr
    split_ifs at hr
    · exact never_returned hr
    · obtain ⟨-, rfl⟩ := Prod.mk.inj hr
      exact absurd hcount' (by simp [h0])
  obtain ⟨out', next, gone, hout, htick⟩ := schedTick_returned (htab.table cpu) hcount hr
  obtain rfl := Option.some.inj hout
  exact hinv.fit.dispatched_iff (htab.table cpu) hcount htick

def smallStep (k : Kernel (List ℕ)) (o : Op) : Option (Kernel (List ℕ)) :=
  step smallOps smallLayout.hhdmOffset smallLayout.hhdmOffset bootContext.1 k o

def smallTick (k : Kernel (List ℕ)) : Option (Option RegisterCtx) × Kernel (List ℕ) :=
  schedTick smallOps smallLayout.hhdmOffset smallLayout.hhdmOffset 0 (some {}) k

/-- Four processes with contexts of their own, the last one current. -/
def fourProcs : List Op :=
  List.replicate 4 (.spawn 0 false 0x5000 0 0) ++ List.replicate 3 (.tick 0 (some {}))

theorem tick_dispatches_small :
    ∃ k k' out, run (lift smallStep) (some (idleKernel 2)) (fourProcs ++ [.mark 8224, .mark 8800]) =
        some k ∧
      smallTick k = (some (some out), k') ∧ Dispatched 0 out k' := by
  obtain ⟨bs, hheap⟩ := bootKernel_heap 2 (by decide) (by decide +kernel)
    (by decide +kernel)
  have hinit := idleKernel_init 2 (by decide +kernel)
  have hall : (run (lift smallStep) (some (idleKernel 2))
    (fourProcs ++ [.mark 8224, .mark 8800])).any
      (fun k => (smallTick k).1.any (fun out => out.isSome) &&
        decide (0 < ((smallTick k).2.scheds 0).count ∧ ¬ Strands 0 k)) = true := by decide +kernel
  obtain ⟨k, hk, hall⟩ := (Option.any_eq_true _ _).mp hall
  obtain ⟨hret, hcond⟩ := Bool.and_eq_true_iff.mp hall
  obtain ⟨r, hr, hsome⟩ := (Option.any_eq_true _ _).mp hret
  obtain ⟨out, rfl⟩ := Option.isSome_iff_exists.mp hsome
  obtain ⟨hcount, hno⟩ := of_decide_eq_true hcond
  refine ⟨k, (smallTick k).2, out, hk, Prod.ext hr rfl, ?_⟩
  exact (tick_dispatches (bootKernel 2) (idleKernel 2) k [] bs _ hheap (fun _ => rfl) hinit
    (by decide +kernel) hk {} out _ (Prod.ext hr rfl) hcount).mpr hno

/-- Three of four processes have terminated and the fourth is current. The
tick removes two of them, passes over the other two and ends on the one that
has terminated. -/
theorem tick_ends_on_terminated :
    Along (lift smallStep) (Issued (Permitted 0)) (some (idleKernel 2))
      (fourProcs ++ [.mark 8224, .mark 8512, .mark 8800]) ∧
    ∃ k k' out, run (lift smallStep) (some (idleKernel 2))
        (fourProcs ++ [.mark 8224, .mark 8512, .mark 8800]) = some k ∧
      smallTick k = (some (some out), k') ∧ 0 < (k'.scheds 0).count ∧
      entries (k'.scheds 0) = [8512, 9088] ∧ ¬ Dispatched 0 out k' := by
  refine ⟨by decide +kernel, ?_⟩
  have hall : (run (lift smallStep) (some (idleKernel 2))
      (fourProcs ++ [.mark 8224, .mark 8512, .mark 8800])).any (fun k =>
        (smallTick k).1.any (fun out => out.isSome) &&
        decide (0 < ((smallTick k).2.scheds 0).count ∧
          entries ((smallTick k).2.scheds 0) = [8512, 9088] ∧
          Gone (smallTick k).2 (((smallTick k).2.scheds 0).procs
            ((smallTick k).2.scheds 0).currentPid))) = true := by decide +kernel
  obtain ⟨k, hk, hall⟩ := (Option.any_eq_true _ _).mp hall
  obtain ⟨hret, hcond⟩ := Bool.and_eq_true_iff.mp hall
  obtain ⟨r, hr, hsome⟩ := (Option.any_eq_true _ _).mp hret
  obtain ⟨out, rfl⟩ := Option.isSome_iff_exists.mp hsome
  obtain ⟨hcount, hentries, hgone⟩ := of_decide_eq_true hcond
  refine ⟨k, (smallTick k).2, out, hk, Prod.ext hr rfl, hcount, hentries, fun hd => ?_⟩
  have hrun := hd.running
  rw [hgone] at hrun
  exact absurd hrun (by decide)

end Emk.SchedDispatch
