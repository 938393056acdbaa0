import Emk.CursorWait
import Emk.SchedNext

/-!
# No process starves

A tick can pass over a process that is not terminated, but only by removing a
terminated one before it. In every run over any number of CPUs a process that
nobody terminates is entered again within as many ticks of its CPU as its table
has places, taken once for each place up to its own.
-/

set_option autoImplicit false

namespace Emk.SchedProgress
open Emk.PageAllocator Emk.Vmm Emk.Calls Emk.Transition Emk.Sched Emk.CursorScan
open Emk.ReferenceAllocator
open Emk.SchedIntegrity (Op step returned_eq tick_cases terminated terminated_self
  terminated_other spawnTest smallRun)
open Emk.SchedNext (Entered Runnable entered_picked)

variable {σ : Type}

/-- Nobody terminates the process, its CPU is not started again, and its table
holds at most `most` processes. -/
def Spares (cpu p most : ℕ) (k : Kernel σ) (o : Op) : Prop :=
  (k.scheds cpu).count ≤ most ∧
    match o with
    | .init c => c ≠ cpu
    | .mark q => q ≠ p
    | _ => True

instance decidableSpares (cpu p most : ℕ) (k : Kernel σ) (o : Op) :
    Decidable (Spares cpu p most k o) := by
  unfold Spares
  cases o <;> exact inferInstance

/-- A tick of the CPU on an interrupted frame. -/
def interrupts (cpu : ℕ) : Op → Bool
  | .tick c (some _) => c = cpu
  | _ => false

theorem interrupts_tick {cpu c : ℕ} {ctx : Option RegisterCtx}
    (h : interrupts cpu (.tick c ctx) = true) : ∃ frame, c = cpu ∧ ctx = some frame := by
  cases ctx with
  | none => exact nomatch h
  | some frame => exact ⟨frame, of_decide_eq_true h, rfl⟩

/-- What a tick relies on: the current position is in the table, only its
process can be running, and every timeslice is the default one. -/
structure Sound (cpu : ℕ) (k : Kernel σ) : Prop where
  current : (k.scheds cpu).currentPid < (k.scheds cpu).count ∨
    ((k.scheds cpu).count = 0 ∧ (k.scheds cpu).currentPid = 0)
  state : Runnable cpu k
  slice : ∀ i < (k.scheds cpu).count,
    (k.pcbs ((k.scheds cpu).procs i)).timeslice = procDefaultTime

variable {A : Ops σ} {hhdmOffset kernelPagemap kvmCtx cpu lo hi p most : ℕ} {k k' : Kernel σ}

section Tick
variable {frame out : RegisterCtx} {next : ℕ} {gone : List ℕ}

/-- The process that a tick ends on is the current one. -/
theorem ticked_current (htick : Ticked cpu frame out k k' next gone) :
    (k'.scheds cpu).currentPid < (k'.scheds cpu).count ∧
      (k'.scheds cpu).procs (k'.scheds cpu).currentPid = next := by
  obtain ⟨r, hscan, hpick, hreel⟩ := htick.scan
  have hat := pick_at hscan
  rw [hpick, hreel, reel] at hat
  dsimp only at hat
  have hin : (k'.scheds cpu).currentPid < (k'.scheds cpu).count := by
    by_contra hge
    rw [entries_past (by omega)] at hat
    exact absurd hat (by simp)
  rw [entries_get hin] at hat
  exact ⟨hin, Option.some.inj hat⟩

theorem ticked_next_mem (htick : Ticked cpu frame out k k' next gone) :
    next ∈ entries (k.scheds cpu) := by
  obtain ⟨hin, hnext⟩ := ticked_current htick
  exact htick.mem (mem_entries.mpr ⟨_, hin, hnext⟩)

/-- A tick changes no control block but those of its own table. -/
theorem ticked_pcbs (ht : Table (k.scheds cpu)) (htick : Ticked cpu frame out k k' next gone)
    {q : ℕ} (hq : q ∉ entries (k.scheds cpu)) : k'.pcbs q = k.pcbs q := by
  have hne : q ≠ next := fun he => hq (he ▸ ticked_next_mem htick)
  have hsaved : saved cpu frame k q = k.pcbs q := by
    rw [saved]
    split_ifs with hrun
    · refine Function.update_of_ne ?_ _ _
      rintro rfl
      exact hq (mem_entries.mpr ⟨_, ht.used hrun.1, rfl⟩)
    · rfl
  rw [htick.pcbs, entered]
  split_ifs
  · rw [Function.update_of_ne hne, hsaved]
  · exact hsaved

variable (frame) in
/-- Once the outgoing process is saved, every process is ready or has terminated. -/
theorem Sound.saved (h : Sound cpu k) (ht : Table (k.scheds cpu)) {q : ℕ}
    (hq : q ∈ entries (k.scheds cpu)) :
    ((saved cpu frame k q).state = .ready ∨ (saved cpu frame k q).state = .terminated) ∧
      (saved cpu frame k q).timeslice = procDefaultTime := by
  obtain ⟨i, hi, rfl⟩ := mem_entries.mp hq
  rw [Sched.saved]
  split_ifs with hrun
  · by_cases he : (k.scheds cpu).procs i = (k.scheds cpu).procs (k.scheds cpu).currentPid
    · rw [he, Function.update_self, savedPcb_expired (h.slice _ (ht.used hrun.1)) frame]
      exact ⟨.inl rfl, rfl⟩
    · rw [Function.update_of_ne he]
      refine ⟨(h.state i hi).imp_right (fun hs => hs.resolve_right ?_), h.slice i hi⟩
      rintro ⟨-, rfl⟩
      exact he rfl
  · refine ⟨(h.state i hi).imp_right (fun hs => hs.resolve_right ?_), h.slice i hi⟩
    rintro ⟨hs, rfl⟩
    exact hrun ⟨ht.filled _ hi, hs⟩

theorem Sound.tick (h : Sound cpu k) (ht : Table (k.scheds cpu))
    (htick : Ticked cpu frame out k k' next gone) : Sound cpu k' := by
  obtain ⟨hcur, hnext⟩ := ticked_current htick
  have hold : ∀ i < (k'.scheds cpu).count, (k'.scheds cpu).procs i ∈ entries (k.scheds cpu) :=
    fun i hi => htick.mem (mem_entries.mpr ⟨i, hi, rfl⟩)
  have hslice : ∀ q, (k'.pcbs q).timeslice = (Sched.saved cpu frame k q).timeslice := by
    intro q
    rw [htick.pcbs, entered]
    split_ifs
    · by_cases hq : q = next
      · rw [hq, Function.update_self]
      · rw [Function.update_of_ne hq]
    · rfl
  refine ⟨.inl hcur, fun i hi => ?_, fun i hi => ?_⟩
  · have hs := (h.saved frame ht (hold i hi)).1
    rw [Gone, htick.pcbs, entered]
    split_ifs with hready
    · by_cases he : (k'.scheds cpu).procs i = next
      · rw [he, Function.update_self]
        exact .inr (.inr ⟨rfl, htick.table.inj i hi _ hcur (he.trans hnext.symm)⟩)
      · rw [Function.update_of_ne he]
        exact hs.imp_right .inl
    · exact hs.imp_right .inl
  · rw [hslice]
    exact (h.saved frame ht (hold i hi)).2

end Tick

section Steps

/-- The table is the same, and a control block in it has at most terminated. -/
theorem Sound.change (h : Sound cpu k) (hs : k'.scheds cpu = k.scheds cpu)
    (hp : ∀ q ∈ entries (k.scheds cpu), (k'.pcbs q).timeslice = (k.pcbs q).timeslice ∧
      ((k'.pcbs q).state = (k.pcbs q).state ∨ Gone k' q)) : Sound cpu k' := by
  refine ⟨hs ▸ h.current, ?_, ?_⟩
  · rw [Runnable, hs]
    intro i hi
    rcases (hp _ (mem_entries.mpr ⟨i, hi, rfl⟩)).2 with he | hg
    · rw [Gone, he]
      exact h.state i hi
    · exact .inr (.inl hg)
  · rw [hs]
    intro i hi
    rw [(hp _ (mem_entries.mpr ⟨i, hi, rfl⟩)).1]
    exact h.slice i hi

theorem Sound.congr (h : Sound cpu k) (hs : k'.scheds cpu = k.scheds cpu)
    (hp : ∀ q ∈ entries (k.scheds cpu), k'.pcbs q = k.pcbs q) : Sound cpu k' :=
  h.change hs fun q hq => by rw [hp q hq]; exact ⟨rfl, .inl rfl⟩

theorem sound_empty (h0 : (k.scheds cpu).count = 0) (hc : (k.scheds cpu).currentPid = 0) :
    Sound cpu k :=
  ⟨.inr ⟨h0, hc⟩, fun i hi => by omega, fun i hi => by omega⟩

theorem Sound.spawn (h : Sound cpu k) {user : Bool} {entry pagemap vctx proc ctx stack : ℕ}
    {v₁ v₂ : State σ}
    (hspawn : Spawned A hhdmOffset kernelPagemap kvmCtx cpu user entry pagemap vctx k k' proc ctx
      stack v₁ v₂) (hnew : proc ∉ entries (k.scheds cpu)) : Sound cpu k' := by
  have hkeep : ∀ i < (k.scheds cpu).count,
      (k'.scheds cpu).procs i = (k.scheds cpu).procs i ∧
        k'.pcbs ((k.scheds cpu).procs i) = k.pcbs ((k.scheds cpu).procs i) := by
    intro i hi
    rw [hspawn.sched, hspawn.pcbs]
    exact ⟨Function.update_of_ne (by omega) _ _,
      Function.update_of_ne (fun he => hnew (mem_entries.mpr ⟨i, hi, he⟩)) _ _⟩
  have hcount : (k'.scheds cpu).count = (k.scheds cpu).count+1 := by rw [hspawn.sched]
  have hcurrent : (k'.scheds cpu).currentPid = (k.scheds cpu).currentPid := by rw [hspawn.sched]
  have hlast : (k'.scheds cpu).procs (k.scheds cpu).count = proc := by
    rw [hspawn.sched]
    exact Function.update_self _ _ _
  have hpcb : (k'.pcbs proc).state = .ready ∧ (k'.pcbs proc).timeslice = procDefaultTime := by
    rw [hspawn.pcbs, Function.update_self]
    exact ⟨rfl, rfl⟩
  refine ⟨?_, fun i hi => ?_, fun i hi => ?_⟩
  · rcases h.current with hlt | ⟨h0, hc⟩ <;> omega
  · by_cases hlt : i < (k.scheds cpu).count
    · obtain ⟨hproc, hsame⟩ := hkeep i hlt
      rw [Gone, hproc, hsame, hcurrent]
      exact h.state i hlt
    · obtain rfl : i = (k.scheds cpu).count := by omega
      rw [hlast]
      exact .inl hpcb.1
  · by_cases hlt : i < (k.scheds cpu).count
    · obtain ⟨hproc, hsame⟩ := hkeep i hlt
      rw [hproc, hsame]
      exact h.slice i hlt
    · obtain rfl : i = (k.scheds cpu).count := by omega
      rw [hlast]
      exact hpcb.2

/-- The tables of all CPUs and what their ticks rely on. -/
def Inv (lo hi : ℕ) (k : Kernel σ) : Prop :=
  (∃ live bs, SchedIntegrity.Inv lo hi k live bs) ∧ ∀ cpu, Sound cpu k

theorem step_inv (hinv : Inv lo hi k) {o : Op}
    (hr : step A hhdmOffset kernelPagemap kvmCtx k o = some k') : Inv lo hi k' := by
  obtain ⟨⟨live, bs, htab⟩, hsound⟩ := hinv
  refine ⟨SchedIntegrity.step_inv htab hr, fun d => ?_⟩
  cases o with
  | init c =>
    obtain ⟨u, h⟩ := returned_eq hr
    obtain ⟨table, heap, -, -, rfl⟩ := schedInit_returned h
    by_cases hd : d = c
    · subst hd
      refine sound_empty ?_ ?_ <;> dsimp only <;> rw [Function.update_self]
    · exact (hsound d).congr (Function.update_of_ne hd _ _) fun _ _ => rfl
  | spawn c user entry pagemap vctx =>
    obtain ⟨pid, h⟩ := returned_eq hr
    obtain ⟨proc, ctx, stack, v₁, v₂, hspawn⟩ := schedSpawn_returned h
    obtain ⟨hfresh, -⟩ := htab.heap.kmalloc_fresh hspawn.pcb hspawn.pcb_ne
    have hnew : proc ∉ entries (k.scheds d) := fun hin => hfresh (htab.onHeap d proc hin)
    by_cases hd : d = c
    · subst hd
      exact (hsound d).spawn hspawn hnew
    · refine (hsound d).congr (by rw [hspawn.scheds, Function.update_of_ne hd]) fun q hq => ?_
      have hne : q ≠ proc := fun he => hnew (he ▸ hq)
      rw [hspawn.pcbs, Function.update_of_ne hne]
  | tick c ctx =>
    obtain ⟨r, h⟩ := returned_eq hr
    rcases tick_cases htab.table h with
      ⟨hs, -, hp⟩ | ⟨frame, out, next, gone, -, -, -, htick⟩
    · exact (hsound d).congr (by rw [hs]) fun q _ => by rw [hp]
    · by_cases hd : d = c
      · subst hd
        exact (hsound d).tick (htab.table d) htick
      · exact (hsound d).congr (htick.others d hd) fun q hq =>
          ticked_pcbs (htab.table c) htick (htab.apart d c hd q hq)
  | mark proc =>
    obtain rfl : terminated proc k = k' := Option.some.inj hr
    refine (hsound d).change rfl fun q _ => ?_
    by_cases hq : q = proc
    · rw [hq, Gone, terminated_self]
      exact ⟨rfl, .inr rfl⟩
    · rw [terminated_other hq]
      exact ⟨rfl, .inl rfl⟩

theorem boot_inv {boot : Kernel σ} {live : List ℕ} {bs : List HeapBlocks.Blk}
    (hheap : HeapRuns.Inv lo hi ⟨boot.heap, live⟩ bs)
    (hboot : ∀ cpu, boot.scheds cpu = ⟨0, fun _ => 0, 0, 0⟩) : Inv lo hi boot :=
  ⟨⟨live, bs, SchedIntegrity.boot_inv hheap hboot⟩,
    fun cpu => sound_empty (by rw [hboot]) (by rw [hboot])⟩

end Steps

section Waiting

/-- The process is in the table and has not terminated, and `n` counts the ticks
it may still have to wait for. -/
structure Waits (cpu p most : ℕ) (k : Kernel σ) (n : ℕ) : Prop where
  live : ¬ Gone k p
  cursor : (k.scheds cpu).currentPid < most
  place : ∃ i < most, (entries (k.scheds cpu))[i]? = some p ∧
    n = wait most (k.scheds cpu).currentPid i

theorem Waits.pos {n : ℕ} (h : Waits cpu p most k n) : 0 < n := by
  obtain ⟨i, -, -, rfl⟩ := h.place
  exact Nat.add_pos_right _ (ahead_pos h.cursor)

/-- What leaves the table and the process alone leaves the wait as it is. -/
theorem Waits.congr {n : ℕ} (h : Waits cpu p most k n)
    (hcur : (k'.scheds cpu).currentPid = (k.scheds cpu).currentPid)
    (hkeep : ∀ i : ℕ, (entries (k.scheds cpu))[i]? = some p →
      (entries (k'.scheds cpu))[i]? = some p)
    (hlive : ¬ Gone k' p) : Waits cpu p most k' n := by
  obtain ⟨i, hi, hp, rfl⟩ := h.place
  exact ⟨hlive, hcur ▸ h.cursor, i, hi, hkeep i hp, by rw [hcur]⟩

theorem Waits.same {n : ℕ} (h : Waits cpu p most k n) (hs : k'.scheds cpu = k.scheds cpu)
    (hlive : ¬ Gone k' p) : Waits cpu p most k' n :=
  h.congr (by rw [hs]) (fun i hi => by rw [hs, hi]) hlive

/-- The operation is a tick that enters the process. -/
def Enters (A : Ops σ) (hhdmOffset kernelPagemap cpu p : ℕ) (k : Kernel σ) (o : Op)
    (k' : Kernel σ) : Prop :=
  ∃ frame out, o = .tick cpu (some frame) ∧
    schedTick A hhdmOffset kernelPagemap cpu (some frame) k = (some (some out), k') ∧
    Entered cpu out p k'

/-- A tick enters the process or shortens its wait. -/
theorem Waits.tick {n : ℕ} {frame out : RegisterCtx} {next : ℕ} {gone : List ℕ}
    (h : Waits cpu p most k n) (ht : Table (k.scheds cpu)) (hsound : Sound cpu k)
    (hmost : (k.scheds cpu).count ≤ most) (hsize : most ≤ procMaxProcsPerCpu)
    (htick : Ticked cpu frame out k k' next gone) :
    Entered cpu out p k' ∨ ∃ m, Waits cpu p most k' m ∧ m+1 ≤ n := by
  obtain ⟨i, hi, hp, rfl⟩ := h.place
  obtain ⟨hcur, hnext⟩ := ticked_current htick
  have hcount : (k'.scheds cpu).count ≤ (k.scheds cpu).count := by
    rw [← entries_length, ← entries_length, htick.kept]
    exact List.length_filter_le _ _
  obtain ⟨r, hscan, hpick, hreel⟩ := htick.scan
  have hin : (k'.scheds cpu).currentPid < most :=
    Nat.lt_of_lt_of_le hcur (hcount.trans hmost)
  have hcur' : (pick r).2.cursor < most := by
    rw [hreel]
    exact hin
  rcases pick_wait (q := reel cpu k) hsize h.cursor hi hp h.live hscan hcur' with
    hfound | ⟨j, hj, hp', hlt⟩
  · obtain rfl : next = p := Option.some.inj (hpick.symm.trans hfound)
    obtain ⟨hrun, hframe⟩ := entered_picked ht hsound.state htick (ticked_next_mem htick) h.live
    exact .inl ⟨hnext, hrun, hframe⟩
  · rw [hreel] at hp' hlt
    refine .inr ⟨_, ⟨?_, hin, j, by omega, hp', rfl⟩, hlt⟩
    rw [Gone, (htick.fate p).gone]
    exact h.live

theorem step_waits {n : ℕ} {o : Op} (hinv : Inv lo hi k) (h : Waits cpu p most k n)
    (hsize : most ≤ procMaxProcsPerCpu) (hspares : Spares cpu p most k o)
    (hr : step A hhdmOffset kernelPagemap kvmCtx k o = some k') :
    Enters A hhdmOffset kernelPagemap cpu p k o k' ∨
      ∃ m, Waits cpu p most k' m ∧ m+(interrupts cpu o).toNat ≤ n := by
  obtain ⟨⟨live, bs, htab⟩, hsound⟩ := hinv
  obtain ⟨hmost, hspares⟩ := hspares
  have hin : p ∈ entries (k.scheds cpu) := by
    obtain ⟨i, -, hp, -⟩ := h.place
    exact List.mem_of_getElem? hp
  cases o with
  | init c =>
    obtain ⟨u, hinit⟩ := returned_eq hr
    obtain ⟨table, heap, -, -, rfl⟩ := schedInit_returned hinit
    refine .inr ⟨n, h.same ?_ h.live, Nat.le_refl n⟩
    exact Function.update_of_ne (Ne.symm hspares) _ _
  | spawn c user entry pagemap vctx =>
    obtain ⟨pid, hret⟩ := returned_eq hr
    obtain ⟨proc, ctx, stack, v₁, v₂, hspawn⟩ := schedSpawn_returned hret
    obtain ⟨hfresh, -⟩ := htab.heap.kmalloc_fresh hspawn.pcb hspawn.pcb_ne
    have hnew : proc ∉ entries (k.scheds cpu) := fun hin => hfresh (htab.onHeap cpu proc hin)
    have hlive : ¬ Gone k' p := by
      have hne : p ≠ proc := fun he => hnew (he ▸ hin)
      rw [Gone, hspawn.pcbs, Function.update_of_ne hne]
      exact h.live
    refine .inr ⟨n, ?_, Nat.le_refl n⟩
    by_cases hc : c = cpu
    · subst hc
      refine h.congr (by rw [hspawn.sched]) (fun i hi => ?_) hlive
      rw [(hspawn.table (htab.table c) hnew).2,
        List.getElem?_append_left (List.getElem?_eq_some_iff.mp hi).1, hi]
    · refine h.same ?_ hlive
      rw [hspawn.scheds, Function.update_of_ne (Ne.symm hc)]
  | tick c ctx =>
    obtain ⟨r, hret⟩ := returned_eq hr
    cases hown : interrupts cpu (.tick c ctx) with
    | true =>
      obtain ⟨frame, rfl, rfl⟩ := interrupts_tick hown
      have hcount : (k.scheds c).count ≠ 0 := by
        obtain ⟨i, hi, -⟩ := mem_entries.mp hin
        omega
      obtain ⟨out, next, gone, rfl, htick⟩ := schedTick_returned (htab.table c) hcount hret
      rcases h.tick (htab.table c) (hsound c) hmost hsize htick with he | ⟨m, hm, hle⟩
      · exact .inl ⟨frame, out, rfl, hret, he⟩
      · exact .inr ⟨m, hm, hle⟩
    | false =>
      refine .inr ⟨n, ?_, Nat.le_refl n⟩
      rcases tick_cases htab.table hret with
        ⟨hs, -, hp⟩ | ⟨frame, out, next, gone, rfl, -, -, htick⟩
      · refine h.same (by rw [hs]) ?_
        rw [Gone, hp]
        exact h.live
      · refine h.same (htick.others cpu (fun he => by simp [interrupts, he] at hown)) ?_
        rw [Gone, (htick.fate p).gone]
        exact h.live
  | mark q =>
    obtain rfl : terminated q k = k' := Option.some.inj hr
    refine .inr ⟨n, h.same rfl ?_, Nat.le_refl n⟩
    rw [Gone, terminated_other (Ne.symm hspares)]
    exact h.live

end Waiting

/-- From any state that any run over all CPUs has reached on, a process that has
not terminated is entered by one of the next ticks of its CPU, and there are at
most as many as its table holds processes for each entry up to its own, however
the other processes come and go. -/
theorem entered_within (boot k k' : Kernel σ) (live : List ℕ) (bs : List HeapBlocks.Blk)
    (ops more : List Op) (i : ℕ) (hheap : HeapRuns.Inv lo hi ⟨boot.heap, live⟩ bs)
    (hboot : ∀ cpu, boot.scheds cpu = ⟨0, fun _ => 0, 0, 0⟩)
    (hrun : run (lift (step A hhdmOffset kernelPagemap kvmCtx)) (some boot) ops = some k)
    (hplace : i < (k.scheds cpu).count) (hlive : ¬ Gone k ((k.scheds cpu).procs i))
    (hcount : (k.scheds cpu).count ≤ most) (hsize : most ≤ procMaxProcsPerCpu)
    (hspares : Along (lift (step A hhdmOffset kernelPagemap kvmCtx))
      (Issued (Spares cpu ((k.scheds cpu).procs i) most)) (some k) more)
    (hmore : run (lift (step A hhdmOffset kernelPagemap kvmCtx)) (some k) more = some k')
    (hlong : most*(i+1) ≤ more.countP (interrupts cpu)) :
    ∃ before o after k₁ k₂, more = before ++ o::after ∧
      run (lift (step A hhdmOffset kernelPagemap kvmCtx)) (some k) before = some k₁ ∧
      step A hhdmOffset kernelPagemap kvmCtx k₁ o = some k₂ ∧
      Enters A hhdmOffset kernelPagemap cpu ((k.scheds cpu).procs i) k₁ o k₂ := by
  have hinv : Inv lo hi k := run_lift_closed (fun _ _ _ hinv hr => step_inv hinv hr)
    (boot_inv hheap hboot) hrun
  have hcur : (k.scheds cpu).currentPid < most := by
    rcases (hinv.2 cpu).current with hlt | ⟨h0, -⟩ <;> omega
  have hwaits : Waits cpu ((k.scheds cpu).procs i) most k
      (wait most (k.scheds cpu).currentPid i) :=
    ⟨hlive, hcur, i, by omega, entries_get hplace, rfl⟩
  refine run_lift_within (W := fun s n => Inv lo hi s ∧
    Waits cpu ((k.scheds cpu).procs i) most s n) (interrupts cpu) (fun _ _ h => h.2.pos) ?_
    ⟨hinv, hwaits⟩ hspares hmore ((wait_le (by omega)).trans hlong)
  rintro k₁ o k₂ n ⟨hinv₁, h₁⟩ hs hr
  rcases step_waits hinv₁ h₁ hsize hs hr with he | ⟨m, hm, hle⟩
  · exact .inl he
  · exact .inr ⟨m, ⟨step_inv hinv₁ hr, hm⟩, hle⟩

/-- Three processes, of which the second has terminated. The next tick removes
it and passes over the third one, which is entered later on. -/
def passedOver : List Op :=
  .init 0::(List.replicate 3 (.spawn 0 false 0x5000 0 0) ++ [.mark 8512])

theorem entered_within_three :
    ∃ k k', smallRun 2 passedOver = some k ∧
      run (lift (step smallOps smallLayout.hhdmOffset smallLayout.hhdmOffset bootContext.1))
        (some k) (List.replicate 9 (.tick 0 (some {}))) = some k' ∧
      (k.scheds 0).procs 2 = 8800 ∧
      ∃ before o after k₁ k₂, List.replicate 9 (Op.tick 0 (some {})) = before ++ o::after ∧
        run (lift (step smallOps smallLayout.hhdmOffset smallLayout.hhdmOffset bootContext.1))
          (some k) before = some k₁ ∧
        step smallOps smallLayout.hhdmOffset smallLayout.hhdmOffset bootContext.1 k₁ o = some k₂ ∧
        Enters smallOps smallLayout.hhdmOffset smallLayout.hhdmOffset 0 ((k.scheds 0).procs 2)
          k₁ o k₂ := by
  obtain ⟨bs, hheap⟩ := bootKernel_heap 2 (by decide) (by decide +kernel)
    (by decide +kernel)
  have hall : (smallRun 2 passedOver).any (fun k =>
      (run (lift (step smallOps smallLayout.hhdmOffset smallLayout.hhdmOffset bootContext.1))
        (some k) (List.replicate 9 (.tick 0 (some {})))).isSome &&
      decide ((k.scheds 0).count = 3 ∧ (k.scheds 0).procs 2 = 8800 ∧ ¬ Gone k 8800 ∧
        Along (lift (step smallOps smallLayout.hhdmOffset smallLayout.hhdmOffset bootContext.1))
          (Issued (Spares 0 8800 3)) (some k) (List.replicate 9 (.tick 0 (some {}))))) = true := by
    decide +kernel
  obtain ⟨k, hk, hall⟩ := (Option.any_eq_true _ _).mp hall
  obtain ⟨hret, hcond⟩ := Bool.and_eq_true_iff.mp hall
  obtain ⟨k', hk'⟩ := Option.isSome_iff_exists.mp hret
  obtain ⟨hcount, hproc, hlive, hspares⟩ := of_decide_eq_true hcond
  rw [← hproc] at hlive hspares
  refine ⟨k, k', hk, hk', hproc, ?_⟩
  exact entered_within (bootKernel 2) k k' [] bs passedOver _ 2 hheap (fun _ => rfl) hk
    (by omega) hlive (by omega) (by decide) hspares hk' (by decide)

end Emk.SchedProgress
