import Emk.CursorScan
import Emk.HeapRuns
import Emk.SchedExit
import Emk.SchedLocks

/-!
# The process table as a list

The entries in use are a list without repetition, and the loop of `sched_tick`
is a cursor over it that drops terminated processes. A tick takes nothing else
out of the table and leaves the other tables alone.
-/

set_option autoImplicit false

namespace Emk.Sched
open Emk.PageAllocator Emk.Paging Emk.Vmm Emk.Calls Emk.CursorScan
open Emk.FirstFitHeap (Heap)

variable {σ : Type} {A : Ops σ} {hhdmOffset kernelPagemap kvmCtx cpu : ℕ} {k k' : Kernel σ}

section Entries
variable {c : CpuSched}

/-- The processes of a table in its order. -/
def entries (c : CpuSched) : List ℕ := (List.range c.count).map c.procs

theorem entries_length (c : CpuSched) : (entries c).length = c.count := by simp [entries]

theorem mem_entries {p : ℕ} : p ∈ entries c ↔ ∃ i < c.count, c.procs i = p := by
  simp [entries]

theorem entries_get {i : ℕ} (hi : i < c.count) : (entries c)[i]? = some (c.procs i) := by
  simp [entries, hi]

theorem entries_past {i : ℕ} (hi : c.count ≤ i) : (entries c)[i]? = none := by
  rw [List.getElem?_eq_none]
  rwa [entries_length]

theorem Table.nodup (h : Table c) : (entries c).Nodup := by
  refine List.Nodup.map_on (fun i hi j hj he => ?_) List.nodup_range
  exact h.inj i (List.mem_range.mp hi) j (List.mem_range.mp hj) he

theorem Table.nonzero (h : Table c) {p : ℕ} (hp : p ∈ entries c) : p ≠ 0 := by
  obtain ⟨i, hi, rfl⟩ := mem_entries.mp hp
  exact h.filled i hi

theorem Table.get (h : Table c) (i : ℕ) : ((entries c)[i]?).getD 0 = c.procs i := by
  by_cases hi : i < c.count
  · rw [entries_get hi, Option.getD_some]
  · rw [entries_past (by omega), h.empty i (by omega)]
    rfl

/-- The list around the cursor. -/
theorem entries_split (hc : c.currentPid < c.count) :
    ∃ low high, entries c = low ++ c.procs c.currentPid::high ∧ low.length = c.currentPid ∧
      c.currentPid+1+high.length = c.count := by
  have hlen := entries_length c
  have hlt : c.currentPid < (entries c).length := by rwa [hlen]
  have hget : (entries c)[c.currentPid] = c.procs c.currentPid := by simp [entries]
  refine ⟨(entries c).take c.currentPid, (entries c).drop (c.currentPid+1), ?_, ?_, ?_⟩
  · rw [← hget, List.getElem_cons_drop, List.take_append_drop]
  · rw [List.length_take]
    omega
  · rw [List.length_drop]
    omega

theorem shiftProcs_apply (n i : ℕ) (procs : ℕ → ℕ) (j : ℕ) :
    shiftProcs n i procs j = if i ≤ j ∧ j < i+n then procs (j+1) else procs j := by
  induction n generalizing i procs with
  | zero =>
    rw [if_neg (by omega)]
    rfl
  | succ n ih =>
    rw [shiftProcs, ih]
    by_cases hin : i+1 ≤ j ∧ j < i+1+n
    · rw [if_pos hin, if_pos (by omega), Function.update_of_ne (by omega)]
    · rw [if_neg hin]
      by_cases hj : j = i
      · rw [if_pos (by omega), hj, Function.update_self]
      · rw [if_neg (by omega), Function.update_of_ne hj]

theorem dec32_pred {n : ℕ} (h0 : 0 < n) (hn : n ≤ procMaxProcsPerCpu) : dec32 n = n-1 := by
  rw [procMaxProcsPerCpu] at hn
  rw [dec32, show n+2^32-1 = n-1+2^32 by omega, Nat.add_mod_right, Nat.mod_eq_of_lt (by omega)]

theorem Table.removeCurrent_procs (h : Table c) (hc : c.currentPid < c.count) (i : ℕ) :
    (removeCurrent c).procs i = if i < c.currentPid then c.procs i else c.procs (i+1) := by
  have hd := dec32_pred (by omega) h.bounded
  rw [removeCurrent]
  dsimp only
  rw [hd]
  by_cases hi : i = c.count-1
  · rw [hi, Function.update_self, if_neg (by omega), h.empty _ (by omega)]
  · rw [Function.update_of_ne hi, shiftProcs_apply]
    by_cases hlt : i < c.currentPid
    · rw [if_neg (by omega), if_pos hlt]
    · rw [if_neg hlt]
      split_ifs with hin
      · rfl
      · rw [h.empty i (by omega), h.empty (i+1) (by omega)]

theorem Table.erase_procs (h : Table c) {i : ℕ} (hi : i < c.count) :
    (entries c).erase (c.procs i) = (entries c).eraseIdx i := by
  have hlt : i < (entries c).length := by rwa [entries_length]
  have hget : (entries c)[i] = c.procs i := by simp [entries]
  rw [← hget, h.nodup.erase_getElem i hlt]

/-- Closing the gap is deleting the entry from the list. -/
theorem Table.removeCurrent (h : Table c) (hc : c.currentPid < c.count) :
    Table (removeCurrent c) ∧ entries (removeCurrent c) = (entries c).eraseIdx c.currentPid := by
  have hp := h.removeCurrent_procs hc
  have hcount : (Sched.removeCurrent c).count = c.count-1 := dec32_pred (by omega) h.bounded
  have hb := h.bounded
  constructor
  · refine ⟨by omega, h.current, fun i hi => ?_, fun i hi => ?_, fun i hi j hj he => ?_⟩
    · rw [hp]
      split_ifs
      · exact h.filled i (by omega)
      · exact h.filled (i+1) (by omega)
    · rw [hp, if_neg (by omega)]
      exact h.empty (i+1) (by omega)
    · rw [hp, hp] at he
      split_ifs at he with h1 h2 h2
      · exact h.inj i (by omega) j (by omega) he
      · have := h.inj i (by omega) (j+1) (by omega) he
        omega
      · have := h.inj (i+1) (by omega) j (by omega) he
        omega
      · have := h.inj (i+1) (by omega) (j+1) (by omega) he
        omega
  · apply List.ext_getElem?
    intro i
    rw [List.getElem?_eraseIdx]
    by_cases hi : i < c.count-1
    · rw [entries_get (by omega), hp]
      split_ifs
      · rw [entries_get (by omega)]
      · rw [entries_get (by omega)]
    · rw [entries_past (by omega)]
      split_ifs
      · rw [entries_past (by omega)]
      · rw [entries_past (by omega)]

theorem Table.append (h : Table c) {proc : ℕ} (hroom : c.count < procMaxProcsPerCpu)
    (h0 : proc ≠ 0) (hnew : proc ∉ entries c) :
    Table { c with procs := Function.update c.procs c.count proc, count := c.count+1 } ∧
      entries { c with procs := Function.update c.procs c.count proc, count := c.count+1 } =
        entries c ++ [proc] := by
  have hold : ∀ i < c.count, Function.update c.procs c.count proc i = c.procs i :=
    fun i hi => Function.update_of_ne (by omega) _ _
  have hlast : Function.update c.procs c.count proc c.count = proc := Function.update_self _ _ _
  have hne : ∀ i < c.count, c.procs i ≠ proc :=
    fun i hi he => hnew (mem_entries.mpr ⟨i, hi, he⟩)
  refine ⟨⟨hroom, h.current, fun i hi => ?_, fun i hi => ?_, fun i hi j hj he => ?_⟩, ?_⟩
  · dsimp only at hi ⊢
    by_cases hlt : i < c.count
    · rw [hold i hlt]
      exact h.filled i hlt
    · rw [show i = c.count by omega, hlast]
      exact h0
  · dsimp only at hi ⊢
    rw [Function.update_of_ne (by omega)]
    exact h.empty i (by omega)
  · dsimp only at hi hj he
    by_cases hlt : i < c.count <;> by_cases hlt' : j < c.count
    · rw [hold i hlt, hold j hlt'] at he
      exact h.inj i hlt j hlt' he
    · rw [hold i hlt, show j = c.count by omega, hlast] at he
      exact absurd he (hne i hlt)
    · rw [hold j hlt', show i = c.count by omega, hlast] at he
      exact absurd he.symm (hne j hlt')
    · omega
  · rw [entries, entries, List.range_succ, List.map_append, List.map_singleton]
    dsimp only
    rw [hlast, List.map_congr_left (fun i hi => hold i (List.mem_range.mp hi))]

end Entries

section Scan

/-- A terminated process. -/
def Gone (k : Kernel σ) (p : ℕ) : Prop := (k.pcbs p).state = .terminated

instance decidableGone (k : Kernel σ) : DecidablePred (Gone k) :=
  fun p => inferInstanceAs (Decidable ((k.pcbs p).state = .terminated))

/-- The table of a CPU with its cursor. -/
def reel (cpu : ℕ) (k : Kernel σ) : Reel ℕ := ⟨entries (k.scheds cpu), (k.scheds cpu).currentPid⟩

/-- The processes `gone` have left the table of `cpu` and were freed. -/
structure Pruned (cpu : ℕ) (k k' : Kernel σ) (gone : List ℕ) : Prop where
  table : Table (k'.scheds cpu)
  kept : entries (k'.scheds cpu) = (entries (k.scheds cpu)).filter (· ∉ gone)
  dead : ∀ p ∈ gone, p ∈ entries (k.scheds cpu) ∧ Gone k p
  once : gone.Nodup
  others : ∀ c, c ≠ cpu → k'.scheds c = k.scheds c
  base : (k'.scheds cpu).table = (k.scheds cpu).table
  pcbs : k'.pcbs = k.pcbs
  freed : gone.foldlM (fun h p => FirstFitHeap.kfree p h) k.heap = some k'.heap

theorem Pruned.trans {k'' : Kernel σ} {xs ys : List ℕ} (h : Pruned cpu k k' xs)
    (h' : Pruned cpu k' k'' ys) : Pruned cpu k k'' (xs ++ ys) := by
  have hold : ∀ p ∈ ys, p ∈ entries (k.scheds cpu) ∧ p ∉ xs := by
    intro p hp
    have hin := (h'.dead p hp).1
    rw [h.kept] at hin
    simpa using List.mem_filter.mp hin
  refine ⟨h'.table, ?_, ?_, ?_, ?_, ?_, ?_, ?_⟩
  · rw [h'.kept, h.kept, List.filter_filter]
    congr 1
    funext p
    simp [Bool.and_comm]
  · intro p hp
    rcases List.mem_append.mp hp with hp | hp
    · exact h.dead p hp
    · refine ⟨(hold p hp).1, ?_⟩
      have := (h'.dead p hp).2
      rwa [Gone, h.pcbs] at this
  · exact List.nodup_append.mpr ⟨h.once, h'.once, fun p hp q hq he => (hold q hq).2 (he ▸ hp)⟩
  · exact fun c hc => (h'.others c hc).trans (h.others c hc)
  · exact h'.base.trans h.base
  · exact h'.pcbs.trans h.pcbs
  · rw [List.foldlM_append, h.freed]
    exact h'.freed

theorem pruned_moved (h : Table (k.scheds cpu)) {c : ℕ} (hc : c < procMaxProcsPerCpu) :
    Pruned cpu k (moved cpu c k) [] := by
  refine ⟨?_, ?_, fun p hp => absurd hp List.not_mem_nil, List.nodup_nil, ?_, ?_, rfl, rfl⟩
  · rw [moved_sched]
    exact ⟨h.bounded, hc, h.filled, h.empty, h.inj⟩
  · rw [moved_sched]
    simp [entries]
  · exact fun d hd => Function.update_of_ne hd _ _
  · rw [moved_sched]

/-- `reap` takes the entry under the cursor out of the table and frees it. -/
theorem reap_pruned {u : Unit} (h : Table (k.scheds cpu))
    (hc : (k.scheds cpu).currentPid < (k.scheds cpu).count)
    (hgone : Gone k ((k.scheds cpu).procs (k.scheds cpu).currentPid))
    (hr : reap A hhdmOffset cpu ((k.scheds cpu).procs (k.scheds cpu).currentPid) k = (some u, k')) :
    Pruned cpu k k' [(k.scheds cpu).procs (k.scheds cpu).currentPid] ∧
      k'.scheds cpu = removeCurrent (k.scheds cpu) := by
  rw [reap, getPcb, observe_bind] at hr
  obtain ⟨_, k₁, h1, hr⟩ := bind_returned hr
  obtain ⟨v₁, -, rfl⟩ := onVmm_returned h1
  obtain ⟨_, k₂, h2, hr⟩ := bind_returned hr
  obtain ⟨v₂, -, rfl⟩ := onVmm_returned h2
  obtain ⟨_, k₃, h3, hr⟩ := bind_returned hr
  obtain ⟨heap, hfree, rfl⟩ := kfree_returned h3
  obtain ⟨-, rfl⟩ := Prod.mk.inj hr
  have hs : Function.update k.scheds cpu (removeCurrent (k.scheds cpu)) cpu =
      removeCurrent (k.scheds cpu) := Function.update_self _ _ _
  obtain ⟨htable, hentries⟩ := h.removeCurrent hc
  have hin : (k.scheds cpu).procs (k.scheds cpu).currentPid ∈ entries (k.scheds cpu) :=
    mem_entries.mpr ⟨_, hc, rfl⟩
  refine ⟨⟨?_, ?_, ?_, List.nodup_singleton _, ?_, ?_, rfl, ?_⟩, hs⟩
  · dsimp only
    rw [hs]
    exact htable
  · dsimp only
    rw [hs, hentries, ← h.erase_procs hc, h.nodup.erase_eq_filter]
    refine List.filter_congr fun p _ => ?_
    rw [Bool.eq_iff_iff, bne_iff_ne, decide_eq_true_iff, List.mem_singleton]
  · intro p hp
    rw [List.mem_singleton.mp hp]
    exact ⟨hin, hgone⟩
  · exact fun c hc => Function.update_of_ne hc _ _
  · dsimp only
    rw [hs, removeCurrent]
  · rw [List.foldlM_cons, hfree]
    rfl

/-- One round of the loop is one visit of the cursor. -/
theorem advance_visit {next : ℕ} (h : Table (k.scheds cpu))
    (hr : advance A hhdmOffset cpu k = (some next, k')) :
    ∃ item gone, visit (Gone k) procMaxProcsPerCpu (reel cpu k) = (item, reel cpu k') ∧
      next = item.getD 0 ∧ (item = none ↔ next = 0) ∧ Pruned cpu k k' gone := by
  obtain ⟨c, hc⟩ : ∃ c, c = ((k.scheds cpu).currentPid+1) % procMaxProcsPerCpu := ⟨_, rfl⟩
  have hlt : c < procMaxProcsPerCpu := by
    rw [hc]
    exact Nat.mod_lt _ (by decide)
  by_cases hdead : (k.scheds cpu).procs c ≠ 0 ∧ Gone k ((k.scheds cpu).procs c)
  · have hin := h.used hdead.1
    rw [advance, setSched, update_bind, ← hc] at hr
    change (getSched cpu >>= _) (moved cpu c k) = _ at hr
    rw [getSched, observe_bind, moved_sched, getPcb, observe_bind, moved_pcbs,
      if_pos ⟨hdead.1, hdead.2⟩] at hr
    obtain ⟨u, k₁, hreap, hr⟩ := bind_returned hr
    obtain ⟨hzero, rfl⟩ := Prod.mk.inj hr
    have hm := pruned_moved h hlt
    have hcur : ((moved cpu c k).scheds cpu).procs ((moved cpu c k).scheds cpu).currentPid =
        (k.scheds cpu).procs c := by rw [moved_sched]
    rw [← hcur] at hreap
    obtain ⟨hp, hs⟩ := reap_pruned hm.table (by rw [moved_sched]; exact hin)
      (by rw [hcur]; exact hdead.2) hreap
    refine ⟨none, _, ?_, (Option.some.inj hzero).symm, by simp [(Option.some.inj hzero).symm],
      hm.trans hp⟩
    rw [visit, reel]
    dsimp only
    rw [← hc, entries_get hin]
    dsimp only
    rw [if_pos hdead.2, reel, hs]
    rw [(hm.table.removeCurrent (by rw [moved_sched]; exact hin)).2, moved_sched]
    rfl
  · push Not at hdead
    rw [advance_stay hc hdead] at hr
    obtain ⟨hnext, rfl⟩ := Prod.mk.inj hr
    obtain rfl := Option.some.inj hnext
    have hm := pruned_moved h hlt
    have hreel : reel cpu (moved cpu c k) = ⟨entries (k.scheds cpu), c⟩ := by
      rw [reel, moved_sched]
      rfl
    by_cases hin : c < (k.scheds cpu).count
    · refine ⟨some ((k.scheds cpu).procs c), [], ?_, rfl, by simp [h.filled c hin], hm⟩
      rw [visit, reel]
      dsimp only
      rw [← hc, entries_get hin]
      dsimp only
      rw [if_neg (hdead (h.filled c hin)), hreel]
    · have h0 := h.empty c (by omega)
      refine ⟨none, [], ?_, h0, by simp [h0], hm⟩
      rw [visit, reel]
      dsimp only
      rw [← hc, entries_past (by omega), hreel]

/-- The loop is a scan of the table. -/
theorem nextProc_scan {start fuel next : ℕ} (h : Table (k.scheds cpu))
    (hr : nextProc A hhdmOffset cpu start fuel k = (some next, k')) :
    ∃ item gone, scan (Gone k) procMaxProcsPerCpu start fuel (reel cpu k) =
        some (item, reel cpu k') ∧
      next = item.getD 0 ∧ (item = none ↔ next = 0) ∧ Pruned cpu k k' gone := by
  induction fuel generalizing k with
  | zero => exact (never_returned hr).elim
  | succ fuel ih =>
    rw [nextProc] at hr
    obtain ⟨first, k₁, hadv, hr⟩ := bind_returned hr
    obtain ⟨item, gone, hvisit, hfirst, hnone, hp⟩ := advance_visit h hadv
    rw [getSched, observe_bind] at hr
    have hempty : (reel cpu k₁).items ≠ [] ↔ (k₁.scheds cpu).count > 0 := by
      rw [← List.length_pos_iff, reel, entries_length]
    rw [scan, hvisit]
    dsimp only
    by_cases hgo : first = 0 ∧ (k₁.scheds cpu).currentPid ≠ start ∧ (k₁.scheds cpu).count > 0
    · rw [if_pos hgo] at hr
      rw [if_pos ⟨hnone.mpr hgo.1, hgo.2.1, hempty.mpr hgo.2.2⟩]
      obtain ⟨item', gone', hscan, hnext, hnone', hp'⟩ := ih hp.table hr
      have hsame : Gone k₁ = Gone k := by
        funext p
        rw [Gone, Gone, hp.pcbs]
      refine ⟨item', gone ++ gone', ?_, hnext, hnone', hp.trans hp'⟩
      rw [← hscan]
      congr 1
      exact hsame.symm
    · rw [if_neg hgo] at hr
      obtain ⟨hnext, rfl⟩ := Prod.mk.inj hr
      obtain rfl := Option.some.inj hnext
      rw [if_neg (fun hs => hgo ⟨hnone.mp hs.1, hs.2.1, hempty.mp hs.2.2⟩)]
      exact ⟨item, gone, rfl, hfirst, hnone, hp⟩

end Scan

section Tick
variable {frame out : RegisterCtx}

/-- The control blocks once the outgoing process is saved. -/
def saved (cpu : ℕ) (frame : RegisterCtx) (k : Kernel σ) : ℕ → Pcb :=
  let proc := (k.scheds cpu).procs (k.scheds cpu).currentPid
  if proc ≠ 0 ∧ (k.pcbs proc).state = .running then
    Function.update k.pcbs proc (savedPcb frame (k.pcbs proc))
  else k.pcbs

/-- A ready process is entered; any other is left as it is. -/
def entered (next : ℕ) (pcbs : ℕ → Pcb) : ℕ → Pcb :=
  if (pcbs next).state = .ready then
    Function.update pcbs next { pcbs next with state := .running }
  else pcbs

variable (cpu) in
theorem saveCurrent_returned {u : Unit}
    (hr : saveCurrent ((k.scheds cpu).procs (k.scheds cpu).currentPid) frame k = (some u, k')) :
    k'.pcbs = saved cpu frame k ∧ k'.scheds = k.scheds ∧ k'.heap = k.heap := by
  rw [saveCurrent, getPcb, observe_bind] at hr
  split_ifs at hr with hrun
  · obtain ⟨-, rfl⟩ := Prod.mk.inj hr
    exact ⟨(if_pos hrun).symm, rfl, rfl⟩
  · obtain ⟨-, rfl⟩ := Prod.mk.inj hr
    exact ⟨(if_neg hrun).symm, rfl, rfl⟩

/-- The address space of a process, and whether it has terminated, are as before. -/
structure SameFate (p q : Pcb) : Prop where
  vctx : q.vctx = p.vctx
  pagemap : q.pagemap = p.pagemap
  gone : q.state = .terminated ↔ p.state = .terminated

theorem SameFate.rfl (p : Pcb) : SameFate p p := ⟨Eq.refl _, Eq.refl _, Iff.rfl⟩

theorem savedPcb_fate {p : Pcb} (hp : p.state = .running) : SameFate p (savedPcb frame p) := by
  rw [savedPcb]
  split_ifs
  · exact ⟨Eq.refl _, Eq.refl _, by simp [hp]⟩
  · exact ⟨Eq.refl _, Eq.refl _, Iff.rfl⟩

theorem saved_fate (cpu : ℕ) (frame : RegisterCtx) (k : Kernel σ) (p : ℕ) :
    SameFate (k.pcbs p) (saved cpu frame k p) := by
  rw [saved]
  split_ifs with hrun
  · by_cases hp : p = (k.scheds cpu).procs (k.scheds cpu).currentPid
    · rw [hp, Function.update_self]
      exact savedPcb_fate hrun.2
    · rw [Function.update_of_ne hp]
      exact SameFate.rfl _
  · exact SameFate.rfl _

theorem entered_fate (next : ℕ) (pcbs : ℕ → Pcb) (p : ℕ) :
    SameFate (pcbs p) (entered next pcbs p) := by
  rw [entered]
  split_ifs with hready
  · by_cases hp : p = next
    · rw [hp, Function.update_self]
      exact ⟨Eq.refl _, Eq.refl _, by simp [hready]⟩
    · rw [Function.update_of_ne hp]
      exact SameFate.rfl _
  · exact SameFate.rfl _

theorem dispatch_returned {next : ℕ}
    (hr : dispatch hhdmOffset kernelPagemap cpu next frame k = (some out, k')) :
    k'.scheds = k.scheds ∧ k'.heap = k.heap ∧
      ((next ≠ 0 ∧ (k.pcbs next).state = .ready ∧ out = (k.pcbs next).ctx ∧
          k'.pcbs = Function.update k.pcbs next { k.pcbs next with state := .running }) ∨
        (¬ (next ≠ 0 ∧ (k.pcbs next).state = .ready) ∧ (k.scheds cpu).count ≠ 0 ∧
          out = frame ∧ k'.pcbs = k.pcbs)) := by
  rw [dispatch, getSched, observe_bind, getPcb, observe_bind] at hr
  by_cases hready : next ≠ 0 ∧ (k.pcbs next).state = .ready
  · rw [if_pos hready, setPcb, update_bind, pmset] at hr
    split_ifs at hr
    · exact (never_returned hr).elim
    · obtain ⟨hout, rfl⟩ := Prod.mk.inj hr
      exact ⟨rfl, rfl, .inl ⟨hready.1, hready.2, (Option.some.inj hout).symm, rfl⟩⟩
  · rw [if_neg hready] at hr
    by_cases h0 : (k.scheds cpu).count = 0
    · rw [if_pos h0] at hr
      obtain ⟨_, _, -, hr⟩ := bind_returned hr
      obtain ⟨_, _, -, hr⟩ := bind_returned hr
      exact (never_returned hr).elim
    · rw [if_neg h0] at hr
      obtain ⟨hout, rfl⟩ := Prod.mk.inj hr
      exact ⟨rfl, rfl, .inr ⟨hready, h0, (Option.some.inj hout).symm, rfl⟩⟩

/-- The entry that the scan found, or the first one if there is any. -/
theorem orFirst_pick {item : Option ℕ} {next₁ next : ℕ} {k₃ : Kernel σ} (ht : Table (k.scheds cpu))
    (hitem : next₁ = item.getD 0) (hnone : item = none ↔ next₁ = 0)
    (hr : orFirst cpu next₁ k = (some next, k₃)) :
    (next = 0 ∧ (k₃.scheds cpu).count = 0) ∨
      (next ≠ 0 ∧ pick (item, reel cpu k) = (some next, reel cpu k₃) ∧ Pruned cpu k k₃ []) := by
  rw [orFirst_apply] at hr
  cases item with
  | some y =>
    have h0 : next₁ ≠ 0 := fun h => nomatch hnone.mpr h
    rw [if_neg (fun h => h0 h.1)] at hr
    obtain ⟨hnext, rfl⟩ := Prod.mk.inj hr
    obtain rfl := Option.some.inj hnext
    refine .inr ⟨h0, by rw [hitem]; rfl, ht, ?_, by simp, List.nodup_nil, fun _ _ => rfl, rfl, rfl,
      rfl⟩
    simp
  | none =>
    have h0 : next₁ = 0 := hnone.mp rfl
    by_cases hcount : (k.scheds cpu).count > 0
    · rw [if_pos ⟨h0, hcount⟩] at hr
      obtain ⟨hnext, rfl⟩ := Prod.mk.inj hr
      obtain rfl := Option.some.inj hnext
      refine .inr ⟨ht.filled 0 hcount, ?_, pruned_moved ht (by decide)⟩
      rw [pick, reel, reel]
      dsimp only
      rw [entries_get hcount, moved_sched]
      rfl
    · rw [if_neg (fun h => hcount h.2)] at hr
      obtain ⟨hnext, rfl⟩ := Prod.mk.inj hr
      exact .inl ⟨(Option.some.inj hnext).symm.trans h0, by omega⟩

/-- What a tick of a CPU with processes does when it returns. -/
structure Ticked (cpu : ℕ) (frame out : RegisterCtx) (k k' : Kernel σ) (next : ℕ)
    (gone : List ℕ) : Prop where
  scan : ∃ r, CursorScan.scan (Gone k) procMaxProcsPerCpu (k.scheds cpu).currentPid rounds
    (reel cpu k) = some r ∧ (pick r).1 = some next ∧ (pick r).2 = reel cpu k'
  table : Table (k'.scheds cpu)
  kept : entries (k'.scheds cpu) = (entries (k.scheds cpu)).filter (· ∉ gone)
  dead : ∀ p ∈ gone, p ∈ entries (k.scheds cpu) ∧ Gone k p
  once : gone.Nodup
  others : ∀ c, c ≠ cpu → k'.scheds c = k.scheds c
  freed : gone.foldlM (fun h p => FirstFitHeap.kfree p h) k.heap = some k'.heap
  pcbs : k'.pcbs = entered next (saved cpu frame k)
  out : out = if (saved cpu frame k next).state = .ready then (saved cpu frame k next).ctx
    else frame

theorem Ticked.fate {next : ℕ} {gone : List ℕ} (h : Ticked cpu frame out k k' next gone) (p : ℕ) :
    SameFate (k.pcbs p) (k'.pcbs p) := by
  have hs := saved_fate cpu frame k p
  have he := entered_fate next (saved cpu frame k) p
  rw [h.pcbs]
  exact ⟨he.vctx.trans hs.vctx, he.pagemap.trans hs.pagemap, he.gone.trans hs.gone⟩

theorem Ticked.mem {next p : ℕ} {gone : List ℕ} (htick : Ticked cpu frame out k k' next gone)
    (hp : p ∈ entries (k'.scheds cpu)) : p ∈ entries (k.scheds cpu) := by
  rw [htick.kept] at hp
  exact (List.mem_filter.mp hp).1

theorem schedTick_returned {r : Option RegisterCtx} (ht : Table (k.scheds cpu))
    (hcount : (k.scheds cpu).count ≠ 0)
    (hr : schedTick A hhdmOffset kernelPagemap cpu (some frame) k = (some r, k')) :
    ∃ out next gone, r = some out ∧ Ticked cpu frame out k k' next gone := by
  rw [schedTick_busy hcount] at hr
  obtain ⟨_, k₁, hsave, hr⟩ := bind_returned hr
  obtain ⟨hp₁, hs₁, hh₁⟩ := saveCurrent_returned cpu
    (k := { k with locks := k.locks ++ [.acquire cpu] }) hsave
  obtain ⟨next₁, k₂, hscan, hr⟩ := bind_returned hr
  obtain ⟨next, k₃, hfirst, hr⟩ := bind_returned hr
  obtain ⟨out, k₄, hdisp, hr⟩ := bind_returned hr
  obtain ⟨hout, rfl⟩ := Prod.mk.inj hr
  have hgone : Gone k₁ = Gone k := by
    funext p
    rw [Gone, Gone, hp₁]
    exact propext (saved_fate cpu frame _ p).gone
  have hreel : reel cpu k₁ = reel cpu k := by rw [reel, reel, hs₁]
  obtain ⟨item, gone, hscan', hitem, hnone, hp⟩ := nextProc_scan (by rw [hs₁]; exact ht) hscan
  obtain ⟨hs₄, hh₄, hcase⟩ := dispatch_returned hdisp
  rcases orFirst_pick hp.table hitem hnone hfirst with ⟨hzero, hempty⟩ | ⟨hne, hpick, hp'⟩
  · rcases hcase with h | h
    · exact absurd hzero h.1
    · exact absurd hempty h.2.1
  have hpruned := hp.trans hp'
  rw [List.append_nil] at hpruned
  have hpcbs : k₃.pcbs = saved cpu frame k := hpruned.pcbs.trans hp₁
  refine ⟨out, next, gone, (Option.some.inj hout).symm,
    ⟨⟨(item, reel cpu k₂), ?_, ?_, ?_⟩, ?_, ?_, ?_,
    hpruned.once, ?_, ?_, ?_, ?_⟩⟩
  · rw [← hscan', ← hreel]
    congr 1
    exact hgone.symm
  · rw [hpick]
  · rw [hpick, reel, reel, hs₄]
  · rw [hs₄]
    exact hpruned.table
  · rw [hs₄, hpruned.kept, hs₁]
  · intro p hp
    have := hpruned.dead p hp
    rwa [hs₁, hgone] at this
  · intro c hc
    rw [hs₄, hpruned.others c hc, hs₁]
  · rw [hh₄, ← hpruned.freed, hh₁]
  · rcases hcase with ⟨-, hready, -, hps⟩ | ⟨hno, -, -, hps⟩
    · rw [hps, hpcbs] at *
      rw [entered, if_pos hready]
    · rw [hps, hpcbs] at *
      rw [entered, if_neg (fun h => hno ⟨hne, h⟩)]
  · rcases hcase with ⟨-, hready, ho, -⟩ | ⟨hno, -, ho, -⟩
    · rw [hpcbs] at hready ho
      rw [if_pos hready, ho]
    · rw [hpcbs] at hno
      rw [if_neg (fun h => hno ⟨hne, h⟩), ho]

end Tick

section Spawn
variable {user : Bool} {entry pagemap vctx proc ctx stack : ℕ} {v₁ v₂ : State σ}

theorem Spawned.sched (h : Spawned A hhdmOffset kernelPagemap kvmCtx cpu user entry pagemap vctx
      k k' proc ctx stack v₁ v₂) :
    k'.scheds cpu = { k.scheds cpu with
      procs := Function.update (k.scheds cpu).procs (k.scheds cpu).count proc
      count := (k.scheds cpu).count+1 } := by
  rw [h.scheds, Function.update_self]

/-- The new process goes behind the last entry. -/
theorem Spawned.table (h : Spawned A hhdmOffset kernelPagemap kvmCtx cpu user entry pagemap vctx
      k k' proc ctx stack v₁ v₂) (ht : Table (k.scheds cpu))
    (hnew : proc ∉ entries (k.scheds cpu)) :
    Table (k'.scheds cpu) ∧ entries (k'.scheds cpu) = entries (k.scheds cpu) ++ [proc] := by
  rw [h.sched]
  exact ht.append h.room h.pcb_ne hnew

end Spawn

end Emk.Sched
