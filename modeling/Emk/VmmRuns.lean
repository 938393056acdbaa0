import Emk.VmmList
import Emk.ReferenceAllocator
import Emk.Transition

/-!
# Live regions of a context over whole runs

A run allocates, adds and frees regions of one context. The allocations that
are live stay apart as long as every new region finds room behind the first
open node, every region freed has an accurate `prev` link, and region nodes
are pages that are not yet nodes of the list.
-/

set_option autoImplicit false

namespace Emk.VmmRuns
open Emk.ByteMemory Emk.MachineWord Emk.DirectMap Emk.PageAllocator Emk.Paging Emk.Vmm
open Emk.LinkedPath Emk.Transition Emk.ReferenceAllocator

/-- The state and the live allocations: start and number of pages. -/
structure World (σ : Type) where
  vmm : State σ
  live : List (ℕ × ℕ)

inductive Op where
  | valloc (pages flags : ℕ)
  | vadd (vaddr paddr pages flags : ℕ)
  | vfree (ptr : ℕ)

variable {σ : Type} (A : Ops σ) (hhdmOffset kernelPagemap ctx : ℕ)

def record (w : World σ) (pages : ℕ) (r : ℕ × State σ) : World σ :=
  ⟨r.2, if r.1 = 0 then w.live else (r.1, pages)::w.live⟩

def step (w : World σ) : Op → Option (World σ)
  | .valloc pages flags => (valloc A hhdmOffset ctx pages flags w.vmm).map (record w pages)
  | .vadd vaddr paddr pages flags =>
      (vadd A hhdmOffset ctx vaddr paddr pages flags w.vmm).map (record w pages)
  | .vfree ptr => (vfree A hhdmOffset kernelPagemap ctx ptr w.vmm).map fun s =>
      ⟨s, w.live.filter (fun a => a.1 ≠ ptr)⟩

/-- The first region with a hole behind it or none after it. -/
def openRegion (s : State σ) : ℕ := (findRegion s.regions holeBehind rounds
    (s.ctxs ctx).root).getD 0

def openEnd (s : State σ) : ℕ := regionEnd (s.regions (openRegion ctx s))

/-- At least one page, no wrap of the address space, only live pointers freed. -/
def Legal (w : World σ) : Op → Prop
  | .valloc pages _ => 1 ≤ pages ∧ openEnd ctx w.vmm+4096*pages < 2^64
  | .vadd vaddr _ pages _ => 1 ≤ pages ∧ alignDown vaddr 4096+4096*pages < 2^64
  | .vfree ptr => ptr ∈ w.live.map Prod.fst

/-- The node page of a new region is not a node of the list already. -/
def FreshNode (s : State σ) : Prop := (A.palloc 1 true s.phys).1 ∉ regionNodes s ctx

/-- No region reaches into the `pages` pages behind the open region. -/
def Room (s : State σ) (pages : ℕ) : Prop :=
  ∀ x ∈ regionNodes s ctx, (s.regions x).pages = 0 ∨ regionEnd (s.regions x) ≤ openEnd ctx s ∨
    openEnd ctx s+4096*pages ≤ (s.regions x).start

/-- The region that `vfree` finds for a pointer. -/
def namedRegion (s : State σ) (ptr : ℕ) : ℕ :=
  (findStart s.regions ptr rounds (s.ctxs ctx).root).getD 0

/-- The `prev` link of the named region leads to the node right before it. -/
def PrevAccurate (s : State σ) (ptr : ℕ) : Prop :=
  (s.regions (namedRegion ctx s ptr)).prev =
    tip 0 ((regionNodes s ctx).takeWhile (fun x => x ≠ namedRegion ctx s ptr))

def Sound (w : World σ) : Op → Prop
  | .valloc pages _ => FreshNode A ctx w.vmm ∧ Room ctx w.vmm pages
  | .vadd _ _ _ _ => FreshNode A ctx w.vmm
  | .vfree ptr => PrevAccurate ctx w.vmm ptr

instance decidableLegal (w : World σ) : ∀ o, Decidable (Legal ctx w o)
  | .valloc pages _ => inferInstanceAs (Decidable (1 ≤ pages ∧ openEnd ctx w.vmm+4096*pages < 2^64))
  | .vadd vaddr _ pages _ =>
      inferInstanceAs (Decidable (1 ≤ pages ∧ alignDown vaddr 4096+4096*pages < 2^64))
  | .vfree ptr => inferInstanceAs (Decidable (ptr ∈ w.live.map Prod.fst))

instance decidableSound (w : World σ) : ∀ o, Decidable (Sound A ctx w o)
  | .valloc _ _ => inferInstanceAs (Decidable (¬ _ ∧ ∀ x ∈ regionNodes w.vmm ctx, _ ∨ _ ∨ _))
  | .vadd _ _ _ _ => inferInstanceAs (Decidable (¬ _))
  | .vfree _ => inferInstanceAs (Decidable (_ = _))

/-- Any two live allocations cover disjoint address ranges. -/
def LiveDisjoint (w : World σ) : Prop :=
  w.live.Pairwise (fun a b => a.1+4096*a.2 ≤ b.1 ∨ b.1+4096*b.2 ≤ a.1)

instance decidableLiveDisjoint (w : World σ) : Decidable (LiveDisjoint w) :=
  inferInstanceAs (Decidable (List.Pairwise _ _))

def Clear (r q : Vregion) : Prop :=
  r.pages = 0 ∨ q.pages = 0 ∨ r.start+4096*r.pages ≤ q.start ∨ q.start+4096*q.pages ≤ r.start

structure Inv (w : World σ) (nodes : List ℕ) : Prop where
  listed : Listed w.vmm ctx nodes
  fits : ∀ x ∈ nodes, (w.vmm.regions x).start+4096*(w.vmm.regions x).pages < 2^64
  clear : ∀ x ∈ nodes, ∀ y ∈ nodes, x ≠ y → Clear (w.vmm.regions x) (w.vmm.regions y)
  live : ∀ a ∈ w.live, 1 ≤ a.2 ∧
    ∃ x ∈ nodes, (w.vmm.regions x).start = a.1 ∧ (w.vmm.regions x).pages = a.2
  starts : w.live.Pairwise (fun a b => a.1 ≠ b.1)

variable {A hhdmOffset kernelPagemap ctx} {w : World σ} {nodes : List ℕ}

theorem Clear.symm {r q : Vregion} (h : Clear r q) : Clear q r := by
  unfold Clear at *
  omega

theorem Inv.disjoint (hi : Inv ctx w nodes) : LiveDisjoint w := by
  refine hi.starts.imp_of_mem (fun {a b} ha hb hne => ?_)
  obtain ⟨ha1, x, hx, hxs, hxp⟩ := hi.live a ha
  obtain ⟨hb1, y, hy, hys, hyp⟩ := hi.live b hb
  have hxy : x ≠ y := fun h => hne (by rw [← hxs, ← hys, h])
  have hc := hi.clear x hx y hy hxy
  unfold Clear at hc
  omega

theorem Clear.congr {r q r' q' : Vregion} (h : Clear r q)
    (hr : r'.start = r.start ∧ r'.pages = r.pages) (hq : q'.start = q.start ∧ q'.pages = q.pages) :
    Clear r' q' := by
  rw [Clear, hr.1, hr.2, hq.1, hq.2]
  exact h

/-- A region that is clear of all others joins the list. -/
theorem Inv.join (hi : Inv ctx w nodes) {s' : State σ} {nodes' : List ℕ} {pages r : ℕ} (new : ℕ)
    (hl : Listed s' ctx nodes') (hsame : SameRange w.vmm s' nodes)
    (hmem : ∀ x, x ∈ nodes' ↔ x = new ∨ x ∈ nodes) (hnp : (s'.regions new).pages = pages)
    (hpos : 1 ≤ pages) (hfit : (s'.regions new).start+4096*pages < 2^64)
    (hclear : ∀ x ∈ nodes, Clear (s'.regions new) (w.vmm.regions x))
    (hr : r = 0 ∨ r = (s'.regions new).start) : Inv ctx (record w pages (r, s')) nodes' := by
  subst hnp
  refine ⟨hl, ?_, ?_, ?_, ?_⟩
  · intro x hx
    rcases (hmem x).mp hx with rfl | hx
    · exact hfit
    · rw [record, (hsame x hx).1, (hsame x hx).2]
      exact hi.fits x hx
  · intro x hx y hy hne
    rcases (hmem x).mp hx with rfl | hx <;> rcases (hmem y).mp hy with rfl | hy
    · exact absurd rfl hne
    · exact (hclear y hy).congr ⟨rfl, rfl⟩ (hsame y hy)
    · exact (hclear x hx).symm.congr (hsame x hx) ⟨rfl, rfl⟩
    · exact (hi.clear x hx y hy hne).congr (hsame x hx) (hsame y hy)
  · have hold : ∀ a ∈ w.live, 1 ≤ a.2 ∧
        ∃ x ∈ nodes', (s'.regions x).start = a.1 ∧ (s'.regions x).pages = a.2 := by
      intro a ha
      obtain ⟨h1, x, hx, hxs, hxp⟩ := hi.live a ha
      refine ⟨h1, x, (hmem x).mpr (.inr hx), ?_, ?_⟩
      · rw [(hsame x hx).1, hxs]
      · rw [(hsame x hx).2, hxp]
    intro a ha
    dsimp only [record] at ha ⊢
    split_ifs at ha with h0
    · exact hold a ha
    · rcases List.mem_cons.mp ha with rfl | ha
      · exact ⟨hpos, new, (hmem new).mpr (.inl rfl), (hr.resolve_left h0).symm, rfl⟩
      · exact hold a ha
  · dsimp only [record]
    split_ifs with h0
    · exact hi.starts
    · refine List.pairwise_cons.mpr ⟨fun a ha hra => ?_, hi.starts⟩
      obtain ⟨h1, x, hx, hxs, hxp⟩ := hi.live a ha
      have hc := hclear x hx
      rw [hr.resolve_left h0] at hra
      unfold Clear at hc
      omega

theorem record_null (pages : ℕ) (p : Phys σ) :
    record w pages (0, { w.vmm with phys := p }) = ⟨{ w.vmm with phys := p }, w.live⟩ := by
  rw [record, if_pos rfl]

theorem Inv.phys (hi : Inv ctx w nodes) (p : Phys σ) :
    Inv ctx ⟨{ w.vmm with phys := p }, w.live⟩ nodes :=
  ⟨hi.listed.phys p, hi.fits, hi.clear, hi.live, hi.starts⟩

theorem Inv.end_eq (hi : Inv ctx w nodes) {x : ℕ} (hx : x ∈ nodes) :
    regionEnd (w.vmm.regions x) = (w.vmm.regions x).start+4096*(w.vmm.regions x).pages :=
  wrap_of_lt (hi.fits x hx)

theorem takeWhile_prefix {pre post : List ℕ} {x : ℕ} (hx : x ∉ pre) :
    (pre ++ x::post).takeWhile (fun y => y ≠ x) = pre := by
  rw [List.takeWhile_append_of_pos]
  · simp
  · intro y hy
    simpa using fun h : y = x => hx (h ▸ hy)

section Steps
variable (hptr : ∀ p, (A.palloc 1 true p).1 < 2^64) (hctx : ctx ≠ 0)
include hptr hctx

theorem Inv.valloc (hi : Inv ctx w nodes) {pages flags : ℕ}
    (hlegal : Legal ctx w (.valloc pages flags))
    (hsound : Sound A ctx w (.valloc pages flags)) :
    ∃ w' nodes', step A hhdmOffset kernelPagemap ctx w (.valloc pages flags) = some w' ∧
      Inv ctx w' nodes' := by
  obtain ⟨hpages, hwrap⟩ := hlegal
  obtain ⟨hfresh, hroom⟩ := hsound
  have hl := hi.listed
  rw [FreshNode, hl.regionNodes_eq] at hfresh
  rw [Room, hl.regionNodes_eq] at hroom
  by_cases hskip : nodes = [] ∨ (w.vmm.ctxs ctx).pagemap = 0
  · refine ⟨w, nodes, ?_, hi⟩
    rw [step, Vmm.valloc, placeRegion, if_pos (hl.guard hskip)]
    exact congrArg some (record_null pages w.vmm.phys)
  push Not at hskip
  obtain ⟨pre, x, post, hn, hfind⟩ := hl.findRegion holeBehind hskip.1
  have hx : x ∈ nodes := by simp [hn]
  have hopen : openEnd ctx w.vmm = regionEnd (w.vmm.regions x) := by
    rw [openEnd, openRegion, hfind, Option.getD_some]
  rw [hopen] at hwrap hroom
  have hne : (A.palloc 1 true w.vmm.phys).1 ≠ x := fun h => hfresh (h ▸ hx)
  rw [step, Vmm.valloc, placeRegion_eq A hhdmOffset hl holeBehind _ hx hfind hctx hskip.2 hne]
  dsimp only
  by_cases h0 : (A.palloc 1 true w.vmm.phys).1 = 0
  · rw [if_pos h0]
    exact ⟨_, nodes, congrArg some (record_null pages _), hi.phys _⟩
  · rw [if_neg h0]
    have hfresh' := hfresh
    rw [hn] at hl hfresh'
    obtain ⟨hl', hsame⟩ := hl.insertAfter pages flags h0 hfresh' (hptr _)
    have hnew := insertAfter_new pages flags w.vmm hne (w.vmm.regions x).next
    refine ⟨_, _, rfl, hi.join (A.palloc 1 true w.vmm.phys).1 (hl'.phys _) (hn ▸ hsame) ?_
      (by rw [hnew]) hpages (by rw [hnew]; exact hwrap) ?_ ?_⟩
    · intro y
      simp only [hn, List.mem_append, List.mem_cons]
      tauto
    · intro y hy
      have hy' := hroom y hy
      rw [hi.end_eq hy] at hy'
      rw [hnew, Clear]
      dsimp only
      omega
    · rw [hnew]
      split_ifs
      · exact .inr rfl
      · exact .inl rfl

theorem Inv.vadd (hi : Inv ctx w nodes) {vaddr paddr pages flags : ℕ}
    (hlegal : Legal ctx w (.vadd vaddr paddr pages flags))
    (hsound : Sound A ctx w (.vadd vaddr paddr pages flags)) :
    ∃ w' nodes', step A hhdmOffset kernelPagemap ctx w (.vadd vaddr paddr pages flags) = some w' ∧
      Inv ctx w' nodes' := by
  obtain ⟨hpages, hwrap⟩ := hlegal
  have hl := hi.listed
  have hfresh : (A.palloc 1 true w.vmm.phys).1 ∉ regionNodes w.vmm ctx := hsound
  rw [hl.regionNodes_eq] at hfresh
  by_cases hskip : nodes = [] ∨ (w.vmm.ctxs ctx).pagemap = 0
  · refine ⟨w, nodes, ?_, hi⟩
    rw [step, Vmm.vadd, if_pos (hl.guard hskip)]
    exact congrArg some (record_null pages w.vmm.phys)
  push Not at hskip
  rw [step]
  rcases vadd_eq A hhdmOffset hl hctx hskip.2 hskip.1 vaddr paddr pages flags with
    ⟨-, heq⟩ | ⟨hfree, heq⟩
  · rw [heq]
    exact ⟨w, nodes, congrArg some (record_null pages w.vmm.phys), hi⟩
  · rw [heq]
    dsimp only
    split_ifs with h0
    · exact ⟨_, nodes, congrArg some (record_null pages _), hi.phys _⟩
    · have hroot := hl.root_ne hskip.1
      obtain ⟨hl', hsame⟩ := hl.pushRegion pages flags (alignDown vaddr 4096) h0
        hfresh (hptr _) hroot
      have hne : (A.palloc 1 true w.vmm.phys).1 ≠ (w.vmm.ctxs ctx).root :=
        fun h => hfresh (h ▸ hl.root_mem hskip.1)
      have hnew := pushRegion_region pages flags w.vmm (alignDown vaddr 4096) hne
        (A.palloc 1 true w.vmm.phys).1
      rw [if_pos rfl] at hnew
      refine ⟨_, _, rfl, hi.join (A.palloc 1 true w.vmm.phys).1 (hl'.phys _) hsame ?_
        (by rw [hnew]) hpages (by rw [hnew]; exact hwrap) ?_ (.inr (by rw [hnew]))⟩
      · intro y
        exact List.mem_cons
      · intro y hy
        have hy' := hfree y hy
        rw [Overlaps, hi.end_eq hy, wrap_of_lt hwrap] at hy'
        rw [hnew, Clear]
        dsimp only
        omega

omit hptr in
theorem Inv.vfree (hi : Inv ctx w nodes) {ptr : ℕ} (hsound : Sound A ctx w (.vfree ptr)) :
    ∃ w' nodes', step A hhdmOffset kernelPagemap ctx w (.vfree ptr) = some w' ∧
      Inv ctx w' nodes' := by
  have hl := hi.listed
  have hprev : PrevAccurate ctx w.vmm ptr := hsound
  rw [step]
  rcases vfree_eq A hhdmOffset kernelPagemap hl hctx ptr with
    ⟨heq, -⟩ | ⟨pre, x, post, hn, hx, -, hfind, heq⟩
  · rw [heq]
    refine ⟨_, nodes, rfl, hl, hi.fits, hi.clear, ?_, hi.starts.sublist List.filter_sublist⟩
    exact fun a ha => hi.live a (List.mem_filter.mp ha).1
  · have hp := hprev
    rw [PrevAccurate, namedRegion, hfind, Option.getD_some] at hp
    have hnodup := hl.nodup
    rw [hl.regionNodes_eq, hn, takeWhile_prefix] at hp
    · rw [hn] at hl
      obtain ⟨hl', hsame⟩ := hl.unlinkRegion
      rw [heq, hp]
      have hsub : ∀ y ∈ pre ++ post, y ∈ nodes := by
        intro y hy
        simp only [hn, List.mem_append, List.mem_cons] at *
        tauto
      refine ⟨_, pre ++ post, rfl, hl'.phys _, ?_, ?_, ?_, hi.starts.sublist List.filter_sublist⟩
      · intro y hy
        rw [(hsame y hy).1, (hsame y hy).2]
        exact hi.fits y (hsub y hy)
      · intro y hy z hz hne
        exact (hi.clear y (hsub y hy) z (hsub z hz) hne).congr (hsame y hy) (hsame z hz)
      · intro a ha
        obtain ⟨ha, hne⟩ := List.mem_filter.mp ha
        obtain ⟨h1, y, hy, hys, hyp⟩ := hi.live a ha
        have hyx : y ≠ x := by
          rintro rfl
          rw [← hys, hx] at hne
          simp at hne
        have hy' : y ∈ pre ++ post := by
          simp only [hn, List.mem_append, List.mem_cons] at hy ⊢
          tauto
        refine ⟨h1, y, hy', ?_, ?_⟩
        · rw [(hsame y hy').1, hys]
        · rw [(hsame y hy').2, hyp]
    · rw [hn] at hnodup
      intro hm
      exact (List.nodup_append.mp (List.nodup_cons.mp hnodup).2).2.2 x hm x (by simp) rfl

end Steps

theorem step_inv (hhdmOffset kernelPagemap : ℕ) (hptr : ∀ p, (A.palloc 1 true p).1 < 2^64)
    (hctx : ctx ≠ 0) (hi : Inv ctx w nodes)
    {o : Op} (hlegal : Legal ctx w o) (hsound : Sound A ctx w o) :
    ∃ w' nodes', step A hhdmOffset kernelPagemap ctx w o = some w' ∧ Inv ctx w' nodes' := by
  cases o with
  | valloc pages flags => exact hi.valloc hptr hctx hlegal hsound
  | vadd vaddr paddr pages flags => exact hi.vadd hptr hctx hlegal hsound
  | vfree ptr => exact hi.vfree hctx hsound

theorem vinit_inv (hptr : ∀ p, (A.palloc 1 true p).1 < 2^64) {pm start : ℕ} {s : State σ}
    (hstart : start < 2^64) (hc : (vinit A pm start s).1 ≠ 0) :
    ∃ nodes, Inv (vinit A pm start s).1 ⟨(vinit A pm start s).2, []⟩ nodes := by
  obtain ⟨root, hl, hroot, -⟩ := vinit_listed A hptr pm start s hc
  refine ⟨[root], hl, ?_, ?_, ?_, List.Pairwise.nil⟩
  · intro x hx
    rw [List.mem_singleton.mp hx, hroot]
    simpa using hstart
  · intro x hx y hy hne
    exact absurd ((List.mem_singleton.mp hx).trans (List.mem_singleton.mp hy).symm) hne
  · intro a ha
    exact absurd ha (List.not_mem_nil)

/-- From `vinit` on, live allocations of a context stay disjoint along every
run whose operations are issued in sound states. -/
theorem live_regions_disjoint (hptr : ∀ p, (A.palloc 1 true p).1 < 2^64) (pm start : ℕ)
    (s : State σ)
    (hstart : start < 2^64) (hc : (vinit A pm start s).1 ≠ 0) (ops : List Op)
    (hops : Along (lift (step A hhdmOffset kernelPagemap (vinit A pm start s).1))
      (Issued (fun w o => Legal (vinit A pm start s).1 w o ∧ Sound A (vinit A pm start s).1 w o))
      (some ⟨(vinit A pm start s).2, []⟩) ops) :
    ∃ w, run (lift (step A hhdmOffset kernelPagemap (vinit A pm start s).1))
      (some ⟨(vinit A pm start s).2, []⟩) ops = some w ∧ LiveDisjoint w := by
  have hstep : ∀ w o, (∃ nodes, Inv (vinit A pm start s).1 w nodes) →
      Legal (vinit A pm start s).1 w o ∧ Sound A (vinit A pm start s).1 w o →
      ∃ w', step A hhdmOffset kernelPagemap (vinit A pm start s).1 w o = some w' ∧
        ∃ nodes, Inv (vinit A pm start s).1 w' nodes := by
    rintro w o ⟨nodes, hi⟩ ⟨hlegal, hsound⟩
    obtain ⟨w', nodes', heq, hi'⟩ := step_inv hhdmOffset kernelPagemap
      hptr hc hi hlegal hsound
    exact ⟨w', heq, nodes', hi'⟩
  obtain ⟨w, heq, nodes, hi⟩ := run_lift_invariant hstep (vinit_inv hptr hstart hc) hops
  exact ⟨w, heq, hi.disjoint⟩

def smallState : State (List ℕ) := ⟨smallPhys, fun _ => ⟨0, 0, 0, 0, 0⟩, fun _ => ⟨0, 0, 0⟩⟩

def smallRun (ops : List Op) : Option (World (List ℕ)) :=
  run (lift (step smallOps smallLayout.hhdmOffset smallLayout.hhdmOffset
      (vinit smallOps smallLayout.hhdmOffset 0x1000 smallState).1))
    (some ⟨(vinit smallOps smallLayout.hhdmOffset 0x1000 smallState).2, []⟩) ops

theorem live_regions_disjoint_small :
    ∃ w, smallRun [.valloc 2 3, .vadd 0x9000 0x5000 1 3, .valloc 1 3, .vfree 0x3000] = some w ∧
      LiveDisjoint w :=
  live_regions_disjoint (fun p => palloc_pointer smallLayout 1 true p)
    smallLayout.hhdmOffset 0x1000 smallState (by decide) (by decide +kernel) _ (by decide +kernel)

/-- Freeing the second of three neighbours opens a hole of one page; the next
two pages are placed there and run into the third neighbour. -/
theorem valloc_ignores_hole_size :
    Along (lift (step smallOps smallLayout.hhdmOffset smallLayout.hhdmOffset
        (vinit smallOps smallLayout.hhdmOffset 0x1000 smallState).1))
      (Issued (Legal (vinit smallOps smallLayout.hhdmOffset 0x1000 smallState).1))
      (some ⟨(vinit smallOps smallLayout.hhdmOffset 0x1000 smallState).2, []⟩)
      [.valloc 1 3, .valloc 1 3, .valloc 1 3, .vfree 0x2000, .valloc 2 3] ∧
    ∃ w, smallRun [.valloc 1 3, .valloc 1 3, .valloc 1 3, .vfree 0x2000, .valloc 2 3] = some w ∧
      w.live = [(0x2000, 2), (0x3000, 1), (0x1000, 1)] ∧ ¬ LiveDisjoint w := by
  refine ⟨by decide +kernel, ?_⟩
  have hlive : (smallRun [.valloc 1 3, .valloc 1 3, .valloc 1 3, .vfree 0x2000, .valloc 2 3]).map
      World.live = some [(0x2000, 2), (0x3000, 1), (0x1000, 1)] := by decide +kernel
  obtain ⟨w, hw, hl⟩ := Option.map_eq_some_iff.mp hlive
  refine ⟨w, hw, hl, ?_⟩
  rw [LiveDisjoint, hl]
  decide

end Emk.VmmRuns
