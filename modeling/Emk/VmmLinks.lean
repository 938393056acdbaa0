import Emk.VmmRuns

/-!
# The back links of the region list

`vadd` and `vfree` keep both directions of the list in step. `valloc` and
`vallocat` do not touch the back link of the region behind the new one, so
the list stays doubly linked exactly as long as they insert at its end.
-/

set_option autoImplicit false

namespace Emk.VmmLinks
open Emk.MachineWord Emk.DirectMap Emk.PageAllocator Emk.Vmm Emk.LinkedPath Emk.Transition
open Emk.ReferenceAllocator Emk.VmmRuns

/-- The state and the nodes of the live allocations. -/
structure World (σ : Type) where
  vmm : State σ
  live : List ℕ

inductive Op where
  | valloc (pages flags : ℕ)
  | vallocat (pages flags phys : ℕ)
  | vadd (vaddr paddr pages flags : ℕ)
  | vfree (ptr : ℕ)

variable {σ : Type} (A : Ops σ) (hhdmOffset kernelPagemap ctx : ℕ)

/-- The node of a new region is the first page that the call takes. -/
def record (w : World σ) (r : ℕ × State σ) : World σ :=
  ⟨r.2, if r.1 = 0 then w.live else (A.palloc 1 true w.vmm.phys).1::w.live⟩

def step (w : World σ) : Op → Option (World σ)
  | .valloc pages flags => (valloc A hhdmOffset ctx pages flags w.vmm).map (record A w)
  | .vallocat pages flags phys =>
      (vallocat A hhdmOffset ctx pages flags phys w.vmm).map (record A w)
  | .vadd vaddr paddr pages flags =>
      (vadd A hhdmOffset ctx vaddr paddr pages flags w.vmm).map (record A w)
  | .vfree ptr => (vfree A hhdmOffset kernelPagemap ctx ptr w.vmm).map fun s =>
      ⟨s, w.live.filter (fun x => (w.vmm.regions x).start ≠ ptr)⟩

inductive Reachable (s : State σ) (ctx : ℕ) : ℕ → Prop
  | root : (s.ctxs ctx).root ≠ 0 → Reachable s ctx (s.ctxs ctx).root
  | next {x : ℕ} : Reachable s ctx x → (s.regions x).next ≠ 0 → Reachable s ctx (s.regions x).next

/-- Both directions of the list agree. -/
structure WellLinked (s : State σ) (ctx : ℕ) : Prop where
  front : (s.ctxs ctx).root ≠ 0 → (s.regions (s.ctxs ctx).root).prev = 0
  back : ∀ x, Reachable s ctx x → (s.regions x).next ≠ 0 →
    (s.regions (s.regions x).next).prev = x

/-- No region with a successor passes the test, so the list is extended at its end. -/
def AtEnd (test : Vregion → Vregion → Prop) (s : State σ) : Prop :=
  ∀ x ∈ regionNodes s ctx, (s.regions x).next ≠ 0 →
    ¬ test (s.regions x) (s.regions (s.regions x).next)

/-- A page for the node is not there or is not a node already. -/
def NodePage (s : State σ) : Prop :=
  (A.palloc 1 true s.phys).1 = 0 ∨ (A.palloc 1 true s.phys).1 ∉ regionNodes s ctx

/-- No region before `x` in the list starts where it does. -/
def FirstOfStart (s : State σ) (x : ℕ) : Prop :=
  ∀ y ∈ (regionNodes s ctx).takeWhile (fun y => y ≠ x), (s.regions y).start ≠ (s.regions x).start

def Sound (w : World σ) : Op → Prop
  | .valloc _ _ => NodePage A ctx w.vmm ∧
      ((A.palloc 1 true w.vmm.phys).1 = 0 ∨ AtEnd ctx holeBehind w.vmm)
  | .vallocat pages _ _ => NodePage A ctx w.vmm ∧ ((A.palloc 1 true w.vmm.phys).1 = 0 ∨
      AtEnd ctx (fun r n => wrap (r.start+4096*pages) < n.start) w.vmm)
  | .vadd _ _ _ _ => NodePage A ctx w.vmm
  | .vfree ptr => ∀ x ∈ w.live, (w.vmm.regions x).start = ptr → FirstOfStart ctx w.vmm x

instance decidableAtEnd (test : Vregion → Vregion → Prop) [∀ r n, Decidable (test r n)]
    (s : State σ) : Decidable (AtEnd ctx test s) :=
  inferInstanceAs (Decidable (∀ x ∈ regionNodes s ctx, _ → ¬ _))

instance decidableNodePage (s : State σ) : Decidable (NodePage A ctx s) :=
  inferInstanceAs (Decidable (_ ∨ ¬ _))

instance decidableFirstOfStart (s : State σ) (x : ℕ) : Decidable (FirstOfStart ctx s x) :=
  inferInstanceAs (Decidable (∀ _ ∈ List.takeWhile _ _, _ ≠ _))

instance decidableSound (w : World σ) : ∀ o, Decidable (Sound A ctx w o)
  | .valloc _ _ => inferInstanceAs (Decidable (_ ∧ (_ ∨ AtEnd ctx holeBehind w.vmm)))
  | .vallocat pages _ _ => inferInstanceAs (Decidable (_ ∧ (_ ∨
      AtEnd ctx (fun r n => wrap (r.start+4096*pages) < n.start) w.vmm)))
  | .vadd _ _ _ _ => inferInstanceAs (Decidable (NodePage A ctx w.vmm))
  | .vfree _ => inferInstanceAs (Decidable (∀ x ∈ w.live, _ → FirstOfStart ctx w.vmm x))

/-- Freeing a live region removes its node and no other. -/
def FreesOne (w : World σ) : Op → Prop
  | .vfree ptr => ∀ x ∈ w.live, (w.vmm.regions x).start = ptr →
      ∃ s', vfree A hhdmOffset kernelPagemap ctx ptr w.vmm = some s' ∧
        ∀ y, Reachable s' ctx y ↔ Reachable w.vmm ctx y ∧ y ≠ x
  | _ => True

structure Inv (w : World σ) (nodes : List ℕ) : Prop where
  listed : Listed w.vmm ctx nodes
  back : Back (fun x => (w.vmm.regions x).prev) 0 nodes
  live : ∀ x ∈ w.live, x ∈ nodes

variable {A hhdmOffset kernelPagemap ctx} {w : World σ} {nodes : List ℕ}

theorem reachable_iff {s : State σ} (hl : Listed s ctx nodes) (x : ℕ) :
    Reachable s ctx x ↔ x ∈ nodes := by
  constructor
  · intro h
    induction h with
    | root h0 =>
      refine hl.root_mem ?_
      rintro rfl
      exact h0 (hl.root_nil rfl)
    | next hx h0 ih =>
      rename_i x
      obtain ⟨pre, post, rfl⟩ := List.append_of_mem ih
      have htail := (path_append.mp hl.path).2
      cases post with
      | nil =>
        refine absurd ?_ h0
        rw [next_link s ctx (hl.nonzero ih)]
        exact htail
      | cons y ys =>
        rw [next_link s ctx (hl.nonzero ih), htail.1]
        simp
  · have hall : ∀ (xs : List ℕ) (a : ℕ), Path (link s ctx) a xs 0 → (∀ y ∈ xs, y ≠ 0) →
        (a = 0 ∨ Reachable s ctx a) → ∀ y ∈ xs, Reachable s ctx y := by
      intro xs
      induction xs with
      | nil => exact fun _ _ _ _ y hy => absurd hy List.not_mem_nil
      | cons z zs ih =>
        intro a hp hnz ha y hy
        have hz0 := hnz z (by simp)
        have hz : Reachable s ctx z := by
          by_cases h0 : a = 0
          · rw [← hp.1, h0, link_zero] at hz0 ⊢
            exact .root hz0
          · rw [← hp.1, link_node h0] at hz0 ⊢
            exact .next (ha.resolve_left h0) hz0
        rcases List.mem_cons.mp hy with rfl | hy
        · exact hz
        · exact ih z hp.2 (fun y hy => hnz y (List.mem_cons_of_mem z hy)) (.inr hz) y hy
    exact hall nodes 0 hl.path (fun _ hy => hl.nonzero hy) (.inl rfl) x

theorem reachable_of_mem {s : State σ} {x : ℕ} (hx : x ∈ regionNodes s ctx) :
    Reachable s ctx x := by
  have hall : ∀ fuel a, (a = 0 ∨ Reachable s ctx a) → x ∈ nodesFrom s.regions fuel a →
      Reachable s ctx x := by
    intro fuel
    induction fuel with
    | zero => exact fun _ _ h => absurd h List.not_mem_nil
    | succ fuel ih =>
      intro a ha h
      rw [nodesFrom] at h
      split_ifs at h with h0
      · exact absurd h List.not_mem_nil
      have hr := ha.resolve_left h0
      rcases List.mem_cons.mp h with rfl | h
      · exact hr
      · exact ih _ ((em _).imp_right hr.next) h
  exact hall rounds _ ((em _).imp_right .root) hx

/-- What the links do not leave contains every reachable node. -/
theorem reachable_within {s : State σ} (xs : List ℕ)
    (hroot : (s.ctxs ctx).root ∈ 0::xs) (hnext : ∀ x ∈ xs, (s.regions x).next ∈ 0::xs) {x : ℕ}
    (hx : Reachable s ctx x) : x ∈ xs := by
  induction hx with
  | root h0 => exact (List.mem_cons.mp hroot).resolve_left h0
  | next _ h0 ih => exact (List.mem_cons.mp (hnext _ ih)).resolve_left h0

theorem Inv.wellLinked (hi : Inv ctx w nodes) : WellLinked w.vmm ctx := by
  have hl := hi.listed
  refine ⟨fun h0 => ?_, fun x hx h0 => ?_⟩
  · cases nodes with
    | nil => exact absurd (hl.root_nil rfl) h0
    | cons y ys =>
      rw [← link_zero (s := w.vmm), hl.path.1]
      exact hi.back.1
  · have hmem := (reachable_iff hl x).mp hx
    have hx0 := hl.nonzero hmem
    obtain ⟨pre, post, rfl⟩ := List.append_of_mem hmem
    have htail := (path_append.mp hl.path).2
    have hback := (back_append.mp hi.back).2
    rw [next_link w.vmm ctx hx0] at h0 ⊢
    cases post with
    | nil => exact absurd htail h0
    | cons y ys =>
      rw [htail.1]
      exact hback.2.1

theorem record_null (p : Phys σ) :
    record A w (0, { w.vmm with phys := p }) = ⟨{ w.vmm with phys := p }, w.live⟩ := by
  rw [record, if_pos rfl]

theorem Inv.phys (hi : Inv ctx w nodes) (p : Phys σ) :
    Inv ctx ⟨{ w.vmm with phys := p }, w.live⟩ nodes :=
  ⟨hi.listed.phys p, hi.back, hi.live⟩

/-- The live nodes after a call that put a new node into the list. -/
theorem Inv.record_live (hi : Inv ctx w nodes) {nodes' : List ℕ} {r : ℕ × State σ}
    (hsub : ∀ x ∈ nodes, x ∈ nodes') (hnew : (A.palloc 1 true w.vmm.phys).1 ∈ nodes') :
    ∀ x ∈ (record A w r).live, x ∈ nodes' := by
  intro x hx
  dsimp only [record] at hx
  split_ifs at hx
  · exact hsub x (hi.live x hx)
  · rcases List.mem_cons.mp hx with rfl | hx
    · exact hnew
    · exact hsub x (hi.live x hx)

/-- Unlinking a node gives its back link to the node behind it. -/
theorem back_unlink {s : State σ} {pre post : List ℕ} {x : ℕ} (hl : Listed s ctx (pre ++ x::post))
    (hpre : Back (fun y => (s.regions y).prev) 0 pre)
    (hpost : Back (fun y => (s.regions y).prev) x post) :
    Back (fun y => ((unlinkRegion ctx x (tip 0 pre) (s.regions x).next s).regions y).prev) 0
      (pre ++ post) := by
  have hx := hl.nonzero (x := x) (by simp)
  have hnodup := hl.nodup
  rw [← List.cons_append] at hnodup
  obtain ⟨-, hxpost, hapart⟩ := List.nodup_append.mp hnodup
  have htail := (path_append.mp hl.path).2
  have hreg := fun y => unlinkRegion_region s ctx x _ _ y hl.tip_ne_next
  have hkeep : ∀ y, y ≠ (s.regions x).next ∨ y = 0 →
      ((unlinkRegion ctx x (tip 0 pre) (s.regions x).next s).regions y).prev =
        (s.regions y).prev := by
    intro y hy
    rw [hreg]
    split_ifs with h1 h2
    · rfl
    · exact absurd h2.1 (hy.resolve_right h2.2)
    · rfl
  rw [next_link s ctx hx] at hkeep hreg ⊢
  cases post with
  | nil =>
    rw [List.append_nil]
    have h0 : link s ctx x = 0 := htail
    exact back_congr (fun y _ => hkeep y (by rw [h0]; exact (em _).symm)) hpre
  | cons z zs =>
    rw [htail.1] at hkeep hreg ⊢
    have hz0 := hl.nonzero (x := z) (by simp)
    have hzs := List.nodup_cons.mp (List.nodup_cons.mp hxpost).2
    refine back_append.mpr ⟨back_congr (fun y hy => hkeep y (.inl ?_)) hpre, ?_, ?_⟩
    · exact hapart y (List.mem_cons_of_mem 0 hy) z (by simp)
    · have hzt : z ≠ tip 0 pre := fun h => hapart _ (tip_mem 0 pre) z (by simp) h.symm
      dsimp only
      rw [hreg, if_neg (fun h => hzt h.1), if_pos ⟨rfl, hz0⟩]
    · refine back_congr (fun y hy => hkeep y (.inl ?_)) hpost.2
      rintro rfl
      exact hzs.1 hy

section Steps
variable (hptr : ∀ p, (A.palloc 1 true p).1 < 2^64) (hctx : ctx ≠ 0)
include hptr hctx

/-- `valloc` and `vallocat` behind the last region. -/
theorem Inv.place (hhdmOffset : ℕ) (hi : Inv ctx w nodes) (test : Vregion → Vregion → Prop)
    [∀ r n, Decidable (test r n)] (page : ℕ → Phys σ → ℕ × Phys σ) (pages flags : ℕ)
    (hnode : NodePage A ctx w.vmm)
    (hend : (A.palloc 1 true w.vmm.phys).1 = 0 ∨ AtEnd ctx test w.vmm) :
    ∃ r nodes', placeRegion A hhdmOffset test page ctx pages flags w.vmm = some r ∧
      Inv ctx (record A w r) nodes' := by
  have hl := hi.listed
  by_cases hskip : nodes = [] ∨ (w.vmm.ctxs ctx).pagemap = 0
  · rw [placeRegion, if_pos (hl.guard hskip)]
    refine ⟨_, nodes, rfl, ?_⟩
    rw [record_null w.vmm.phys]
    exact hi.phys _
  push Not at hskip
  obtain ⟨pre, x, post, hn, hfind⟩ := hl.findRegion test hskip.1
  have hx : x ∈ nodes := by simp [hn]
  have hx0 := hl.nonzero hx
  have hne : (A.palloc 1 true w.vmm.phys).1 ≠ x := by
    rintro rfl
    exact hnode.resolve_left hx0 (hl.regionNodes_eq ▸ hx)
  rw [placeRegion_eq A hhdmOffset hl test page hx hfind hctx hskip.2 hne]
  dsimp only
  by_cases h0 : (A.palloc 1 true w.vmm.phys).1 = 0
  · rw [if_pos h0]
    refine ⟨_, nodes, rfl, ?_⟩
    rw [record_null]
    exact hi.phys _
  rw [if_neg h0]
  have hfresh := hnode.resolve_left h0
  have hno := hend.resolve_left h0
  rw [AtEnd, hl.regionNodes_eq] at hno
  rw [hl.regionNodes_eq] at hfresh
  have hlast : (w.vmm.regions x).next = 0 := by
    by_contra hne
    exact hno x hx hne ((findRegion_stop hfind hx0).resolve_left hne)
  obtain rfl : post = [] := by
    have htail := (path_append.mp (hn ▸ hl.path)).2
    cases post with
    | nil => rfl
    | cons y ys =>
      rw [LinkedPath.Path, link_node hx0, hlast] at htail
      exact absurd htail.1.symm (hl.nonzero (by simp [hn]))
  have hfresh' := hfresh
  rw [hn] at hl hfresh'
  obtain ⟨hl', -⟩ := hl.insertAfter pages flags h0 hfresh' (hptr _)
  have hreg := insertAfter_region pages flags w.vmm hne
    (w.vmm.regions x).next
  refine ⟨_, _, rfl, hl'.phys _, ?_, hi.record_live ?_ (by simp)⟩
  · have hassoc : pre ++ [x, (A.palloc 1 true w.vmm.phys).1] =
        nodes ++ [(A.palloc 1 true w.vmm.phys).1] := by simp [hn]
    rw [hassoc]
    refine back_append.mpr ⟨back_congr (fun y hy => ?_) hi.back, ?_, trivial⟩
    · have hyn : y ≠ (A.palloc 1 true w.vmm.phys).1 := fun h => hfresh (h ▸ hy)
      dsimp only [record]
      rw [hreg, if_neg hyn]
      split_ifs with hyx
      · rw [hyx]
      · rfl
    · have htip : tip 0 nodes = x := by
        rw [hn]
        exact tip_append 0 x pre []
      dsimp only [record]
      rw [hreg, if_neg hne, if_pos rfl, htip]
  · intro y hy
    rw [hn] at hy
    simp only [List.mem_append, List.mem_cons] at hy ⊢
    tauto

theorem Inv.vadd (hhdmOffset : ℕ) (hi : Inv ctx w nodes) (vaddr paddr pages flags : ℕ)
    (hnode : NodePage A ctx w.vmm) :
    ∃ r nodes', Vmm.vadd A hhdmOffset ctx vaddr paddr pages flags w.vmm = some r ∧
      Inv ctx (record A w r) nodes' := by
  have hl := hi.listed
  by_cases hskip : nodes = [] ∨ (w.vmm.ctxs ctx).pagemap = 0
  · rw [Vmm.vadd, if_pos (hl.guard hskip)]
    refine ⟨_, nodes, rfl, ?_⟩
    rw [record_null w.vmm.phys]
    exact hi.phys _
  push Not at hskip
  rcases vadd_eq A hhdmOffset hl hctx hskip.2 hskip.1 vaddr paddr pages flags with
    ⟨-, heq⟩ | ⟨-, heq⟩
  · rw [heq]
    refine ⟨_, nodes, rfl, ?_⟩
    rw [record_null w.vmm.phys]
    exact hi.phys _
  rw [heq]
  dsimp only
  by_cases h0 : (A.palloc 1 true w.vmm.phys).1 = 0
  · rw [if_pos h0]
    refine ⟨_, nodes, rfl, ?_⟩
    rw [record_null]
    exact hi.phys _
  rw [if_neg h0]
  have hfresh := hnode.resolve_left h0
  rw [hl.regionNodes_eq] at hfresh
  have hroot := hl.root_ne hskip.1
  have hne : (A.palloc 1 true w.vmm.phys).1 ≠ (w.vmm.ctxs ctx).root :=
    fun h => hfresh (h ▸ hl.root_mem hskip.1)
  obtain ⟨hl', -⟩ := hl.pushRegion pages flags (alignDown vaddr 4096) h0
    hfresh (hptr _) hroot
  have hreg := pushRegion_region pages flags w.vmm (alignDown vaddr 4096) hne
  refine ⟨_, _, rfl, hl'.phys _, ⟨?_, ?_⟩, hi.record_live ?_ (by simp)⟩
  · dsimp only [record]
    rw [hreg, if_pos rfl]
  · cases nodes with
    | nil => exact absurd rfl hskip.1
    | cons y ys =>
      have hy : (w.vmm.ctxs ctx).root = y := link_zero.symm.trans hl.path.1
      have hyn : y ≠ (A.palloc 1 true w.vmm.phys).1 := fun h => hfresh (by simp [h])
      refine ⟨?_, back_congr (fun z hz => ?_) hi.back.2⟩
      · dsimp only [record]
        rw [hreg, if_neg hyn, if_pos ⟨hy.symm, hy ▸ hroot⟩]
      · have hzn : z ≠ (A.palloc 1 true w.vmm.phys).1 := fun h => hfresh (by simp [← h, hz])
        have hzy : z ≠ y := by
          rintro rfl
          exact (List.nodup_cons.mp (List.nodup_cons.mp hl.nodup).2).1 hz
        dsimp only [record]
        rw [hreg, if_neg hzn, if_neg (fun h => hzy (h.1.trans hy))]
  · exact fun y hy => List.mem_cons_of_mem _ hy

omit hptr in
/-- `vfree` takes out the first node that starts at the pointer. -/
theorem Inv.vfree (A : Ops σ) (hhdmOffset kernelPagemap : ℕ) (hi : Inv ctx w nodes) (ptr : ℕ) :
    (Vmm.vfree A hhdmOffset kernelPagemap ctx ptr w.vmm = some w.vmm ∧
      ∀ x ∈ nodes, (w.vmm.regions x).start ≠ ptr) ∨
    ∃ pre x post s', nodes = pre ++ x::post ∧ (w.vmm.regions x).start = ptr ∧
      (∀ y ∈ pre, (w.vmm.regions y).start ≠ ptr) ∧
      Vmm.vfree A hhdmOffset kernelPagemap ctx ptr w.vmm = some s' ∧
      Listed s' ctx (pre ++ post) ∧ Back (fun x => (s'.regions x).prev) 0 (pre ++ post) := by
  have hl := hi.listed
  rcases vfree_eq A hhdmOffset kernelPagemap hl hctx ptr with
    h | ⟨pre, x, post, rfl, hx, hfirst, -, heq⟩
  · exact .inl h
  refine .inr ⟨pre, x, post, _, rfl, hx, hfirst, heq, ?_⟩
  obtain ⟨hback, hprev, hrest⟩ := back_append.mp hi.back
  dsimp only at hprev
  rw [hprev]
  refine ⟨hl.unlinkRegion.1.phys _, back_unlink hl hback hrest⟩

theorem step_inv (hhdmOffset kernelPagemap : ℕ) (hi : Inv ctx w nodes) {o : Op}
    (hsound : Sound A ctx w o) :
    ∃ w' nodes', step A hhdmOffset kernelPagemap ctx w o = some w' ∧ Inv ctx w' nodes' := by
  cases o with
  | valloc pages flags =>
    obtain ⟨r, nodes', heq, hi'⟩ := hi.place hptr hctx hhdmOffset holeBehind
      (fun _ => A.palloc 1 false) pages flags hsound.1 hsound.2
    exact ⟨_, nodes', by rw [step, valloc, heq, Option.map_some], hi'⟩
  | vallocat pages flags phys =>
    obtain ⟨r, nodes', heq, hi'⟩ := hi.place hptr hctx hhdmOffset
      (fun r n => wrap (r.start+4096*pages) < n.start)
      (fun i p => (wrap (alignDown phys 4096+4096*i), p)) pages flags hsound.1 hsound.2
    exact ⟨_, nodes', by rw [step, vallocat, heq, Option.map_some], hi'⟩
  | vadd vaddr paddr pages flags =>
    obtain ⟨r, nodes', heq, hi'⟩ := hi.vadd hptr hctx hhdmOffset vaddr paddr pages
      flags hsound
    exact ⟨_, nodes', by rw [step, heq, Option.map_some], hi'⟩
  | vfree ptr =>
    rw [step]
    rcases hi.vfree hctx A hhdmOffset kernelPagemap ptr with
      ⟨heq, -⟩ | ⟨pre, x, post, s', rfl, hx, -, heq, hl', hback⟩
    · rw [heq]
      refine ⟨_, nodes, rfl, hi.listed, hi.back, fun y hy => ?_⟩
      exact hi.live y (List.mem_filter.mp hy).1
    · rw [heq]
      refine ⟨_, pre ++ post, rfl, hl', hback, fun y hy => ?_⟩
      obtain ⟨hy, hne⟩ := List.mem_filter.mp hy
      have hyx : y ≠ x := by
        rintro rfl
        simp [hx] at hne
      have hmem := hi.live y hy
      simp only [List.mem_append, List.mem_cons] at hmem ⊢
      tauto

omit hptr in
theorem Inv.freesOne (hi : Inv ctx w nodes) {o : Op} (hsound : Sound A ctx w o) :
    FreesOne A hhdmOffset kernelPagemap ctx w o := by
  cases o with
  | valloc pages flags => trivial
  | vallocat pages flags phys => trivial
  | vadd vaddr paddr pages flags => trivial
  | vfree ptr =>
    intro x hx hstart
    have hfirst := hsound x hx hstart
    have hmem := hi.live x hx
    rcases hi.vfree hctx A hhdmOffset kernelPagemap ptr with
      ⟨-, hno⟩ | ⟨pre, y, post, s', rfl, hy, hno, heq, hl', -⟩
    · exact absurd hstart (hno x hmem)
    have hnodup := (List.nodup_cons.mp hi.listed.nodup).2
    obtain rfl : x = y := by
      rcases List.mem_append.mp hmem with hpre | hpost
      · exact absurd hstart (hno x hpre)
      rcases List.mem_cons.mp hpost with he | hpost
      · exact he
      · obtain ⟨mid, rest, rfl⟩ := List.append_of_mem hpost
        rw [FirstOfStart, hi.listed.regionNodes_eq, ← List.cons_append, ← List.append_assoc,
          takeWhile_prefix] at hfirst
        · exact absurd (hy.trans hstart.symm) (hfirst y (by simp))
        · rw [← List.cons_append, ← List.append_assoc] at hnodup
          intro hm
          exact (List.nodup_append.mp hnodup).2.2 x hm x (by simp) rfl
    refine ⟨s', heq, fun z => ?_⟩
    rw [reachable_iff hl', reachable_iff hi.listed]
    have hout : x ∉ pre ++ post := (List.nodup_cons.mp (List.perm_middle.nodup_iff.mp hnodup)).1
    have hzx : z = x → z ∉ pre ++ post := fun h => h ▸ hout
    simp only [List.mem_append, List.mem_cons] at hzx ⊢
    tauto

end Steps

theorem vinit_inv (hptr : ∀ p, (A.palloc 1 true p).1 < 2^64) {pm start : ℕ} {s : State σ}
    (hc : (vinit A pm start s).1 ≠ 0) :
    ∃ nodes, Inv (vinit A pm start s).1 ⟨(vinit A pm start s).2, []⟩ nodes := by
  obtain ⟨root, hl, hroot, -⟩ := vinit_listed A hptr pm start s hc
  refine ⟨[root], hl, ⟨?_, trivial⟩, fun x hx => absurd hx List.not_mem_nil⟩
  dsimp only
  rw [hroot]

/-- From `vinit` on, as long as regions are placed at the end of the list or
pushed to its front, both directions of the list agree and freeing a live
region removes its node alone. -/
theorem region_list_links (hptr : ∀ p, (A.palloc 1 true p).1 < 2^64) (pm start : ℕ) (s : State σ)
    (hc : (vinit A pm start s).1 ≠ 0) (ops : List Op)
    (hops : Along (lift (step A hhdmOffset kernelPagemap (vinit A pm start s).1))
      (Issued (Sound A (vinit A pm start s).1)) (some ⟨(vinit A pm start s).2, []⟩) ops) :
    Along (lift (step A hhdmOffset kernelPagemap (vinit A pm start s).1))
      (Issued (FreesOne A hhdmOffset kernelPagemap (vinit A pm start s).1))
      (some ⟨(vinit A pm start s).2, []⟩) ops ∧
    ∃ w, run (lift (step A hhdmOffset kernelPagemap (vinit A pm start s).1))
      (some ⟨(vinit A pm start s).2, []⟩) ops = some w ∧
      WellLinked w.vmm (vinit A pm start s).1 := by
  have hstep : ∀ w o, (∃ nodes, Inv (vinit A pm start s).1 w nodes) →
      Sound A (vinit A pm start s).1 w o →
      ∃ w', step A hhdmOffset kernelPagemap (vinit A pm start s).1 w o = some w' ∧
        ∃ nodes, Inv (vinit A pm start s).1 w' nodes := by
    rintro w o ⟨nodes, hi⟩ hsound
    obtain ⟨w', nodes', heq, hi'⟩ := step_inv hptr hc hhdmOffset kernelPagemap
      hi hsound
    exact ⟨w', heq, nodes', hi'⟩
  refine ⟨?_, ?_⟩
  · refine along_lift_of_invariant hstep ?_ (vinit_inv hptr hc) hops
    rintro w o ⟨nodes, hi⟩ hsound
    exact hi.freesOne hc hsound
  · obtain ⟨w, heq, nodes, hi⟩ := run_lift_invariant hstep (vinit_inv hptr hc) hops
    exact ⟨w, heq, hi.wellLinked⟩

def smallCtx : ℕ := (vinit smallOps smallLayout.hhdmOffset 0x1000 smallState).1

def smallRun (ops : List Op) : Option (World (List ℕ)) :=
  run (lift (step smallOps smallLayout.hhdmOffset smallLayout.hhdmOffset smallCtx))
    (some ⟨(vinit smallOps smallLayout.hhdmOffset 0x1000 smallState).2, []⟩) ops

theorem region_list_links_small :
    ∃ w, smallRun [.vadd 0x9000 0x5000 1 3, .valloc 2 3, .vallocat 1 3 0x5000, .vfree 0x9000] =
      some w ∧ WellLinked w.vmm smallCtx :=
  (region_list_links (fun p => palloc_pointer smallLayout 1 true p) smallLayout.hhdmOffset 0x1000
    smallState (by decide +kernel) _ (by decide +kernel)).2

/-- A region placed into a hole leaves the back link of its successor as it
was. Freeing the successor then cuts the new region off. -/
theorem valloc_forgets_back_link :
    (∃ w, smallRun [.valloc 1 3, .valloc 1 3, .valloc 1 3, .vfree 0x2000, .valloc 1 3] = some w ∧
      ¬ WellLinked w.vmm smallCtx) ∧
    ∃ w, smallRun [.valloc 1 3, .valloc 1 3, .valloc 1 3, .vfree 0x2000, .valloc 1 3,
        .vfree 0x3000] = some w ∧
      smallLayout.hhdmOffset+0xc000 ∈ w.live ∧
      ¬ Reachable w.vmm smallCtx (smallLayout.hhdmOffset+0xc000) := by
  constructor
  · have hrun : (smallRun [.valloc 1 3, .valloc 1 3, .valloc 1 3, .vfree 0x2000, .valloc 1 3]).any
        (fun w => decide (smallLayout.hhdmOffset+0xc000 ∈ regionNodes w.vmm smallCtx ∧
          (w.vmm.regions (smallLayout.hhdmOffset+0xc000)).next = smallLayout.hhdmOffset+0xa000 ∧
          (w.vmm.regions (smallLayout.hhdmOffset+0xa000)).prev =
            smallLayout.hhdmOffset+0x3000)) = true := by decide +kernel
    obtain ⟨w, hw, hlinks⟩ := (Option.any_eq_true _ _).mp hrun
    obtain ⟨hmem, hnext, hprev⟩ := of_decide_eq_true hlinks
    refine ⟨w, hw, fun hl => ?_⟩
    have hback := hl.back _ (reachable_of_mem hmem) (by rw [hnext]; decide)
    rw [hnext, hprev] at hback
    exact absurd hback (by decide)
  · have hrun : (smallRun [.valloc 1 3, .valloc 1 3, .valloc 1 3, .vfree 0x2000, .valloc 1 3,
          .vfree 0x3000]).any (fun w => decide (smallLayout.hhdmOffset+0xc000 ∈ w.live ∧
          (w.vmm.ctxs smallCtx).root = smallLayout.hhdmOffset+0x2000 ∧
          (w.vmm.regions (smallLayout.hhdmOffset+0x2000)).next = smallLayout.hhdmOffset+0x3000 ∧
          (w.vmm.regions (smallLayout.hhdmOffset+0x3000)).next = 0)) = true := by decide +kernel
    obtain ⟨w, hw, hlinks⟩ := (Option.any_eq_true _ _).mp hrun
    obtain ⟨hlive, hroot, h2, h3⟩ := of_decide_eq_true hlinks
    refine ⟨w, hw, hlive, fun hr => ?_⟩
    have hin := reachable_within
      [smallLayout.hhdmOffset+0x2000, smallLayout.hhdmOffset+0x3000] (by rw [hroot]; simp)
      (fun x hx => ?_) hr
    · exact absurd hin (by decide)
    · rcases List.mem_cons.mp hx with rfl | hx
      · rw [h2]
        simp
      · rw [List.mem_singleton.mp hx, h3]
        simp

end Emk.VmmLinks
