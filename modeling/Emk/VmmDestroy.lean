import Emk.VmmInverse

/-!
# Destroying a context

`vdestroy` walks the regions of a context, gives back the page of each node,
and then the page of the context. The frames that `valloc` took to back the
regions are not on that walk: they stay in use for ever.
-/

set_option autoImplicit false

namespace Emk.VmmDestroy
open Emk.ByteMemory Emk.MachineWord Emk.DirectMap Emk.PageAllocator Emk.Paging Emk.Vmm
open Emk.PagingForest Emk.LinkedPath Emk.Transition Emk.ReferenceAllocator
open Emk.Sched (vflagsToPflags_entry)
open Emk.VmmInverse (newFrames fillFrames_length openEnd_eq)
open Emk.VmmRuns (openEnd smallState)

/-- The arguments of a call of `valloc`. -/
structure Demand where
  pages : ℕ
  flags : ℕ

/-- The kernel, and the frames that calls of `valloc` backed their regions with. -/
structure World (σ : Type) where
  vmm : State σ
  backing : List ℕ

variable {σ : Type} {D : Layout} {A : Ops σ} {roots : Set ℕ} {shared : Set (Fin 512)}
  {ctx pm : ℕ}

/-- A call of `valloc` that succeeds. -/
def populate (A : Ops σ) (hhdmOffset pm ctx : ℕ) (w : World σ) (q : Demand) : Option (World σ) :=
  (valloc A hhdmOffset ctx q.pages q.flags w.vmm).bind fun r =>
    if r.1 = 0 then none
    else some ⟨r.2, w.backing ++ newFrames A hhdmOffset pm ctx q.pages q.flags w.vmm⟩

/-- Every page of the context is free again, and only page tables have come
into use since `s`. -/
structure Returned (F : FreeContract D A) (roots : Set ℕ) (ctx : ℕ) (s : State σ) (w : World σ)
    (s' : State σ) : Prop where
  context : ∃ f, ctx = D.hhdmOffset+f ∧ f ∉ F.owned s'.phys
  nodes : ∀ x ∈ regionNodes w.vmm ctx, ∃ f, x = D.hhdmOffset+f ∧ f ∉ F.owned s'.phys
  backing : ∀ g ∈ w.backing, g ∉ F.owned s'.phys
  balance : ∀ f, f ∉ tableFrames D s'.phys.mem roots →
    (f ∈ F.owned s'.phys ↔ f ∈ F.owned s.phys)

/-- A context that came into being after the frames `O` were in use: its own
pages and its backing frames are in use besides, and nothing else unless
backing frames are. -/
structure Populated (F : FreeContract D A) (roots : Set ℕ) (shared : Set (Fin 512)) (pm ctx : ℕ)
    (O : Set ℕ) (w : World σ) (nodes : List ℕ) : Prop
    extends CtxOwned F.toContract roots shared ctx pm w.vmm nodes where
  rooted : nodes ≠ []
  before : O ⊆ F.owned w.vmm.phys
  page : ∀ x ∈ ctx::nodes, ∃ f ∈ F.owned w.vmm.phys, x = D.hhdmOffset+f ∧ f ∉ O
  apart : ctx ∉ nodes
  backed : ∀ g ∈ w.backing, g ∈ F.owned w.vmm.phys ∧ D.hhdmOffset+g ∉ ctx::nodes
  exact : w.backing = [] → ∀ f ∈ F.owned w.vmm.phys, f ∈ O ∨ D.hhdmOffset+f ∈ ctx::nodes

section Fill
variable {C : Contract D A} {p : Phys σ} {start flags : ℕ}

theorem fillFrames_fresh (hf : Forest C roots shared p) (hpm : pm ∈ roots) (hflags : flags < 2^64)
    (n i : ℕ) {g : ℕ} (hg : g ∈ fillFrames A D.hhdmOffset (backing A) pm start flags n i p) :
    g ∉ C.owned p ∧
      g ∈ C.owned (fillRegion A D.hhdmOffset (backing A) pm start flags n i p).2 := by
  induction n generalizing i p with
  | zero => exact absurd hg List.not_mem_nil
  | succ n ih =>
    rw [fillFrames] at hg
    rw [fillRegion]
    by_cases h0 : (A.palloc 1 false p).1 = 0
    · rw [if_pos h0] at hg
      exact absurd hg List.not_mem_nil
    rw [if_neg h0] at hg ⊢
    have hb := palloc_backing hf.valid h0
    have hq := palloc_quiet hf false
    have hmap := vmap_range (A := A) hq.forest hpm (wrap (start+4096*i)) _ flags
      (hb.entry_lt hflags)
    have hrest := fillRegion_range (A := A) hmap.forest hpm hflags start n (i+1)
    rcases List.mem_cons.mp hg with rfl | hlater
    · refine ⟨hb.fresh, hrest.owned (hmap.owned ?_)⟩
      obtain ⟨f, hf', -, -, -, ho⟩ := C.palloc_grant hf.valid false h0
      rw [if_neg (by decide)] at hf'
      rw [ho, hf']
      exact Set.mem_insert f _
    · obtain ⟨hfresh, hin⟩ := ih hmap.forest (i+1) hlater
      exact ⟨fun h => hfresh (hmap.owned (hq.owned h)), hin⟩

end Fill

variable {F : FreeContract D A} {O : Set ℕ} {w w' : World σ} {nodes : List ℕ} {s : State σ}

theorem populate_null (hz : (w.vmm.ctxs ctx).pagemap = 0) (q : Demand) :
    populate A D.hhdmOffset pm ctx w q = none := by
  rw [populate, valloc, placeRegion, if_pos (.inr (.inr hz)), Option.bind_some]
  exact if_pos rfl

/-- A successful call adds a node, and as many backing frames as it was asked
for. -/
theorem populate_keeps (hp : Populated F roots shared pm ctx O w nodes)
    (hpm : pm ≠ 0 → pm ∈ roots) (hctx : ctx ≠ 0) {q : Demand}
    (h : populate A D.hhdmOffset pm ctx w q = some w') :
    ∃ nodes', Populated F roots shared pm ctx O w' nodes' ∧
      w'.backing.length = w.backing.length+q.pages := by
  have hroot : pm ∈ roots := by
    refine hpm (fun hz => ?_)
    rw [populate_null (hp.pagemap.trans hz)] at h
    exact absurd h (by simp)
  obtain ⟨⟨start, t⟩, hcall, hr⟩ := Option.bind_eq_some_iff.mp h
  dsimp only at hr
  split_ifs at hr with hs
  obtain rfl := Option.some.inj hr
  obtain ⟨pre, x, post, rfl, hfind, hstart, h0, hok, rfl⟩ :=
    hp.toCtxOwned.valloc_placed hctx hcall hs
  have hopen : openEnd ctx w.vmm = start := by rw [(openEnd_eq hfind).2, hstart]
  have hflags := (vflagsToPflags_entry q.flags).lt
  have hq := palloc_quiet hp.forest true
  have hfill := fillRegion_range (A := A) hq.forest hroot hflags start q.pages 0
  obtain ⟨f, hnew, -, -, hfree, ho⟩ := F.palloc_grant hp.forest.valid true h0
  rw [if_pos rfl] at hnew
  have hframes : newFrames A D.hhdmOffset pm ctx q.pages q.flags w.vmm =
      fillFrames A D.hhdmOffset (backing A) pm start (vflagsToPflags q.flags) q.pages 0
        (A.palloc 1 true w.vmm.phys).2 := by
    rw [newFrames, hopen]
  have hlength := fillFrames_length hok
  have hmem : ∀ y, y ∈ ctx::(pre ++ x::(A.palloc 1 true w.vmm.phys).1::post) ↔
      y = D.hhdmOffset+f ∨ y ∈ ctx::(pre ++ x::post) := by
    intro y
    rw [hnew]
    simp only [List.mem_cons, List.mem_append]
    tauto
  refine ⟨_, ⟨hp.toCtxOwned.place h0 q.pages q.flags hfill.forest hfill.owned, by simp, ?_, ?_, ?_,
    ?_, ?_⟩, ?_⟩
  · exact hp.before.trans (hq.owned.trans hfill.owned)
  · intro y hy
    rcases (hmem y).mp hy with rfl | hold
    · refine ⟨f, hfill.owned ?_, rfl, fun hin => hfree (hp.before hin)⟩
      rw [ho]
      exact Set.mem_insert f _
    · obtain ⟨g, hg, he, hgO⟩ := hp.page y hold
      exact ⟨g, hfill.owned (hq.owned hg), he, hgO⟩
  · obtain ⟨g, hg, he, -⟩ := hp.page ctx (by simp)
    intro hin
    rw [hnew] at hin
    have hne : ctx ≠ D.hhdmOffset+f := by
      rintro rfl
      obtain rfl : f = g := by omega
      exact hfree hg
    have hold := hp.apart
    simp only [List.mem_append, List.mem_cons] at hin hold
    tauto
  · intro g hg
    rw [hmem, not_or]
    rcases List.mem_append.mp hg with hold | hnewer
    · obtain ⟨hin, hapart⟩ := hp.backed g hold
      refine ⟨hfill.owned (hq.owned hin), fun he => ?_, hapart⟩
      obtain rfl : g = f := by omega
      exact hfree hin
    · rw [hframes] at hnewer
      obtain ⟨hfresh, hin⟩ := fillFrames_fresh hq.forest hroot hflags q.pages 0 hnewer
      refine ⟨hin, fun he => hfresh ?_, fun hold => hfresh ?_⟩
      · obtain rfl : g = f := by omega
        rw [ho]
        exact Set.mem_insert g _
      · obtain ⟨g', hg', he, -⟩ := hp.page _ hold
        obtain rfl : g = g' := by omega
        exact hq.owned hg'
  · -- without backing frames the call was for no pages
    intro hnone f' hf'
    obtain ⟨hold, hlast⟩ := List.append_eq_nil_iff.mp hnone
    rw [hframes] at hlast
    rw [hlast, List.length_nil] at hlength
    rw [← hlength] at hf'
    rw [hmem]
    have hin : f' ∈ insert f (F.owned w.vmm.phys) := ho ▸ hf'
    rcases hin with rfl | hin
    · exact .inr (.inl rfl)
    · exact (hp.exact hold f' hin).imp_right .inr
  · dsimp only
    rw [List.length_append, hframes, hlength]

/-- A fresh context holds two pages. -/
theorem vinit_populated (hf : Forest F.toContract roots shared s.phys) (pm start : ℕ)
    (hc : (vinit A pm start s).1 ≠ 0) :
    ∃ root, Populated F roots shared pm (vinit A pm start s).1 (F.owned s.phys)
      ⟨(vinit A pm start s).2, []⟩ [root] := by
  obtain ⟨root, hown, -, hq⟩ := vinit_ctxOwned hf pm start hc
  obtain ⟨h1, h2, heq⟩ := vinit_eq A pm start s hc
  have hq1 := palloc_quiet hf true
  obtain ⟨c, hcp, -, -, hcf, hco⟩ := F.palloc_grant hf.valid true h1
  obtain ⟨r, hrp, -, -, hrf, hro⟩ := F.palloc_grant hq1.forest.valid true h2
  rw [if_pos rfl] at hcp hrp
  rw [hco] at hrf hro
  have hroot : root = D.hhdmOffset+r := by
    have hpath := hown.listed.path.1
    rw [link_zero, heq] at hpath
    rw [← hrp]
    simpa using hpath.symm
  have hctx : (vinit A pm start s).1 = D.hhdmOffset+c := by rw [heq, hcp]
  have hphys : F.owned (vinit A pm start s).2.phys = insert r (insert c (F.owned s.phys)) := by
    rw [heq, ← hro]
  have hcr : c ≠ r := by
    rintro rfl
    exact hrf (Set.mem_insert c _)
  refine ⟨root, hown, List.cons_ne_nil _ _, hq.owned, ?_, ?_, fun g hg => absurd hg
    List.not_mem_nil, ?_⟩
  · intro x hx
    dsimp only
    rw [hphys]
    rcases List.mem_cons.mp hx with rfl | hx
    · exact ⟨c, by simp, hctx, hcf⟩
    · exact ⟨r, by simp, (List.mem_singleton.mp hx).trans hroot, fun h => hrf (.inr h)⟩
  · rw [hctx, hroot, List.mem_singleton]
    omega
  · intro _ f hfo
    dsimp only at hfo
    rw [hphys] at hfo
    rw [hctx, hroot]
    rcases hfo with rfl | rfl | hold
    · exact .inr (by simp)
    · exact .inr (by simp)
    · exact .inl hold

/-- What any sequence of successful calls makes of a fresh context. -/
theorem run_populated (hp : Populated F roots shared pm ctx O w nodes)
    (hpm : pm ≠ 0 → pm ∈ roots) (hctx : ctx ≠ 0) {qs : List Demand}
    (h : run (lift (populate A D.hhdmOffset pm ctx)) (some w) qs = some w') :
    ∃ nodes', Populated F roots shared pm ctx O w' nodes' ∧
      w'.backing.length = w.backing.length+(qs.map Demand.pages).sum := by
  induction qs generalizing w nodes with
  | nil =>
    obtain rfl := Option.some.inj h
    exact ⟨nodes, hp, by simp⟩
  | cons q qs ih =>
    cases hstep : populate A D.hhdmOffset pm ctx w q with
    | none =>
      have hnone : run (lift (populate A D.hhdmOffset pm ctx)) (some w) (q::qs) = none := by
        rw [Transition.run, lift, Option.bind_some, hstep, run_lift_none]
      rw [hnone] at h
      exact absurd h (by simp)
    | some v =>
      obtain ⟨nodes', hv, hlen⟩ := populate_keeps hp hpm hctx hstep
      rw [Transition.run, lift, Option.bind_some, hstep] at h
      obtain ⟨nodes'', hw', hlen'⟩ := ih hv h
      refine ⟨nodes'', hw', ?_⟩
      rw [hlen', hlen, List.map_cons, List.sum_cons]
      omega

section Walk
variable {p : Phys σ} {a : ℕ}

/-- The loop gives back exactly the pages of the nodes it walks over. -/
theorem vdestroyLoop_frees (hpath : Path (link s ctx) a nodes 0) (hnz : ∀ x ∈ nodes, x ≠ 0)
    (hnodup : nodes.Nodup) {fuel : ℕ} (hfuel : nodes.length < fuel) (hv : F.Valid p)
    (hown : ∀ x ∈ nodes, ∃ f ∈ F.owned p, x = D.hhdmOffset+f) :
    ∃ p', vdestroyLoop A s.regions fuel (link s ctx a) p = some p' ∧ F.Valid p' ∧
      F.owned p' = F.owned p \ {f | D.hhdmOffset+f ∈ nodes} := by
  induction nodes generalizing a fuel p with
  | nil =>
    obtain ⟨fuel, rfl⟩ := Nat.exists_eq_add_of_lt hfuel
    exact ⟨p, if_pos hpath, hv, by simp⟩
  | cons x xs ih =>
    rw [List.length_cons] at hfuel
    obtain ⟨fuel, rfl⟩ : ∃ k, fuel = k+1 := ⟨fuel-1, by omega⟩
    have hx := hnz x (by simp)
    obtain ⟨hxs, hrest⟩ := List.nodup_cons.mp hnodup
    obtain ⟨f, hfo, hxf⟩ := hown x (by simp)
    have hfree : A.pfree x 1 p = A.pfree f 1 p := by
      rw [hxf]
      exact F.pfree_pointer hv f hfo
    have ho := F.pfree_owned hv f hfo
    have hlater : ∀ y ∈ xs, ∃ g ∈ F.owned (A.pfree f 1 p), y = D.hhdmOffset+g := by
      intro y hy
      obtain ⟨g, hg, he⟩ := hown y (List.mem_cons_of_mem x hy)
      refine ⟨g, ?_, he⟩
      rw [ho]
      refine ⟨hg, fun hgf => hxs ?_⟩
      rw [hxf, ← Set.mem_singleton_iff.mp hgf, ← he]
      exact hy
    obtain ⟨p', heq, hv', ho'⟩ := ih hpath.2 (fun y hy => hnz y (List.mem_cons_of_mem x hy)) hrest
      (show xs.length < fuel by omega) (F.pfree_valid hv f hfo) hlater
    refine ⟨p', ?_, hv', ?_⟩
    · rw [hpath.1, vdestroyLoop, if_neg hx, next_link s ctx hx, hfree]
      exact heq
    · rw [ho', ho]
      ext g
      rw [hxf]
      simp [and_assoc]

end Walk

/-- `vdestroy` gives back the pages of the context and of its nodes, and no
others. -/
theorem vdestroy_frees (hp : Populated F roots shared pm ctx O w nodes) (hpm : pm ≠ 0) :
    ∃ s', vdestroy A ctx w.vmm = some s' ∧
      F.owned s'.phys = F.owned w.vmm.phys \ {f | D.hhdmOffset+f ∈ ctx::nodes} := by
  have hnodup := (List.nodup_cons.mp hp.listed.nodup).2
  obtain ⟨p', heq, hv, ho⟩ := vdestroyLoop_frees hp.listed.path (fun _ hx => hp.listed.nonzero hx)
    hnodup hp.listed.length_lt hp.forest.valid hp.owned
  obtain ⟨c, hco, hc, -⟩ := hp.page ctx (by simp)
  have hcin : c ∈ F.owned p' := by
    rw [ho]
    exact ⟨hco, fun hin => hp.apart (hc ▸ hin)⟩
  have hfree : A.pfree ctx 1 p' = A.pfree c 1 p' := by
    rw [hc]
    exact F.pfree_pointer hv c hcin
  have hroot := hp.listed.root_ne hp.rooted
  refine ⟨{ w.vmm with phys := A.pfree ctx 1 p' }, ?_, ?_⟩
  · rw [link_zero] at heq
    rw [vdestroy, if_neg (by simp [hroot, hp.pagemap, hpm]), heq, Option.map_some]
  · dsimp only
    rw [hfree, F.pfree_owned hv c hcin, ho]
    ext g
    rw [hc]
    simp only [Set.mem_sdiff, Set.mem_ofPred_eq, Set.mem_singleton_iff, List.mem_cons,
      Nat.add_left_cancel_iff]
    tauto

/-- The context's memory comes back exactly when there is a page map and no
call asked for a page. -/
theorem vdestroy_returns_iff (hf : Forest F.toContract roots shared s.phys)
    (hpm : pm ≠ 0 → pm ∈ roots) (start : ℕ) (hc : (vinit A pm start s).1 ≠ 0) (qs : List Demand)
    (w : World σ)
    (hw : run (lift (populate A D.hhdmOffset pm (vinit A pm start s).1))
      (some ⟨(vinit A pm start s).2, []⟩) qs = some w) :
    ∃ s', vdestroy A (vinit A pm start s).1 w.vmm = some s' ∧
      (Returned F roots (vinit A pm start s).1 s w s' ↔ pm ≠ 0 ∧ ∀ q ∈ qs, q.pages = 0) := by
  obtain ⟨root, hfresh⟩ := vinit_populated hf pm start hc
  obtain ⟨nodes, hp, hlength⟩ := run_populated hfresh hpm hc hw
  obtain ⟨c, hco, hcp, hcO⟩ := hp.page _ (List.mem_cons_self)
  by_cases hz : pm = 0
  · refine ⟨w.vmm, if_pos (.inr (hp.pagemap.trans hz)), fun hr => ?_, fun h => absurd hz h.1⟩
    obtain ⟨c', hc', hfree⟩ := hr.context
    obtain rfl : c = c' := by omega
    exact absurd hco hfree
  obtain ⟨s', heq, ho⟩ := vdestroy_frees hp hz
  refine ⟨s', heq, fun hr => ⟨hz, ?_⟩, ?_⟩
  · -- a backing frame is not among the pages given back
    have hnone : w.backing = [] := by
      rw [List.eq_nil_iff_forall_not_mem]
      intro g hg
      refine hr.backing g hg ?_
      rw [ho]
      exact hp.backed g hg
    rw [hnone] at hlength
    have hsum : (qs.map Demand.pages).sum = 0 := by simpa using hlength.symm
    exact List.forall_mem_map.mp (List.sum_eq_zero_iff_forall_eq_nat.mp hsum)
  · rintro ⟨-, hzero⟩
    have hsum : (qs.map Demand.pages).sum = 0 :=
      List.sum_eq_zero_iff_forall_eq_nat.mpr (List.forall_mem_map.mpr hzero)
    have hnone : w.backing = [] := by
      rw [hsum] at hlength
      simpa using hlength
    have hfreed : ∀ x ∈ (vinit A pm start s).1::nodes, ∃ f, x = D.hhdmOffset+f ∧
        f ∉ F.owned s'.phys := by
      intro x hx
      obtain ⟨f, -, he, -⟩ := hp.page x hx
      refine ⟨f, he, ?_⟩
      rw [he] at hx
      rw [ho]
      exact fun hin => hin.2 hx
    refine ⟨hfreed _ List.mem_cons_self, ?_, ?_, ?_⟩
    · rw [hp.listed.regionNodes_eq]
      exact fun x hx => hfreed x (List.mem_cons_of_mem _ hx)
    · rw [hnone]
      exact fun g hg => absurd hg List.not_mem_nil
    · intro f _
      rw [ho]
      constructor
      · rintro ⟨hin, hout⟩
        exact (hp.exact hnone f hin).resolve_right hout
      · intro hin
        refine ⟨hp.before hin, fun hx => ?_⟩
        obtain ⟨g, -, he, hgO⟩ := hp.page _ hx
        obtain rfl : f = g := by omega
        exact hgO hin

def smallCtx : ℕ × State (List ℕ) := vinit smallOps smallLayout.hhdmOffset 0x1000 smallState

theorem vdestroy_returns_iff_small :
    ∃ w s', Transition.run (lift (populate smallOps smallLayout.hhdmOffset smallLayout.hhdmOffset
        smallCtx.1)) (some ⟨smallCtx.2, []⟩) [⟨0, 3⟩, ⟨0, 1⟩] = some w ∧
      vdestroy smallOps smallCtx.1 w.vmm = some s' ∧
      Returned smallFreeContract {smallLayout.hhdmOffset} smallCtx.1 smallState w s' := by
  have hforest : Forest smallFreeContract.toContract {smallLayout.hhdmOffset} ∅ smallPhys :=
    (forest_zeroed smallFreeContract.toContract ∅ smallPhys_valid smallPhys_owned
      (fun _ _ => rfl)).1
  have hpm : smallLayout.hhdmOffset ≠ 0 →
      smallLayout.hhdmOffset ∈ ({smallLayout.hhdmOffset} : Set ℕ) := fun _ => rfl
  have hrun : (Transition.run (lift (populate smallOps smallLayout.hhdmOffset
      smallLayout.hhdmOffset smallCtx.1)) (some ⟨smallCtx.2, []⟩) [⟨0, 3⟩, ⟨0, 1⟩]).isSome := by
    decide +kernel
  obtain ⟨w, hw⟩ := Option.isSome_iff_exists.mp hrun
  obtain ⟨s', heq, hiff⟩ := vdestroy_returns_iff (s := smallState) hforest hpm 0x1000
    (by decide +kernel) _ w hw
  exact ⟨w, s', hw, heq, hiff.mpr (by decide)⟩

/-- The frame of one page stays in use when its context is gone. -/
theorem vdestroy_leaks_frame :
    ∃ w s', Transition.run (lift (populate smallOps smallLayout.hhdmOffset smallLayout.hhdmOffset
        smallCtx.1)) (some ⟨smallCtx.2, []⟩) [⟨1, 3⟩] = some w ∧
      vdestroy smallOps smallCtx.1 w.vmm = some s' ∧
      ¬ Returned smallFreeContract {smallLayout.hhdmOffset} smallCtx.1 smallState w s' := by
  have hrun : ((Transition.run (lift (populate smallOps smallLayout.hhdmOffset
      smallLayout.hhdmOffset smallCtx.1)) (some ⟨smallCtx.2, []⟩) [⟨1, 3⟩]).bind fun w =>
        (vdestroy smallOps smallCtx.1 w.vmm).map fun s' => (w.backing, s'.phys.pmm)) =
      some ([0x4000], [7, 6, 5, 4, 0]) := by decide +kernel
  obtain ⟨w, hw, hrest⟩ := Option.bind_eq_some_iff.mp hrun
  obtain ⟨s', heq, hout⟩ := Option.map_eq_some_iff.mp hrest
  obtain ⟨hbacking, hpmm⟩ := Prod.mk.inj hout
  refine ⟨w, s', hw, heq, fun hr => hr.backing 0x4000 (by rw [hbacking]; decide) ⟨by decide, ?_⟩⟩
  rw [hpmm]
  decide

end Emk.VmmDestroy
