import Emk.VmmContext
import Emk.VmmRuns
import Emk.VmmTenants

/-!
# Freeing what was allocated last

In the kernel's context `vfree` undoes the `valloc` before it as long as no
region in front of the new one starts at the same address: the list, the page
map and the frames in use are then back to what they were. An empty region,
such as the root that `vinit` makes, takes the place of the one that was
meant.
-/

set_option autoImplicit false

namespace Emk.VmmInverse
open Emk.ByteMemory Emk.MachineWord Emk.DirectMap Emk.PageAllocator Emk.Paging Emk.Vmm
open Emk.PagingForest Emk.LinkedPath Emk.Transition Emk.ReferenceAllocator Emk.VmmTenants
open Emk.Sched (translation translation_leaf vflagsToPflags_entry)
open Emk.VmmRuns (openRegion openEnd namedRegion PrevAccurate takeWhile_prefix smallState)

inductive Op where
  | valloc (pages flags : ℕ)
  | vfree (ptr : ℕ)

variable {σ : Type}

def step (A : Ops σ) (hhdmOffset kernelPagemap ctx : ℕ) (s : State σ) : Op → Option (State σ)
  | .valloc pages flags => (valloc A hhdmOffset ctx pages flags s).map Prod.snd
  | .vfree ptr => vfree A hhdmOffset kernelPagemap ctx ptr s

/-- A new region ends inside the lower half, and a region that is freed knows
the node in front of it. -/
def Orderly (ctx : ℕ) (s : State σ) : Op → Prop
  | .valloc pages _ => openEnd ctx s+4096*pages ≤ 2^47
  | .vfree ptr => namedRegion ctx s ptr = 0 ∨ PrevAccurate ctx s ptr

instance decidableOrderly (ctx : ℕ) (s : State σ) : ∀ o, Decidable (Orderly ctx s o)
  | .valloc pages _ => inferInstanceAs (Decidable (openEnd ctx s+4096*pages ≤ 2^47))
  | .vfree ptr => inferInstanceAs (Decidable (namedRegion ctx s ptr = 0 ∨ _ = _))

/-- No region up to the open one starts where a new region would start. -/
def Unshadowed (ctx : ℕ) (s : State σ) : Prop :=
  (s.regions (openRegion ctx s)).start ≠ openEnd ctx s ∧
    ∀ x ∈ (regionNodes s ctx).takeWhile (fun x => x ≠ openRegion ctx s),
      (s.regions x).start ≠ openEnd ctx s

instance decidableUnshadowed (ctx : ℕ) (s : State σ) : Decidable (Unshadowed ctx s) :=
  inferInstanceAs (Decidable (_ ∧ ∀ x ∈ (regionNodes s ctx).takeWhile _, _))

/-- The node page of a new region. -/
def newNode (A : Ops σ) (s : State σ) : ℕ := (A.palloc 1 true s.phys).1

/-- The frames that back a new region. -/
def newFrames (A : Ops σ) (hhdmOffset K ctx n flags : ℕ) (s : State σ) : List ℕ :=
  fillFrames A hhdmOffset (backing A) K (openEnd ctx s) (vflagsToPflags flags) n 0
    (A.palloc 1 true s.phys).2

/-- The page tables of a new region find memory. -/
def Mappable (A : Ops σ) (hhdmOffset K ctx n flags : ℕ) (s : State σ) : Prop :=
  FillMaps A hhdmOffset (backing A) K (openEnd ctx s) (vflagsToPflags flags) n 0
    (A.palloc 1 true s.phys).2

instance decidableMappable (A : Ops σ) (hhdmOffset K ctx n flags : ℕ) (s : State σ) :
    Decidable (Mappable A hhdmOffset K ctx n flags s) :=
  decidableFillMaps A hhdmOffset (backing A) K _ _ n 0 _

/-- The next `vfree` will undo a `valloc` of this size. -/
structure Reversible (A : Ops σ) (hhdmOffset K ctx n flags : ℕ) (s : State σ) : Prop where
  low : openEnd ctx s+4096*n ≤ 2^47
  unshadowed : Unshadowed ctx s
  mappable : Mappable A hhdmOffset K ctx n flags s

/-- From `s` a region was placed in `s₁` and removed again in `s₂`. -/
structure Undone {D : Layout} {A : Ops σ} (F : FreeContract D A) (K ctx n flags a : ℕ)
    (s s₁ s₂ : State σ) : Prop where
  inserted : ∃ pre post, regionNodes s ctx = pre ++ post ∧
    regionNodes s₁ ctx = pre ++ newNode A s::post
  removed : regionNodes s₂ ctx = regionNodes s ctx
  others : ∀ x ∈ regionNodes s ctx, (s₂.regions x).start = (s.regions x).start ∧
    (s₂.regions x).pages = (s.regions x).pages ∧ (s₂.regions x).flags = (s.regions x).flags
  unmapped : ∀ i < n, virtToPhys D.hhdmOffset s₂.phys.mem K (a+4096*i) = 0
  taken : (newFrames A D.hhdmOffset K ctx n flags s).length = n ∧
    ∀ f ∈ newFrames A D.hhdmOffset K ctx n flags s, f ∈ F.owned s₁.phys
  returned : ∃ p ∈ F.owned s₁.phys, newNode A s = D.hhdmOffset+p ∧ F.owned s₂.phys =
    F.owned s₁.phys \ insert p {f | f ∈ newFrames A D.hhdmOffset K ctx n flags s}

structure Inv {D : Layout} {A : Ops σ} (F : FreeContract D A) (roots : Set ℕ)
    (shared : Set (Fin 512)) (K ctx : ℕ) (s : State σ) (nodes : List ℕ) : Prop
    extends CtxOwned F.toContract roots shared ctx K s nodes where
  housed : Housed F.toContract roots K nodes s.phys
  aligned : ∀ x ∈ nodes, (s.regions x).start % 4096 = 0
  low : ∀ x ∈ nodes, (s.regions x).pages = 0 ∨
    (s.regions x).start+4096*(s.regions x).pages ≤ 2^47

variable {D : Layout} {A : Ops σ} {F : FreeContract D A} {roots : Set ℕ} {shared : Set (Fin 512)}
  {K ctx : ℕ} {s : State σ} {nodes pre post : List ℕ} {x : ℕ}

theorem Inv.phys (hi : Inv F roots shared K ctx s nodes) (hK : K ∈ roots) {p : Phys σ}
    (hq : Quiet F.toContract roots shared s.phys p) :
    Inv F roots shared K ctx { s with phys := p } nodes where
  toCtxOwned := hi.toCtxOwned.phys hq.forest hq.owned
  housed := hi.housed.quiet hi.forest hK hq
  aligned := hi.aligned
  low := hi.low

theorem openEnd_eq (h : findRegion s.regions holeBehind rounds (s.ctxs ctx).root = some x) :
    openRegion ctx s = x ∧ openEnd ctx s = regionEnd (s.regions x) := by
  have ho : openRegion ctx s = x := by rw [openRegion, h, Option.getD_some]
  exact ⟨ho, by rw [openEnd, ho]⟩

theorem regionEnd_aligned {r : Vregion} (h : r.start % 4096 = 0) : regionEnd r % 4096 = 0 := by
  rw [regionEnd, wrap]
  omega

/-- A region placed behind a node, its pages filled as far as frames last. -/
theorem Inv.place (hi : Inv F roots shared K ctx s (pre ++ x::post)) (hK : K ∈ roots)
    (h0 : newNode A s ≠ 0) (n flags : ℕ)
    (hlow : regionEnd (s.regions x)+4096*n ≤ 2^47) :
    Inv F roots shared K ctx
      { insertAfter x (s.regions x).next n flags (newNode A s) s with
        phys := (fillRegion A D.hhdmOffset (backing A) K (regionEnd (s.regions x))
          (vflagsToPflags flags) n 0 (A.palloc 1 true s.phys).2).2 }
      (pre ++ x::newNode A s::post) := by
  have hflags := vflagsToPflags_entry flags
  have hq := palloc_quiet hi.forest true
  have hfill := fillRegion_range (A := A) hq.forest hK hflags.lt (regionEnd (s.regions x)) n 0
  have hne : newNode A s ≠ x := fun he => hi.fresh (by rw [← newNode, he]; simp)
  have hreg := insertAfter_region n flags s hne (s.regions x).next
  have hold : ∀ y ∈ pre ++ x::newNode A s::post, y ≠ newNode A s → y ∈ pre ++ x::post := by
    intro y hy hyn
    simp only [List.mem_append, List.mem_cons] at *
    tauto
  have hmem : ∀ y ∈ pre ++ x::newNode A s::post, y = newNode A s ∨ y ∈ pre ++ x::post :=
    fun y hy => or_iff_not_imp_left.mpr (hold y hy)
  have hgrant := hi.housed.grant hi.forest hK h0 hmem
  refine ⟨hi.toCtxOwned.place h0 n flags hfill.forest hfill.owned,
    hgrant.fillRegion hq.forest hK hflags _ n 0, ?_, ?_⟩
  · intro y hy
    dsimp only
    rw [hreg]
    split_ifs with hyx hyn
    · exact hi.aligned x (by simp)
    · exact regionEnd_aligned (hi.aligned x (by simp))
    · exact hi.aligned y (hold y hy hyn)
  · intro y hy
    dsimp only
    rw [hreg]
    split_ifs with hyx hyn
    · exact hi.low x (by simp)
    · exact .inr hlow
    · exact hi.low y (hold y hy hyn)

theorem Inv.pagemap_ne (hi : Inv F roots shared K ctx s nodes) (hK : K ∈ roots) :
    (s.ctxs ctx).pagemap ≠ 0 := by
  rw [hi.pagemap]
  exact hi.forest.root_ne_zero hK

/-- Whatever `valloc` returns, it leaves a context in order. -/
theorem Inv.valloc (hi : Inv F roots shared K ctx s nodes) (hK : K ∈ roots) (hctx : ctx ≠ 0)
    (n flags : ℕ) (hlow : openEnd ctx s+4096*n ≤ 2^47) :
    ∃ r nodes', Vmm.valloc A D.hhdmOffset ctx n flags s = some r ∧
      Inv F roots shared K ctx r.2 nodes' := by
  by_cases hnil : nodes = []
  · rw [Vmm.valloc, placeRegion, if_pos (.inr (.inl (hi.listed.root_nil hnil)))]
    exact ⟨_, nodes, rfl, hi⟩
  obtain ⟨pre, x, post, rfl, hfind⟩ := hi.listed.findRegion holeBehind hnil
  have hne : (A.palloc 1 true s.phys).1 ≠ x := fun he => hi.fresh (by rw [he]; simp)
  rw [Vmm.valloc, placeRegion_eq A D.hhdmOffset hi.listed _ _ (by simp) hfind hctx
    (hi.pagemap_ne hK) hne]
  dsimp only
  by_cases h0 : (A.palloc 1 true s.phys).1 = 0
  · rw [if_pos h0]
    exact ⟨_, _, rfl, hi.phys hK (palloc_quiet hi.forest true)⟩
  · rw [if_neg h0, hi.pagemap]
    exact ⟨_, _, rfl, hi.place hK h0 n flags ((openEnd_eq hfind).2 ▸ hlow)⟩

theorem unlinkRegion_pagemap (s : State σ) (ctx x prev next : ℕ) :
    ((unlinkRegion ctx x prev next s).ctxs ctx).pagemap = (s.ctxs ctx).pagemap := by
  simp only [unlinkRegion, setRegion, setRoot]
  split_ifs <;> simp

/-- A region with an accurate `prev` link is released: its frames and its node
page are given back, and its pages are unmapped. -/
theorem Inv.release (hi : Inv F roots shared K ctx s (pre ++ x::post)) (hK : K ∈ roots) :
    let r := s.regions x
    let p := A.pfree x 1 (releasePages A D.hhdmOffset K K r.start r.pages 0 s.phys)
    Inv F roots shared K ctx { unlinkRegion ctx x (tip 0 pre) r.next s with phys := p }
        (pre ++ post) ∧
      ∃ f ∈ F.owned s.phys, x = D.hhdmOffset+f ∧
        Released F roots shared K (framesAt D s.phys.mem K r.start 0 r.pages ∪ {f})
          (pagesOf r.start 0 r.pages) s.phys p := by
  intro r p
  have hx : x ∈ pre ++ x::post := by simp
  obtain ⟨f, hfo, hxf⟩ := hi.owned x hx
  obtain ⟨hr, hh⟩ := releasePages_released r.start r.pages 0 hi.housed hi.forest hK
    (hi.aligned x hx) (by rw [Nat.zero_add]; exact hi.low x hx)
  have hold : Holds D K (pre ++ x::post)
      (releasePages A D.hhdmOffset K K r.start r.pages 0 s.phys).mem (.node x) f := ⟨hx, hxf⟩
  have hfree := pfree_released hr.forest hK (hh.rented _ _ hold) (hh.apart _ _ hold)
  have hp : p = A.pfree f 1 (releasePages A D.hhdmOffset K K r.start r.pages 0 s.phys) := by
    rw [← F.pfree_pointer hr.forest.valid f (hh.rented _ _ hold), ← hxf]
  rw [← hp] at hfree
  obtain ⟨hl, hsame⟩ := hi.listed.unlinkRegion
  have hnodup := (List.nodup_cons.mp hi.listed.nodup).2
  have hsub : ∀ y ∈ pre ++ post, y ∈ pre ++ x::post ∧ y ≠ x := by
    intro y hy
    refine ⟨?_, ?_⟩
    · simp only [List.mem_append, List.mem_cons] at *
      tauto
    · rintro rfl
      exact (List.nodup_cons.mp (List.perm_middle.nodup_iff.mp hnodup)).1 hy
  have hhoused : Housed F.toContract roots K (pre ++ post) p := by
    refine hh.vacate hfree hold rfl ?_
    intro t g ht
    cases t with
    | node y =>
      obtain ⟨hy, he⟩ := ht
      obtain ⟨hin, hne⟩ := hsub y hy
      exact ⟨⟨hin, he⟩, fun h => hne (Tenant.node.inj h)⟩
    | page q =>
      obtain ⟨hlow, hne, he⟩ := ht
      exact ⟨⟨hlow, hne, (hfree.kept _ (Set.notMem_empty _)).symm.trans he⟩, by simp⟩
  refine ⟨⟨⟨hfree.forest, hl.phys p, ?_, ?_⟩, hhoused, ?_, ?_⟩, f, hfo, hxf, ?_⟩
  · intro y hy
    obtain ⟨g, -, he⟩ := hi.owned y (hsub y hy).1
    exact ⟨g, hhoused.rented (.node y) g ⟨hy, he⟩, he⟩
  · dsimp only
    rw [unlinkRegion_pagemap, hi.pagemap]
  · intro y hy
    dsimp only
    rw [(hsame y hy).1]
    exact hi.aligned y (hsub y hy).1
  · intro y hy
    dsimp only
    rw [(hsame y hy).1, (hsame y hy).2]
    exact hi.low y (hsub y hy).1
  · have hboth := hr.trans hfree
    rwa [Set.union_empty] at hboth

theorem Inv.vfree (hi : Inv F roots shared K ctx s nodes) (hK : K ∈ roots) (hctx : ctx ≠ 0)
    {ptr : ℕ} (ho : Orderly ctx s (.vfree ptr)) :
    ∃ s' nodes', Vmm.vfree A D.hhdmOffset K ctx ptr s = some s' ∧
      Inv F roots shared K ctx s' nodes' := by
  rcases vfree_eq A D.hhdmOffset K hi.listed hctx ptr with
    ⟨heq, -⟩ | ⟨pre, x, post, rfl, -, -, hfind, heq⟩
  · exact ⟨s, nodes, heq, hi⟩
  · have hx0 : x ≠ 0 := hi.listed.nonzero (by simp)
    have hname : namedRegion ctx s ptr = x := by rw [namedRegion, hfind, Option.getD_some]
    have hprev : (s.regions x).prev = tip 0 pre := by
      have hacc := ho.resolve_left (fun h0 => hx0 (hname ▸ h0))
      have hpre := hi.listed.nodup
      rw [PrevAccurate, hname, hi.listed.regionNodes_eq, takeWhile_prefix] at hacc
      · exact hacc
      · simp only [List.nodup_cons, List.nodup_append, List.mem_cons] at hpre
        exact fun hin => hpre.2.2.2 x hin x (.inl rfl) rfl
    rw [heq, hprev, hi.pagemap]
    exact ⟨_, _, rfl, (hi.release hK).1⟩

theorem step_inv (hK : K ∈ roots) (hctx : ctx ≠ 0) (hi : Inv F roots shared K ctx s nodes) {o : Op}
    (ho : Orderly ctx s o) :
    ∃ s' nodes', step A D.hhdmOffset K ctx s o = some s' ∧ Inv F roots shared K ctx s' nodes' := by
  cases o with
  | valloc pages flags =>
    obtain ⟨r, nodes', heq, hi'⟩ := hi.valloc hK hctx pages flags ho
    exact ⟨r.2, nodes', by rw [step, heq, Option.map_some], hi'⟩
  | vfree ptr => exact hi.vfree hK hctx ho

/-- A new context over a page map that maps nothing in the lower half. -/
theorem vinit_inv (hf : Forest F.toContract roots shared s.phys) (hK : K ∈ roots) {start : ℕ}
    (hlow : ∀ v < 2^47, virtToPhys D.hhdmOffset s.phys.mem K v = 0) (hstart : start % 4096 = 0)
    (hc : (vinit A K start s).1 ≠ 0) :
    ∃ nodes, Inv F roots shared K (vinit A K start s).1 (vinit A K start s).2 nodes := by
  obtain ⟨root, hown, hroot, hq⟩ := vinit_ctxOwned hf K start hc
  obtain ⟨-, h2, heq⟩ := vinit_eq A K start s hc
  have hq1 := palloc_quiet hf true
  have hempty : Housed F.toContract roots K [] (A.palloc 1 true s.phys).2 := by
    have hnone : ∀ t f, ¬ Holds D K [] (A.palloc 1 true s.phys).2.mem t f := by
      intro t f ht
      cases t with
      | node x => exact absurd ht.1 List.not_mem_nil
      | page q =>
        obtain ⟨hq, hne, he⟩ := ht
        rw [translation_leaf hf hq1.forest hK (hq1.leaf K hK _)] at he
        exact hne (he.symm.trans (hlow _ (by omega)))
    exact ⟨fun t f ht => absurd ht (hnone t f), fun t f ht => absurd ht (hnone t f),
      fun t u f ht => absurd ht (hnone t f)⟩
  have hpage : root = (A.palloc 1 true (A.palloc 1 true s.phys).2).1 := by
    have hpath := hown.listed.path.1
    rw [link_zero, heq] at hpath
    simpa using hpath.symm
  have hphys : (vinit A K start s).2.phys = (A.palloc 1 true (A.palloc 1 true s.phys).2).2 := by
    rw [heq]
  refine ⟨[root], hown, ?_, ?_, ?_⟩
  · rw [hphys]
    exact hempty.grant hq1.forest hK h2 (fun y hy => .inl ((List.mem_singleton.mp hy).trans hpage))
  · intro y hy
    rw [List.mem_singleton.mp hy, hroot]
    exact hstart
  · intro y hy
    rw [List.mem_singleton.mp hy, hroot]
    exact .inl rfl

theorem first_unique {P : ℕ → Prop} {xs ys us vs : List ℕ} {y v : ℕ}
    (h : xs ++ y::ys = us ++ v::vs) (hxs : ∀ x ∈ xs, ¬ P x) (hy : P y) (hus : ∀ u ∈ us, ¬ P u)
    (hv : P v) : xs = us ∧ y = v ∧ ys = vs := by
  induction xs generalizing us with
  | nil =>
    cases us with
    | nil => simpa using h
    | cons u us => exact absurd ((List.cons.inj h).1 ▸ hy) (hus u (by simp))
  | cons x xs ih =>
    cases us with
    | nil => exact absurd ((List.cons.inj h).1 ▸ hv) (hxs x (by simp))
    | cons u us =>
      obtain ⟨rfl, htail⟩ := List.cons.inj h
      obtain ⟨rfl, hboth⟩ := ih htail (fun z hz => hxs z (by simp [hz]))
        (fun z hz => hus z (by simp [hz]))
      exact ⟨rfl, hboth⟩

section Fill
variable {p : Phys σ} {flags start n : ℕ}

theorem fillFrames_length {i : ℕ}
    (hok : (fillRegion A D.hhdmOffset (backing A) K start flags n i p).1 = true) :
    (fillFrames A D.hhdmOffset (backing A) K start flags n i p).length = n := by
  induction n generalizing i p with
  | zero => rfl
  | succ n ih =>
    rw [fillRegion] at hok
    rw [fillFrames]
    by_cases h0 : (A.palloc 1 false p).1 = 0
    · rw [if_pos h0] at hok
      exact absurd hok Bool.false_ne_true
    · rw [if_neg h0] at hok
      rw [if_neg h0, List.length_cons, ih hok]

variable (hf : Forest F.toContract roots shared p) (hK : K ∈ roots)
  (hok : (fillRegion A D.hhdmOffset (backing A) K start (vflagsToPflags flags) n 0 p).1 = true)
  (hmap : FillMaps A D.hhdmOffset (backing A) K start (vflagsToPflags flags) n 0 p)
  (hn : n ≤ 2^36)
include hf hK hok hmap hn

/-- A region without a failed mapping is mapped to the frames taken for it. -/
theorem fill_translation {j : ℕ} (hj : j < n) :
    ∃ g, (fillFrames A D.hhdmOffset (backing A) K start (vflagsToPflags flags) n 0 p)[j]? = some g ∧
      g ≠ 0 ∧ translation D
        (fillRegion A D.hhdmOffset (backing A) K start (vflagsToPflags flags) n 0 p).2.mem K
        (wrap (start+4096*j)) = g := by
  have hflags := vflagsToPflags_entry flags
  have hforest := (fillRegion_range (A := A) hf hK hflags.lt start n 0).forest
  have htop := D.top_le_address
  obtain ⟨g, hget, hb, he⟩ := fillRegion_cases (A := A) hf hK hflags.lt start n 0 (by omega) hok hj
  have hbelow := hb.below
  rw [Nat.zero_add] at he
  refine ⟨g, hget, hb.nonzero, ?_⟩
  exact hflags.translation hforest hK hb.aligned (by omega)
    (he.resolve_left (fun hno => hno.2 hmap))

theorem framesAt_fill :
    framesAt D (fillRegion A D.hhdmOffset (backing A) K start (vflagsToPflags flags) n 0 p).2.mem K
        start 0 n =
      {f | f ∈ fillFrames A D.hhdmOffset (backing A) K start (vflagsToPflags flags) n 0 p} := by
  have hlen := fillFrames_length hok
  ext f
  constructor
  · rintro ⟨-, j, -, hj, rfl⟩
    obtain ⟨g, hget, -, he⟩ := fill_translation hf hK hok hmap hn (j := j) (by omega)
    rw [he]
    exact List.mem_of_getElem? hget
  · intro hin
    obtain ⟨j, hj⟩ := List.mem_iff_getElem?.mp hin
    have hjn : j < n := by
      rw [← hlen]
      exact (List.getElem?_eq_some_iff.mp hj).1
    obtain ⟨g, hget, h0, he⟩ := fill_translation hf hK hok hmap hn hjn
    obtain rfl : g = f := Option.some.inj (hget.symm.trans hj)
    exact ⟨h0, j, Nat.zero_le j, by omega, he.symm⟩

end Fill

/-- The node found for the address of a new region is the new one. -/
theorem Inv.found (hi : Inv F roots shared K ctx s (pre ++ x::post))
    (hfind : findRegion s.regions holeBehind rounds (s.ctxs ctx).root = some x)
    (hun : Unshadowed ctx s) {y : ℕ} (hy : y ∈ pre ++ [x]) :
    (s.regions y).start ≠ regionEnd (s.regions x) := by
  obtain ⟨hopen, hend⟩ := openEnd_eq hfind
  have hnodup := hi.listed.nodup
  obtain ⟨hself, hpre⟩ := hun
  rw [hi.listed.regionNodes_eq, hopen, takeWhile_prefix, hend] at hpre
  · rw [hopen, hend] at hself
    rcases List.mem_append.mp hy with hy | hy
    · exact hpre y hy
    · rw [List.mem_singleton.mp hy]
      exact hself
  · simp only [List.nodup_cons, List.nodup_append, List.mem_cons] at hnodup
    exact fun hin => hnodup.2.2.2 x hin x (.inl rfl) rfl

theorem Inv.vfree_first (hi : Inv F roots shared K ctx s (pre ++ x::post)) (hctx : ctx ≠ 0)
    (hfirst : ∀ y ∈ pre, (s.regions y).start ≠ (s.regions x).start)
    (hprev : (s.regions x).prev = tip 0 pre) :
    Vmm.vfree A D.hhdmOffset K ctx (s.regions x).start s = some
      { unlinkRegion ctx x (tip 0 pre) (s.regions x).next s with
        phys := A.pfree x 1 (releasePages A D.hhdmOffset K K (s.regions x).start
          (s.regions x).pages 0 s.phys) } := by
  rcases vfree_eq A D.hhdmOffset K hi.listed hctx (s.regions x).start with
    ⟨-, hno⟩ | ⟨pre', y, post', hsplit, hy, hbefore, -, heq⟩
  · exact absurd rfl (hno x (by simp))
  · obtain ⟨rfl, rfl, rfl⟩ := first_unique (P := fun z => (s.regions z).start = (s.regions x).start)
      hsplit hfirst rfl hbefore hy
    rw [heq, hprev, hi.pagemap]

/-- What `vfree` does with a region fresh from `valloc`. -/
theorem Inv.undone (hi : Inv F roots shared K ctx s nodes) (hK : K ∈ roots) (hctx : ctx ≠ 0)
    {n flags a : ℕ} {s₁ : State σ} (hrev : Reversible A D.hhdmOffset K ctx n flags s)
    (hva : Vmm.valloc A D.hhdmOffset ctx n flags s = some (a, s₁)) (ha : a ≠ 0) :
    ∃ s₂, Vmm.vfree A D.hhdmOffset K ctx a s₁ = some s₂ ∧ Undone F K ctx n flags a s s₁ s₂ := by
  obtain ⟨hlow, hun, hmap⟩ := hrev
  obtain ⟨pre, x, post, rfl, hfind, hstart, h0, hok, hs₁⟩ := hi.valloc_placed hctx hva ha
  obtain ⟨-, hend⟩ := openEnd_eq hfind
  rw [hend, ← hstart] at hlow
  have hfresh : newNode A s ∉ pre ++ x::post := hi.fresh
  have hne : newNode A s ≠ x := fun he => hfresh (by simp [he])
  have hi₁ : Inv F roots shared K ctx s₁ (pre ++ x::newNode A s::post) := by
    rw [hs₁, hstart]
    exact hi.place hK h0 n flags (hstart ▸ hlow)
  have hnew : s₁.regions (newNode A s) =
      ⟨a, n, vflagsToPflags flags, (s.regions x).next, x⟩ := by
    rw [hs₁, hstart]
    exact insertAfter_new n flags s hne (s.regions x).next
  have hsame : ∀ y ∈ pre ++ x::post, (s₁.regions y).start = (s.regions y).start ∧
      (s₁.regions y).pages = (s.regions y).pages ∧ (s₁.regions y).flags = (s.regions y).flags := by
    intro y hy
    rw [hs₁]
    exact insertAfter_old n flags s hne (s.regions x).next (fun h => hfresh (h ▸ hy))
  have hassoc : pre ++ x::newNode A s::post = (pre ++ [x]) ++ newNode A s::post := by simp
  rw [hassoc] at hi₁
  have htip : tip 0 (pre ++ [x]) = x := tip_append 0 x pre []
  have hal : a % 4096 = 0 := hstart ▸ regionEnd_aligned (hi.aligned x (by simp))
  have hframes : newFrames A D.hhdmOffset K ctx n flags s =
      fillFrames A D.hhdmOffset (backing A) K a (vflagsToPflags flags) n 0
        (A.palloc 1 true s.phys).2 := by
    rw [newFrames, hend, hstart]
  have hat : framesAt D s₁.phys.mem K a 0 n =
      {f | f ∈ fillFrames A D.hhdmOffset (backing A) K a (vflagsToPflags flags) n 0
        (A.palloc 1 true s.phys).2} := by
    rw [Mappable, hend, ← hstart] at hmap
    rw [hs₁]
    exact framesAt_fill (palloc_quiet hi.forest true).forest hK hok hmap (by omega)
  have hfree := hi₁.vfree_first hctx (fun y hy => ?_) (by rw [hnew, htip])
  · rw [hnew] at hfree
    obtain ⟨hi₂, p, hpo, hxp, hrel⟩ := hi₁.release hK
    rw [hnew] at hi₂ hrel
    refine ⟨_, hfree, ⟨pre ++ [x], post, ?_, ?_⟩, ?_, ?_, ?_, ?_, p, hpo, hxp, ?_⟩
    · rw [hi.listed.regionNodes_eq, List.append_assoc, List.singleton_append]
    · exact hi₁.listed.regionNodes_eq
    · rw [hi₂.listed.regionNodes_eq, hi.listed.regionNodes_eq]
      simp
    · intro y hy
      rw [hi.listed.regionNodes_eq] at hy
      have hcut := unlinkRegion_region s₁ ctx (newNode A s) _ _ y hi₁.listed.tip_ne_next
      rw [hnew] at hcut
      dsimp only at hcut ⊢
      rw [hcut]
      split_ifs
      · exact hsame y hy
      · exact hsame y hy
      · exact hsame y hy
    · exact fun i hi' => hrel.cleared _ ⟨i, Nat.zero_le i, by simpa using hi',
        (pageNumber_wrap _).symm⟩
    · rw [hframes]
      refine ⟨fillFrames_length hok, fun f hin => ?_⟩
      have hsub := hi₁.housed.framesAt_owned hal hlow
      rw [hat] at hsub
      exact hsub hin
    · have howned := hrel.owned
      dsimp only at howned
      rw [hat, Set.union_singleton, ← hframes] at howned
      exact howned
  · have hy' : y ∈ pre ++ x::post := by
      simp only [List.mem_append, List.mem_cons, List.not_mem_nil, or_false] at *
      tauto
    rw [hnew, (hsame y hy').1]
    dsimp only
    rw [hstart]
    exact hi.found hfind hun hy

/-- From `vinit` on, in every state that orderly calls lead to, `vfree` undoes
a reversible `valloc`. -/
theorem vfree_undoes_valloc (F : FreeContract D A) (s : State σ) (start : ℕ)
    (hf : Forest F.toContract roots shared s.phys) (hK : K ∈ roots)
    (hlow : ∀ v < 2^47, virtToPhys D.hhdmOffset s.phys.mem K v = 0) (hstart : start % 4096 = 0)
    (hc : (vinit A K start s).1 ≠ 0) (ops : List Op)
    (hops : Along (lift (step A D.hhdmOffset K (vinit A K start s).1))
      (Issued (Orderly (vinit A K start s).1)) (some (vinit A K start s).2) ops) :
    ∃ s₀, run (lift (step A D.hhdmOffset K (vinit A K start s).1))
      (some (vinit A K start s).2) ops =
        some s₀ ∧
      ∀ n flags a s₁, valloc A D.hhdmOffset (vinit A K start s).1 n flags s₀ =
        some (a, s₁) → a ≠ 0 →
        Reversible A D.hhdmOffset K (vinit A K start s).1 n flags s₀ →
        ∃ s₂, vfree A D.hhdmOffset K (vinit A K start s).1 a s₁ = some s₂ ∧
          Undone F K (vinit A K start s).1 n flags a s₀ s₁ s₂ := by
  have hstep : ∀ t o, (∃ nodes, Inv F roots shared K (vinit A K start s).1 t nodes) →
      Orderly (vinit A K start s).1 t o →
      ∃ t', step A D.hhdmOffset K (vinit A K start s).1 t o = some t' ∧
        ∃ nodes, Inv F roots shared K (vinit A K start s).1 t' nodes := by
    rintro t o ⟨nodes, hi⟩ ho
    obtain ⟨t', nodes', heq, hi'⟩ := step_inv hK hc hi ho
    exact ⟨t', heq, nodes', hi'⟩
  obtain ⟨s₀, hrun, nodes, hi⟩ := run_lift_invariant hstep (vinit_inv hf hK hlow hstart hc) hops
  exact ⟨s₀, hrun, fun n flags a s₁ hva ha hrev => hi.undone hK hc hrev hva ha⟩

def smallCtx : ℕ × State (List ℕ) := vinit smallOps smallLayout.hhdmOffset 0x1000 smallState

def smallStep (s : State (List ℕ)) (o : Op) : Option (State (List ℕ)) :=
  step smallOps smallLayout.hhdmOffset smallLayout.hhdmOffset smallCtx.1 s o

theorem vfree_undoes_valloc_small :
    ∃ s₀ s₁ s₂, run (lift smallStep) (some smallCtx.2) [.valloc 1 3] = some s₀ ∧
      valloc smallOps smallLayout.hhdmOffset smallCtx.1 2 3 s₀ = some (0x2000, s₁) ∧
      vfree smallOps smallLayout.hhdmOffset smallLayout.hhdmOffset smallCtx.1 0x2000 s₁ = some s₂ ∧
      Undone smallFreeContract smallLayout.hhdmOffset smallCtx.1 2 3 0x2000 s₀ s₁ s₂ := by
  have hzero := forest_zeroed smallContract.toContract ∅ smallPhys_valid smallPhys_owned
    (fun _ _ => rfl)
  have hnone : ∀ v, virtToPhys smallLayout.hhdmOffset smallPhys.mem (smallLayout.hhdmOffset+0)
    v = 0 := by
    intro v
    rw [virtToPhys_leaf hzero.1 rfl, hzero.2, Nat.zero_and, if_pos rfl]
  obtain ⟨s₀, hrun, hall⟩ := vfree_undoes_valloc smallFreeContract smallState 0x1000 hzero.1 rfl
    (fun v _ => hnone v)
    (by decide) (by decide +kernel) [.valloc 1 3] (by decide +kernel)
  have hcheck : (run (lift smallStep) (some smallCtx.2) [.valloc 1 3]).any (fun s =>
      decide (openEnd smallCtx.1 s+4096*2 ≤ 2^47) && decide (Unshadowed smallCtx.1 s) &&
        decide (Mappable smallOps smallLayout.hhdmOffset smallLayout.hhdmOffset smallCtx.1 2 3 s) &&
        (valloc smallOps smallLayout.hhdmOffset smallCtx.1 2 3 s).any (fun r => r.1 == 0x2000)) =
      true := by decide +kernel
  obtain ⟨s, hs, hok⟩ := (Option.any_eq_true _ _).mp hcheck
  obtain rfl : s = s₀ := Option.some.inj (hs.symm.trans hrun)
  simp only [Bool.and_eq_true, decide_eq_true_iff] at hok
  obtain ⟨⟨⟨hlow, hun⟩, hmap⟩, hva⟩ := hok
  obtain ⟨⟨a, s₁⟩, hva, he⟩ := (Option.any_eq_true _ _).mp hva
  obtain rfl : a = 0x2000 := eq_of_beq he
  obtain ⟨s₂, hfree, hundone⟩ := hall 2 3 0x2000 s₁ hva (by decide) ⟨hlow, hun, hmap⟩
  exact ⟨s, s₁, s₂, hrun, hva, hfree, hundone⟩

/-- Right after `vinit` the region handed out starts where the empty root
starts. `vfree` takes the root out of the list; the page stays mapped and its
frame and node stay in use. -/
theorem vfree_takes_root :
    ∃ s₁ s₂, valloc smallOps smallLayout.hhdmOffset smallCtx.1 1 3 smallCtx.2 = some (0x1000, s₁) ∧
      vfree smallOps smallLayout.hhdmOffset smallLayout.hhdmOffset smallCtx.1 0x1000 s₁ = some s₂ ∧
      virtToPhys smallLayout.hhdmOffset s₂.phys.mem smallLayout.hhdmOffset 0x1000 ≠ 0 ∧
      ¬ Undone smallFreeContract smallLayout.hhdmOffset smallCtx.1 1 3 0x1000 smallCtx.2 s₁ s₂ := by
  have hcheck : (valloc smallOps smallLayout.hhdmOffset smallCtx.1 1 3 smallCtx.2).any (fun r =>
      r.1 == 0x1000 && (vfree smallOps smallLayout.hhdmOffset smallLayout.hhdmOffset
        smallCtx.1 0x1000
        r.2).any (fun s => decide (virtToPhys smallLayout.hhdmOffset s.phys.mem
          smallLayout.hhdmOffset 0x1000 ≠ 0))) = true := by decide +kernel
  obtain ⟨⟨a, s₁⟩, hva, hok⟩ := (Option.any_eq_true _ _).mp hcheck
  obtain ⟨he, hok⟩ := Bool.and_eq_true_iff.mp hok
  obtain rfl : a = 0x1000 := eq_of_beq he
  obtain ⟨s₂, hfree, hmapped⟩ := (Option.any_eq_true _ _).mp hok
  refine ⟨s₁, s₂, hva, hfree, of_decide_eq_true hmapped, fun h => ?_⟩
  exact of_decide_eq_true hmapped (h.unmapped 0 (by decide))

end Emk.VmmInverse
