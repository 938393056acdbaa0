import Emk.Vmm
import Emk.LinkedPath

/-!
# The region list of a context

The walks over a region list are decided by the list of its nodes. Inserting
and unlinking change the list as intended as long as the new node is not yet
in use and the `prev` link followed is the right one.
-/

set_option autoImplicit false

namespace Emk.Vmm
open Emk.MachineWord Emk.DirectMap Emk.PageAllocator Emk.LinkedPath

variable {σ : Type} {s : State σ} {ctx : ℕ}

/-- The link out of a node; `0` stands for the context, whose link is `root`. -/
def link (s : State σ) (ctx x : ℕ) : ℕ := if x = 0 then (s.ctxs ctx).root else (s.regions x).next

theorem link_zero : link s ctx 0 = (s.ctxs ctx).root := if_pos rfl

theorem link_node {x : ℕ} (hx : x ≠ 0) : link s ctx x = (s.regions x).next := if_neg hx

theorem next_link (s : State σ) (ctx : ℕ) {x : ℕ} (hx : x ≠ 0) :
    (s.regions x).next = link s ctx x := (link_node hx).symm

structure Listed (s : State σ) (ctx : ℕ) (nodes : List ℕ) : Prop where
  path : Path (link s ctx) 0 nodes 0
  nodup : (0::nodes).Nodup
  pointer : ∀ x ∈ nodes, x < 2^64

def nodesFrom (regions : ℕ → Vregion) : ℕ → ℕ → List ℕ
  | 0, _ => []
  | fuel+1, region =>
    if region = 0 then [] else region::nodesFrom regions fuel (regions region).next

/-- The nodes of a context in list order. -/
def regionNodes (s : State σ) (ctx : ℕ) : List ℕ := nodesFrom s.regions rounds (s.ctxs ctx).root

variable {nodes : List ℕ}

/-- The search stops only behind a region without successor or one that passes the test. -/
theorem findRegion_stop {regions : ℕ → Vregion} {test : Vregion → Vregion → Prop}
    [∀ r n, Decidable (test r n)] {fuel a x : ℕ} (h : findRegion regions test fuel a = some x)
    (hx : x ≠ 0) :
    (regions x).next = 0 ∨ test (regions x) (regions (regions x).next) := by
  induction fuel generalizing a with
  | zero => exact absurd h (by simp [findRegion])
  | succ fuel ih =>
    rw [findRegion] at h
    split_ifs at h with h0 hstop
    · exact absurd (Option.some.inj h).symm hx
    · exact Option.some.inj h ▸ hstop
    · exact ih h

theorem Listed.nonzero (hl : Listed s ctx nodes) {x : ℕ} (hx : x ∈ nodes) : x ≠ 0 :=
  fun h0 => (List.nodup_cons.mp hl.nodup).1 (h0 ▸ hx)

theorem Listed.length_lt (hl : Listed s ctx nodes) : nodes.length < rounds := by
  have hb : ∀ x ∈ 0::nodes, x < 2^64 := by
    intro x hx
    rcases List.mem_cons.mp hx with rfl | hx
    · exact Nat.two_pow_pos 64
    · exact hl.pointer x hx
  have := nodup_length_le hl.nodup hb
  rw [List.length_cons] at this
  rw [rounds]
  omega

section Walks
variable {a : ℕ} (hp : Path (link s ctx) a nodes 0) (hnz : ∀ x ∈ nodes, x ≠ 0)
include hp hnz

theorem nodesFrom_eq (fuel : ℕ) (hfuel : nodes.length < fuel) :
    nodesFrom s.regions fuel (link s ctx a) = nodes := by
  induction nodes generalizing a fuel with
  | nil =>
    obtain ⟨fuel, rfl⟩ := Nat.exists_eq_add_of_lt hfuel
    exact if_pos hp
  | cons x xs ih =>
    rw [List.length_cons] at hfuel
    obtain ⟨fuel, rfl⟩ : ∃ k, fuel = k+1 := ⟨fuel-1, by omega⟩
    have hx := hnz x (by simp)
    rw [hp.1, nodesFrom, if_neg hx, next_link s ctx hx,
      ih hp.2 (fun y hy => hnz y (List.mem_cons_of_mem x hy)) fuel (by omega)]

theorem findRegion_mem (test : Vregion → Vregion → Prop) [∀ r n, Decidable (test r n)]
    (hne : nodes ≠ []) (fuel : ℕ) (hfuel : nodes.length < fuel) :
    ∃ pre x post, nodes = pre ++ x::post ∧
      findRegion s.regions test fuel (link s ctx a) = some x := by
  induction nodes generalizing a fuel with
  | nil => exact absurd rfl hne
  | cons x xs ih =>
    rw [List.length_cons] at hfuel
    obtain ⟨fuel, rfl⟩ : ∃ k, fuel = k+1 := ⟨fuel-1, by omega⟩
    have hx := hnz x (by simp)
    rw [hp.1, findRegion, if_neg hx]
    split_ifs with hstop
    · exact ⟨[], x, xs, rfl, rfl⟩
    · have hxs : xs ≠ [] := by
        rintro rfl
        exact hstop (.inl ((link_node hx).symm.trans hp.2))
      obtain ⟨pre, y, post, rfl, hy⟩ := ih hp.2 (fun y hy => hnz y (List.mem_cons_of_mem x hy)) hxs
        fuel (by omega)
      rw [link_node hx] at hy
      exact ⟨x::pre, y, post, rfl, hy⟩

theorem anyOverlap_eq (vaddr vend fuel : ℕ) (hfuel : nodes.length < fuel) :
    ∃ taken, anyOverlap s.regions vaddr vend fuel (link s ctx a) = some taken ∧
      (taken = false → ∀ x ∈ nodes, ¬ Overlaps vaddr vend (s.regions x)) ∧
      (taken = true → ∃ x ∈ nodes, Overlaps vaddr vend (s.regions x)) := by
  induction nodes generalizing a fuel with
  | nil =>
    obtain ⟨fuel, rfl⟩ := Nat.exists_eq_add_of_lt hfuel
    exact ⟨false, if_pos hp, fun _ x hx => absurd hx (List.not_mem_nil), fun h => nomatch h⟩
  | cons x xs ih =>
    rw [List.length_cons] at hfuel
    obtain ⟨fuel, rfl⟩ : ∃ k, fuel = k+1 := ⟨fuel-1, by omega⟩
    have hx := hnz x (by simp)
    rw [hp.1, anyOverlap, if_neg hx]
    split_ifs with ho
    · exact ⟨true, rfl, fun h => (nomatch h), fun _ => ⟨x, by simp, ho⟩⟩
    · obtain ⟨taken, heq, hall, hany⟩ := ih hp.2 (fun y hy =>
        hnz y (List.mem_cons_of_mem x hy)) fuel
        (by omega)
      rw [link_node hx] at heq
      refine ⟨taken, heq, fun ht y hy => ?_, fun ht => ?_⟩
      · rcases List.mem_cons.mp hy with rfl | hy
        · exact ho
        · exact hall ht y hy
      · obtain ⟨y, hy, hyo⟩ := hany ht
        exact ⟨y, List.mem_cons_of_mem x hy, hyo⟩

theorem findStart_eq (ptr fuel : ℕ) (hfuel : nodes.length < fuel) :
    (findStart s.regions ptr fuel (link s ctx a) = some 0 ∧
      ∀ x ∈ nodes, (s.regions x).start ≠ ptr) ∨
    ∃ pre x post, nodes = pre ++ x::post ∧ (s.regions x).start = ptr ∧
      (∀ y ∈ pre, (s.regions y).start ≠ ptr) ∧
      findStart s.regions ptr fuel (link s ctx a) = some x := by
  induction nodes generalizing a fuel with
  | nil =>
    obtain ⟨fuel, rfl⟩ := Nat.exists_eq_add_of_lt hfuel
    have h0 : link s ctx a = 0 := hp
    rw [h0]
    exact .inl ⟨if_pos (.inl rfl), fun x hx => absurd hx List.not_mem_nil⟩
  | cons x xs ih =>
    rw [List.length_cons] at hfuel
    obtain ⟨fuel, rfl⟩ : ∃ k, fuel = k+1 := ⟨fuel-1, by omega⟩
    have hx := hnz x (by simp)
    rw [hp.1, findStart]
    split_ifs with hstop
    · exact .inr ⟨[], x, xs, rfl, hstop.resolve_left hx, fun y hy =>
        absurd hy List.not_mem_nil, rfl⟩
    · push Not at hstop
      have hhead : ∀ {ys : List ℕ}, (∀ y ∈ ys, (s.regions y).start ≠ ptr) →
          ∀ y ∈ x::ys, (s.regions y).start ≠ ptr :=
        fun h => List.forall_mem_cons.mpr ⟨hstop.2, h⟩
      rw [next_link s ctx hx]
      rcases ih hp.2 (fun y hy => hnz y (List.mem_cons_of_mem x hy)) fuel (by omega) with
        ⟨heq, hno⟩ | ⟨pre, y, post, rfl, hy, hno, heq⟩
      · exact .inl ⟨heq, hhead hno⟩
      · exact .inr ⟨x::pre, y, post, rfl, hy, hhead hno, heq⟩

end Walks

theorem Listed.regionNodes_eq (hl : Listed s ctx nodes) : regionNodes s ctx = nodes := by
  rw [regionNodes, ← link_zero (s := s)]
  exact nodesFrom_eq hl.path (fun _ hx => hl.nonzero hx) rounds hl.length_lt

theorem Listed.phys (hl : Listed s ctx nodes) (p : Phys σ) :
    Listed { s with phys := p } ctx nodes :=
  ⟨hl.path, hl.nodup, hl.pointer⟩

theorem Listed.congr {s' : State σ} (hl : Listed s ctx nodes)
    (hroot : (s'.ctxs ctx).root = (s.ctxs ctx).root)
    (hnext : ∀ x ∈ nodes, (s'.regions x).next = (s.regions x).next) : Listed s' ctx nodes := by
  refine ⟨path_congr (fun y hy => ?_) hl.path, hl.nodup, hl.pointer⟩
  rcases List.mem_cons.mp hy with rfl | hy
  · rw [link_zero, link_zero, hroot]
  · rw [link_node (hl.nonzero hy), link_node (hl.nonzero hy), hnext y hy]

/-- The two states describe every node of a list by the same range. -/
def SameRange (s s' : State σ) (nodes : List ℕ) : Prop :=
  ∀ x ∈ nodes, (s'.regions x).start = (s.regions x).start ∧
    (s'.regions x).pages = (s.regions x).pages

theorem nodup_insert {xs ys : List ℕ} {y : ℕ} (hn : (xs ++ ys).Nodup) (hy : y ∉ xs ++ ys) :
    (xs ++ y::ys).Nodup := List.perm_middle.nodup_iff.mpr (List.nodup_cons.mpr ⟨hy, hn⟩)

section Insert
variable {pre post : List ℕ} {x new : ℕ} (pages flags : ℕ)

theorem insertAfter_region (s : State σ) (hne : new ≠ x) (next y : ℕ) :
    (insertAfter x next pages flags new s).regions y =
      if y = x then { s.regions x with next := new }
      else if y = new then ⟨regionEnd (s.regions x), pages, vflagsToPflags flags, next, x⟩
      else s.regions y := by
  simp only [insertAfter, setRegion, Function.update_apply, if_neg hne.symm]
  split_ifs <;> simp_all

theorem insertAfter_new (s : State σ) (hne : new ≠ x) (next : ℕ) :
    (insertAfter x next pages flags new s).regions new =
      ⟨regionEnd (s.regions x), pages, vflagsToPflags flags, next, x⟩ := by
  rw [insertAfter_region _ _ _ hne, if_neg hne, if_pos rfl]

/-- Regions other than the new one change in their links only. -/
theorem insertAfter_old (s : State σ) (hne : new ≠ x) (next : ℕ) {y : ℕ} (hy : y ≠ new) :
    ((insertAfter x next pages flags new s).regions y).start = (s.regions y).start ∧
      ((insertAfter x next pages flags new s).regions y).pages = (s.regions y).pages ∧
      ((insertAfter x next pages flags new s).regions y).flags = (s.regions y).flags := by
  rw [insertAfter_region _ _ _ hne, if_neg hy]
  split_ifs with hyx
  · rw [hyx]
    exact ⟨rfl, rfl, rfl⟩
  · exact ⟨rfl, rfl, rfl⟩

theorem Listed.insertAfter (hl : Listed s ctx (pre ++ x::post)) (hnew : new ≠ 0)
    (hfresh : new ∉ pre ++ x::post) (hptr : new < 2^64) :
    Listed (insertAfter x (s.regions x).next pages flags new s) ctx (pre ++ x::new::post) ∧
      SameRange s (insertAfter x (s.regions x).next pages flags new s) (pre ++ x::post) := by
  have hx := hl.nonzero (x := x) (by simp)
  have hne : new ≠ x := fun h => hfresh (by simp [h])
  have hreg := insertAfter_region pages flags s hne (s.regions x).next
  have hassoc : pre ++ x::post = (pre ++ [x]) ++ post := by simp
  have hassoc' : pre ++ x::new::post = (pre ++ [x]) ++ new::post := by simp
  have htip : tip 0 (pre ++ [x]) = x := tip_append 0 x pre []
  have hkeep : ∀ y, y ≠ x → y ≠ new →
      link (Vmm.insertAfter x (s.regions x).next pages flags new s) ctx y = link s ctx y := by
    intro y hyx hyn
    rw [link, link, hreg, if_neg hyx, if_neg hyn]
    rfl
  refine ⟨⟨?_, ?_, ?_⟩, ?_⟩
  · rw [hassoc']
    have hpath := hl.path
    have hnodup := hl.nodup
    rw [hassoc] at hpath hnodup
    rw [← List.cons_append] at hnodup
    have hmem : ∀ y ∈ 0::(pre ++ [x]), y ≠ new := by
      rintro y hy rfl
      rcases List.mem_cons.mp hy with rfl | hy
      · exact hnew rfl
      · exact hfresh (by rw [hassoc]; exact List.mem_append_left post hy)
    apply path_insert (List.nodup_append.mp hnodup).1 _ _ hpath
    · rw [htip, link_node hx, hreg, if_pos rfl]
    · rw [htip, link_node hnew, link_node hx, hreg, if_neg hne, if_pos rfl]
    · intro y hy hyx
      rw [htip] at hyx
      exact hkeep y hyx (hmem y hy)
    · intro y hy
      refine hkeep y (fun h => ?_) (fun h => hfresh (by simp [← h, hy]))
      exact (List.nodup_append.mp hnodup).2.2 x (by simp) y hy h.symm
  · rw [hassoc', ← List.cons_append]
    apply nodup_insert
    · rw [List.cons_append, ← hassoc]
      exact hl.nodup
    · rw [List.cons_append, ← hassoc]
      exact List.not_mem_cons_of_ne_of_not_mem hnew hfresh
  · intro y hy
    rw [hassoc', List.mem_append, List.mem_cons] at hy
    rcases hy with hy | rfl | hy
    · exact hl.pointer y (by rw [hassoc]; exact List.mem_append_left post hy)
    · exact hptr
    · exact hl.pointer y (by simp [hy])
  · intro y hy
    obtain ⟨hstart, hpages, -⟩ := insertAfter_old pages flags s hne (s.regions x).next
      (fun h => hfresh (h ▸ hy))
    exact ⟨hstart, hpages⟩

theorem pushRegion_region (s : State σ) (vaddr : ℕ) (hne : new ≠ (s.ctxs ctx).root) (y : ℕ) :
    (pushRegion ctx vaddr pages flags new s).regions y =
      if y = new then ⟨vaddr, pages, vflagsToPflags flags, (s.ctxs ctx).root, 0⟩
      else if y = (s.ctxs ctx).root ∧ y ≠ 0 then { s.regions y with prev := new }
      else s.regions y := by
  simp only [pushRegion, setRegion, setRoot, Function.update_apply]
  split_ifs <;> simp_all

theorem pushRegion_ctx (vaddr : ℕ) :
    (pushRegion ctx vaddr pages flags new s).ctxs ctx = { s.ctxs ctx with root := new } := by
  by_cases h0 : (s.ctxs ctx).root = 0 <;> simp [pushRegion, setRegion, setRoot, h0]

theorem Listed.pushRegion (vaddr : ℕ) (hl : Listed s ctx nodes) (hnew : new ≠ 0)
    (hfresh : new ∉ nodes) (hptr : new < 2^64) (hroot : (s.ctxs ctx).root ≠ 0) :
    Listed (pushRegion ctx vaddr pages flags new s) ctx (new::nodes) ∧
      SameRange s (pushRegion ctx vaddr pages flags new s) nodes := by
  have hne : new ≠ (s.ctxs ctx).root := by
    rintro rfl
    cases nodes with
    | nil => exact hroot (link_zero.symm.trans hl.path)
    | cons x xs => exact hfresh (by rw [← link_zero, hl.path.1]; simp)
  have hreg := pushRegion_region pages flags s vaddr hne
  refine ⟨⟨⟨?_, ?_⟩, ?_, ?_⟩, ?_⟩
  · rw [link_zero, pushRegion_ctx]
  · apply path_rehead hl.path
    · rw [link_node hnew, hreg, if_pos rfl, link_zero]
    · intro y hy
      have hyn : y ≠ new := fun h => hfresh (h ▸ hy)
      have hy0 := hl.nonzero hy
      rw [link_node hy0, link_node hy0, hreg, if_neg hyn]
      split_ifs <;> rfl
  · refine List.nodup_cons.mpr ⟨?_, List.nodup_cons.mpr ⟨hfresh, (List.nodup_cons.mp hl.nodup).2⟩⟩
    exact List.not_mem_cons_of_ne_of_not_mem (Ne.symm hnew) (List.nodup_cons.mp hl.nodup).1
  · intro y hy
    rcases List.mem_cons.mp hy with rfl | hy
    · exact hptr
    · exact hl.pointer y hy
  · intro y hy
    have hyn : y ≠ new := fun h => hfresh (h ▸ hy)
    rw [hreg, if_neg hyn]
    split_ifs <;> exact ⟨rfl, rfl⟩

end Insert

section Unlink
variable {pre post : List ℕ} {x : ℕ}

theorem unlinkRegion_region (s : State σ) (ctx x prev next y : ℕ) (hne : prev ≠ next ∨ prev = 0) :
    (unlinkRegion ctx x prev next s).regions y =
      if y = prev ∧ y ≠ 0 then { s.regions y with next := next }
      else if y = next ∧ y ≠ 0 then { s.regions y with prev := prev }
      else s.regions y := by
  simp only [unlinkRegion, setRegion, setRoot]
  split_ifs <;> simp_all [Function.update_apply]

theorem unlinkRegion_root (s : State σ) (ctx x prev next : ℕ) :
    ((unlinkRegion ctx x prev next s).ctxs ctx).root =
      if x = (s.ctxs ctx).root then next else (s.ctxs ctx).root := by
  simp only [unlinkRegion, setRegion, setRoot]
  split_ifs <;> simp_all

theorem Listed.tip_ne_next (hl : Listed s ctx (pre ++ x::post)) :
    tip 0 pre ≠ (s.regions x).next ∨ tip 0 pre = 0 := by
  have hnodup := hl.nodup
  rw [← List.cons_append] at hnodup
  obtain ⟨-, -, hapart⟩ := List.nodup_append.mp hnodup
  have htail := (path_append.mp hl.path).2
  rw [next_link s ctx (hl.nonzero (x := x) (by simp))]
  cases post with
  | nil =>
    rw [show link s ctx x = 0 from htail]
    exact (em _).symm
  | cons y ys =>
    rw [htail.1]
    exact .inl (hapart _ (tip_mem 0 pre) y (by simp))

theorem Listed.unlinkRegion (hl : Listed s ctx (pre ++ x::post)) :
    Listed (unlinkRegion ctx x (tip 0 pre) (s.regions x).next s) ctx (pre ++ post) ∧
      SameRange s (unlinkRegion ctx x (tip 0 pre) (s.regions x).next s) (pre ++ post) := by
  have hx := hl.nonzero (x := x) (by simp)
  have hnodup := hl.nodup
  rw [← List.cons_append] at hnodup
  obtain ⟨hpre, hpost, hapart⟩ := List.nodup_append.mp hnodup
  obtain ⟨hpath, htail⟩ := path_append.mp hl.path
  have htip := tip_mem 0 pre
  have hreg := fun y => unlinkRegion_region s ctx x _ _ y hl.tip_ne_next
  have hroot := unlinkRegion_root s ctx x (tip 0 pre) (s.regions x).next
  refine ⟨⟨?_, ?_, ?_⟩, ?_⟩
  · apply path_remove hpre _ _ hl.path
    · rw [link_node (s := s) hx]
      by_cases h0 : tip 0 pre = 0
      · rw [h0, link_zero, ← h0, hroot, if_pos]
        rw [← path_tip hpath, h0, link_zero]
      · rw [link_node h0, hreg, if_pos ⟨rfl, h0⟩]
    · intro y hy hyt
      by_cases h0 : y = 0
      · rw [h0, link_zero, link_zero, hroot, if_neg]
        intro hxr
        rw [h0] at hyt
        cases pre with
        | nil => exact hyt rfl
        | cons z zs =>
          have hz : link s ctx 0 = z := hpath.1
          rw [link_zero, ← hxr] at hz
          exact hapart z (by simp) x (by simp) hz.symm
      · rw [link_node h0, link_node h0, hreg, if_neg (fun h => hyt h.1)]
        split_ifs <;> rfl
    · intro y hy
      have h0 := hl.nonzero (x := y) (by simp [hy])
      have hyt : y ≠ tip 0 pre := fun h => hapart _ htip y (List.mem_cons_of_mem x hy) h.symm
      rw [link_node h0, link_node h0, hreg, if_neg (fun h => hyt h.1)]
      split_ifs <;> rfl
  · have hsub : (pre ++ post).Sublist (pre ++ x::post) :=
      (List.sublist_cons_self x post).append_left pre
    exact hl.nodup.sublist (hsub.cons_cons 0)
  · intro y hy
    exact hl.pointer y (by simp only [List.mem_append, List.mem_cons] at *; tauto)
  · intro y hy
    rw [hreg]
    split_ifs <;> exact ⟨rfl, rfl⟩

end Unlink

theorem pushRegion_phys (vaddr pages flags new : ℕ) (p : Phys σ) :
    pushRegion ctx vaddr pages flags new { s with phys := p } =
      { pushRegion ctx vaddr pages flags new s with phys := p } := by
  by_cases h0 : (s.ctxs ctx).root = 0 <;> simp [pushRegion, setRegion, setRoot, h0]

theorem unlinkRegion_phys (region prev next : ℕ) (p : Phys σ) :
    unlinkRegion ctx region prev next { s with phys := p } =
      { unlinkRegion ctx region prev next s with phys := p } := by
  by_cases hp : prev = 0 <;> by_cases hn : next = 0 <;> by_cases hr : region = (s.ctxs ctx).root <;>
    simp [unlinkRegion, setRegion, setRoot, hp, hn, hr]

theorem vinit_eq (A : Ops σ) (pm start : ℕ) (s : State σ) (hc : (vinit A pm start s).1 ≠ 0) :
    let c := A.palloc 1 true s.phys
    let r := A.palloc 1 true c.2
    c.1 ≠ 0 ∧ r.1 ≠ 0 ∧ vinit A pm start s =
      (c.1, ⟨r.2, Function.update s.regions r.1 ⟨start, 0, 0, 0, 0⟩,
        Function.update s.ctxs c.1 ⟨r.1, pm, 0⟩⟩) := by
  intro c r
  by_cases h1 : c.1 = 0
  · exact absurd (by rw [vinit, if_pos h1]) hc
  by_cases h2 : r.1 = 0
  · exact absurd (by rw [vinit, if_neg h1, if_pos h2]) hc
  exact ⟨h1, h2, by rw [vinit, if_neg h1, if_neg h2]⟩

theorem vinit_listed (A : Ops σ) (hptr : ∀ p, (A.palloc 1 true p).1 < 2^64) (pm start : ℕ)
    (s : State σ) (hc : (vinit A pm start s).1 ≠ 0) :
    ∃ root, Listed (vinit A pm start s).2 (vinit A pm start s).1 [root] ∧
      (vinit A pm start s).2.regions root = ⟨start, 0, 0, 0, 0⟩ ∧
      (vinit A pm start s).2.ctxs (vinit A pm start s).1 = ⟨root, pm, 0⟩ := by
  obtain ⟨-, h2, heq⟩ := vinit_eq A pm start s hc
  rw [heq]
  refine ⟨(A.palloc 1 true (A.palloc 1 true s.phys).2).1, ⟨?_, ?_, ?_⟩, ?_, ?_⟩
  · simp [h2, LinkedPath.Path, link]
  · simpa using Ne.symm h2
  · simpa using hptr _
  · simp
  · simp

section Operations
variable (A : Ops σ) (hhdmOffset kernelPagemap : ℕ) (hl : Listed s ctx nodes)
include hl

theorem Listed.root_mem (hne : nodes ≠ []) : (s.ctxs ctx).root ∈ nodes := by
  cases nodes with
  | nil => exact absurd rfl hne
  | cons x xs =>
    rw [← link_zero (s := s), hl.path.1]
    exact List.mem_cons_self

theorem Listed.root_ne (hne : nodes ≠ []) : (s.ctxs ctx).root ≠ 0 :=
  hl.nonzero (hl.root_mem hne)

theorem Listed.root_nil (h : nodes = []) : (s.ctxs ctx).root = 0 := by
  rw [← link_zero (s := s)]
  have := hl.path
  rwa [h] at this

/-- Where the functions of a context give up at once. -/
theorem Listed.guard (h : nodes = [] ∨ (s.ctxs ctx).pagemap = 0) :
    ctx = 0 ∨ (s.ctxs ctx).root = 0 ∨ (s.ctxs ctx).pagemap = 0 := .inr (h.imp_left hl.root_nil)

theorem Listed.findRegion (test : Vregion → Vregion → Prop) [∀ r n, Decidable (test r n)]
    (hne : nodes ≠ []) :
    ∃ pre x post, nodes = pre ++ x::post ∧
      findRegion s.regions test rounds (s.ctxs ctx).root = some x := by
  rw [← link_zero (s := s)]
  exact findRegion_mem hl.path (fun _ hx => hl.nonzero hx) test hne rounds hl.length_lt

/-- What `valloc` and `vallocat` do with the region they found. -/
theorem placeRegion_eq (test : Vregion → Vregion → Prop) [∀ r n, Decidable (test r n)]
    (page : ℕ → Phys σ → ℕ × Phys σ) {x : ℕ} (hx : x ∈ nodes)
    (hfind : Vmm.findRegion s.regions test rounds (s.ctxs ctx).root = some x)
    (hctx : ctx ≠ 0) (hpm : (s.ctxs ctx).pagemap ≠ 0) (hne : (A.palloc 1 true s.phys).1 ≠ x)
    (pages flags : ℕ) :
    placeRegion A hhdmOffset test page ctx pages flags s =
      let r := A.palloc 1 true s.phys
      if r.1 = 0 then some (0, { s with phys := r.2 })
      else
        let f := fillRegion A hhdmOffset page (s.ctxs ctx).pagemap (regionEnd (s.regions x))
          (vflagsToPflags flags) pages 0 r.2
        some (if f.1 then regionEnd (s.regions x) else 0,
          { insertAfter x (s.regions x).next pages flags r.1 s with phys := f.2 }) := by
  have hroot := hl.root_ne (List.ne_nil_of_mem hx)
  have hx0 := hl.nonzero hx
  rw [placeRegion, if_neg (by simp [hctx, hroot, hpm]), hfind, Option.map_some]
  dsimp only
  by_cases h0 : (A.palloc 1 true s.phys).1 = 0
  · rw [if_pos h0, if_pos h0]
  · rw [if_neg h0, if_neg h0, if_neg hx0, if_neg hx0, insertAfter_new _ _ _ hne]
    rfl

theorem vadd_eq (hctx : ctx ≠ 0) (hpm : (s.ctxs ctx).pagemap ≠ 0) (hne : nodes ≠ [])
    (vaddr paddr pages flags : ℕ) :
    (∃ x ∈ nodes, Overlaps (alignDown vaddr 4096) (wrap (alignDown vaddr 4096+4096*pages))
        (s.regions x)) ∧ vadd A hhdmOffset ctx vaddr paddr pages flags s = some (0, s) ∨
    (∀ x ∈ nodes, ¬ Overlaps (alignDown vaddr 4096) (wrap (alignDown vaddr 4096+4096*pages))
        (s.regions x)) ∧ vadd A hhdmOffset ctx vaddr paddr pages flags s =
      let r := A.palloc 1 true s.phys
      if r.1 = 0 then some (0, { s with phys := r.2 })
      else
        let s' := pushRegion ctx (alignDown vaddr 4096) pages flags r.1 s
        some (alignDown vaddr 4096, { s' with
          phys := mapPages A hhdmOffset (s'.ctxs ctx).pagemap (alignDown vaddr 4096)
            (alignDown paddr 4096) (s'.regions r.1).flags pages 0 r.2 }) := by
  have hroot := hl.root_ne hne
  obtain ⟨taken, heq, hfree, htaken⟩ := anyOverlap_eq hl.path (fun _ hx => hl.nonzero hx)
    (alignDown vaddr 4096) (wrap (alignDown vaddr 4096+4096*pages)) rounds hl.length_lt
  rw [link_zero] at heq
  rw [vadd, if_neg (by simp [hctx, hroot, hpm])]
  dsimp only
  rw [heq, Option.map_some]
  cases taken with
  | true => exact .inl ⟨htaken rfl, rfl⟩
  | false =>
    refine .inr ⟨hfree rfl, ?_⟩
    rw [if_neg (by decide)]
    by_cases h0 : (A.palloc 1 true s.phys).1 = 0
    · rw [if_pos h0, if_pos h0]
    · rw [if_neg h0, if_neg h0, pushRegion_phys]

theorem vfree_eq (hctx : ctx ≠ 0) (ptr : ℕ) :
    (vfree A hhdmOffset kernelPagemap ctx ptr s = some s ∧ ∀ x ∈ nodes, (s.regions x).start ≠ ptr) ∨
    ∃ pre x post, nodes = pre ++ x::post ∧ (s.regions x).start = ptr ∧
      (∀ y ∈ pre, (s.regions y).start ≠ ptr) ∧
      findStart s.regions ptr rounds (s.ctxs ctx).root = some x ∧
      vfree A hhdmOffset kernelPagemap ctx ptr s = some
        { unlinkRegion ctx x (s.regions x).prev (s.regions x).next s with
          phys := A.pfree x 1 (releasePages A hhdmOffset kernelPagemap (s.ctxs ctx).pagemap
            (s.regions x).start (s.regions x).pages 0 s.phys) } := by
  rw [vfree, if_neg hctx]
  rcases findStart_eq hl.path (fun _ hx => hl.nonzero hx) ptr rounds hl.length_lt with
    ⟨h0, hno⟩ | ⟨pre, x, post, hn, hx, hno, heq⟩
  · rw [link_zero] at h0
    rw [h0, Option.map_some, if_pos rfl]
    exact .inl ⟨rfl, hno⟩
  · rw [link_zero] at heq
    refine .inr ⟨pre, x, post, hn, hx, hno, heq, ?_⟩
    rw [heq, Option.map_some, if_neg (hl.nonzero (by simp [hn]))]
    dsimp only
    rw [unlinkRegion_phys]

end Operations

end Emk.Vmm
