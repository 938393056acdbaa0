import Emk.VmmAtomicity
import Emk.VmmPlacement

/-!
# Adding a region at a given address

`vadd` compares the new range with every region of the list and refuses it
when the two meet. The node without pages that every context starts with goes
through the same comparisons, and an address in the first page is also the
value that stands for a refusal.
-/

set_option autoImplicit false

namespace Emk.VmmAddition
open Emk.ByteMemory Emk.MachineWord Emk.DirectMap Emk.PageAllocator Emk.Paging Emk.Vmm
open Emk.PagingForest Emk.ReferenceAllocator Emk.OrderedSpans Emk.Transition
open Emk.Sched (translation translation_leaf EntryFlags vflagsToPflags_entry)
open Emk.VmmPlacement (span)
open Emk.VmmRuns (smallState)

/-- The arguments of a call of `vadd`. -/
structure Request where
  vaddr : ℕ
  paddr : ℕ
  pages : ℕ
  flags : ℕ

namespace Request

def lo (q : Request) : ℕ := alignDown q.vaddr 4096

def range (q : Request) : Span ℕ := ⟨q.lo, q.lo+4096*q.pages⟩

/-- The range ends before the address space does. -/
def Fits (q : Request) : Prop := q.lo+4096*q.pages < 2^64

instance decidableFits (q : Request) : Decidable q.Fits :=
  inferInstanceAs (Decidable (_ < 2^64))

theorem lo_eq_zero {q : Request} : q.lo = 0 ↔ q.vaddr < 4096 := by
  rw [lo, alignDown]
  omega

end Request

/-- Every region ends before the address space does. -/
def RegionsFit (regions : ℕ → Vregion) (nodes : List ℕ) : Prop :=
  ∀ x ∈ nodes, (regions x).start+4096*(regions x).pages < 2^64

variable {σ : Type} {D : Layout} {A : Ops σ} {C : Contract D A} {roots : Set ℕ}
  {shared : Set (Fin 512)} {ctx pm : ℕ} {s : State σ} {nodes : List ℕ}

theorem overlaps_hits {q : Request} (hq : q.Fits) {r : Vregion}
    (hr : r.start+4096*r.pages < 2^64) :
    Overlaps q.lo (wrap (q.lo+4096*q.pages)) r ↔ Hits q.range (span r) := by
  rw [Overlaps, regionEnd, wrap_of_lt hr, wrap_of_lt hq]
  rfl

/-- A region with pages is met exactly when the ranges have an address in
common, a node without pages when it starts within the range or at its end. -/
theorem overlaps_iff {q : Request} (hq : q.Fits) (hpages : 1 ≤ q.pages) {r : Vregion}
    (hr : r.start+4096*r.pages < 2^64) :
    Overlaps q.lo (wrap (q.lo+4096*q.pages)) r ↔
      (1 ≤ r.pages ∧ ¬ Disjoint q.range.points (span r).points) ∨
        (r.pages = 0 ∧ q.lo ≤ r.start ∧ r.start ≤ q.lo+4096*q.pages) := by
  have hrange : q.range.lo < q.range.hi := by
    simp only [Request.range]
    omega
  rw [overlaps_hits hq hr]
  by_cases h0 : r.pages = 0
  · have hempty : (span r).hi = (span r).lo := by simp [span, h0]
    rw [hits_empty hempty]
    simp [h0, Request.range, span]
  · have hproper : (span r).lo < (span r).hi := by
      simp only [span]
      omega
    rw [hits_iff hrange hproper]
    simp [h0, Nat.one_le_iff_ne_zero]

section Call
variable (A) (D) (roots) (ctx) (q : Request)

/-- The call gives up before it links a node. -/
def Refused (s : State σ) : Prop :=
  (s.ctxs ctx).root = 0 ∨ (A.palloc 1 true s.phys).1 = 0 ∨
    ∃ x ∈ regionNodes s ctx, Overlaps q.lo (wrap (q.lo+4096*q.pages)) (s.regions x)

instance decidableRefused (s : State σ) : Decidable (Refused A ctx q s) :=
  inferInstanceAs (Decidable (_ ∨ _ ∨ ∃ x ∈ regionNodes s ctx, _))

/-- The regions of the context and all translations are as before. -/
structure SameSpace (s s' : State σ) : Prop where
  list : regionNodes s' ctx = regionNodes s ctx
  regions : ∀ x ∈ regionNodes s ctx, s'.regions x = s.regions x
  space : ∀ r ∈ roots, ∀ v, translation D s'.phys.mem r v = translation D s.phys.mem r v

/-- The new range keeps clear of all regions, its node is the new head of the
otherwise unchanged list, and its pages alone are mapped, to the range asked
for. -/
structure Added (pm : ℕ) (s s' : State σ) : Prop where
  apart : ∀ x ∈ regionNodes s ctx, 1 ≤ (s.regions x).pages →
    Disjoint q.range.points (span (s.regions x)).points
  linked : ∃ new, new ∉ regionNodes s ctx ∧ regionNodes s' ctx = new::regionNodes s ctx ∧
    s'.regions new = ⟨q.lo, q.pages, vflagsToPflags q.flags, (s.ctxs ctx).root, 0⟩ ∧
    ∀ x ∈ regionNodes s ctx, s'.regions x =
      if x = (s.ctxs ctx).root then { s.regions x with prev := new } else s.regions x
  mapped : q.pages ≤ 2^36 → alignDown q.paddr 4096+4096*q.pages ≤ 2^52 →
    MapsAll A D.hhdmOffset pm q.lo (alignDown q.paddr 4096) (vflagsToPflags q.flags) q.pages 0
      (A.palloc 1 true s.phys).2 →
    ∀ i < q.pages,
      translation D s'.phys.mem pm (q.lo+4096*i) = alignDown q.paddr 4096+4096*i
  elsewhere : ∀ r ∈ roots, ∀ v, pageNumber v ∉ pagesOf q.lo 0 q.pages →
    translation D s'.phys.mem r v = translation D s.phys.mem r v

/-- A pointer stands for a region added, `NULL` for nothing done. -/
def SoundAndAtomic (pm : ℕ) (s : State σ) (a : ℕ) (s' : State σ) : Prop :=
  (a ≠ 0 → Added D A roots ctx q pm s s') ∧ (a = 0 → SameSpace D roots ctx s s')

end Call

theorem palloc_space (hc : CtxOwned C roots shared ctx pm s nodes) {r : ℕ} (hr : r ∈ roots)
    (v : ℕ) : translation D (A.palloc 1 true s.phys).2.mem r v = translation D s.phys.mem r v := by
  have hq := palloc_quiet hc.forest true
  exact translation_leaf hc.forest hq.forest hr (hq.leaf r hr v)

/-- The ways of `vadd` through a context in use. -/
theorem vadd_cases (hc : CtxOwned C roots shared ctx pm s nodes) (hpm : pm ∈ roots) (hctx : ctx ≠ 0)
    (q : Request) :
    (Refused A ctx q s ∧ ∃ p, vadd A D.hhdmOffset ctx q.vaddr q.paddr q.pages q.flags s =
        some (0, { s with phys := p }) ∧ SameSpace D roots ctx s { s with phys := p }) ∨
    (¬ Refused A ctx q s ∧ nodes ≠ [] ∧ (A.palloc 1 true s.phys).1 ≠ 0 ∧
      vadd A D.hhdmOffset ctx q.vaddr q.paddr q.pages q.flags s =
        some (q.lo, { pushRegion ctx q.lo q.pages q.flags (A.palloc 1 true s.phys).1 s with
          phys := mapPages A D.hhdmOffset pm q.lo (alignDown q.paddr 4096)
            (vflagsToPflags q.flags) q.pages 0 (A.palloc 1 true s.phys).2 })) := by
  have hsame : SameSpace D roots ctx s { s with phys := s.phys } :=
    ⟨rfl, fun _ _ => rfl, fun _ _ _ => rfl⟩
  by_cases hnil : nodes = []
  · have hroot := hc.listed.root_nil hnil
    refine .inl ⟨.inl hroot, s.phys, ?_, hsame⟩
    rw [vadd, if_pos (.inr (.inl hroot))]
  have hmap : (s.ctxs ctx).pagemap ≠ 0 := by
    rw [hc.pagemap]
    exact hc.forest.root_ne_zero hpm
  have hnodes := hc.listed.regionNodes_eq
  rcases vadd_eq A D.hhdmOffset hc.listed hctx hmap hnil q.vaddr q.paddr q.pages q.flags with
    ⟨hmeets, heq⟩ | ⟨hclear, heq⟩
  · refine .inl ⟨.inr (.inr ?_), s.phys, heq, hsame⟩
    rw [hnodes]
    exact hmeets
  by_cases h0 : (A.palloc 1 true s.phys).1 = 0
  · refine .inl ⟨.inr (.inl h0), (A.palloc 1 true s.phys).2, ?_, ⟨rfl, fun _ _ => rfl, ?_⟩⟩
    · rw [heq]
      exact if_pos h0
    · exact fun r hr v => palloc_space hc hr v
  · refine .inr ⟨?_, hnil, h0, ?_⟩
    · rintro (hroot | hnode | hmeets)
      · exact hc.listed.root_ne hnil hroot
      · exact h0 hnode
      · rw [hnodes] at hmeets
        obtain ⟨x, hx, ho⟩ := hmeets
        exact hclear x hx ho
    · have hne : (A.palloc 1 true s.phys).1 ≠ (s.ctxs ctx).root :=
        fun he => hc.fresh (he ▸ hc.listed.root_mem hnil)
      rw [heq]
      dsimp only
      rw [if_neg h0, pushRegion_ctx, pushRegion_region _ _ _ _ hne, if_pos rfl, hc.pagemap]
      rfl

/-- What a call that is not refused leaves behind. -/
theorem vadd_added (hc : CtxOwned C roots shared ctx pm s nodes) (hpm : pm ∈ roots) {q : Request}
    (hq : q.Fits) (hpages : 1 ≤ q.pages) (hfit : RegionsFit s.regions nodes) (hne : nodes ≠ [])
    (hclear : ¬ Refused A ctx q s) (h0 : (A.palloc 1 true s.phys).1 ≠ 0) :
    Added D A roots ctx q pm s
      { pushRegion ctx q.lo q.pages q.flags (A.palloc 1 true s.phys).1 s with
        phys := mapPages A D.hhdmOffset pm q.lo (alignDown q.paddr 4096)
          (vflagsToPflags q.flags) q.pages 0 (A.palloc 1 true s.phys).2 } := by
  have hflags := vflagsToPflags_entry q.flags
  have hquiet := palloc_quiet hc.forest true
  have hrange := mapPages_range (A := A) hquiet.forest hpm hflags.lt q.lo
    (alignDown q.paddr 4096) q.pages 0
  have hnodes := hc.listed.regionNodes_eq
  have hroot : (A.palloc 1 true s.phys).1 ≠ (s.ctxs ctx).root :=
    fun he => hc.fresh (he ▸ hc.listed.root_mem hne)
  have hreg := pushRegion_region q.pages q.flags s q.lo hroot
  obtain ⟨hpushed, -⟩ := hc.push h0 hne q.lo q.pages q.flags hrange.forest hrange.owned
  refine ⟨fun x hx hp => ?_, ⟨(A.palloc 1 true s.phys).1, ?_, ?_, ?_, ?_⟩, ?_, ?_⟩
  · by_contra hmeets
    refine hclear (.inr (.inr ⟨x, hx, ?_⟩))
    rw [hnodes] at hx
    exact (overlaps_iff hq hpages (hfit x hx)).mpr (.inl ⟨hp, hmeets⟩)
  · rw [hnodes]
    exact hc.fresh
  · rw [hpushed.listed.regionNodes_eq, hnodes]
  · exact (hreg _).trans (if_pos rfl)
  · intro x hx
    rw [hnodes] at hx
    have hxn : x ≠ (A.palloc 1 true s.phys).1 := fun he => hc.fresh (he ▸ hx)
    refine (hreg x).trans ?_
    rw [if_neg hxn]
    simp [hc.listed.nonzero hx]
  · intro hn hbelow hall i hi
    have hentry := mapPages_entry hquiet.forest hpm hflags.lt q.lo (alignDown q.paddr 4096)
      q.pages 0 (by omega) hall (Nat.zero_le i) (by omega)
    have hvirt : wrap (q.lo+4096*i) = q.lo+4096*i := wrap_of_lt (by
      have := hq
      rw [Request.Fits] at this
      omega)
    have hphys : wrap (alignDown q.paddr 4096+4096*i) = alignDown q.paddr 4096+4096*i :=
      wrap_of_lt (by omega)
    have hpage : (alignDown q.paddr 4096+4096*i) % 4096 = 0 := by
      rw [alignDown]
      omega
    rw [hvirt, hphys] at hentry
    exact hflags.translation hrange.forest hpm hpage (by omega) hentry
  · intro r hr v hv
    refine Eq.trans ?_ (palloc_space hc hr v)
    exact translation_leaf hquiet.forest hrange.forest hr (hrange.elsewhere r hr v hv)

/-- `vadd` keeps its word for every address outside the first page, and
within it exactly when the range is refused. -/
theorem vadd_sound_iff (hc : CtxOwned C roots shared ctx pm s nodes) (hpm : pm ∈ roots)
    (hctx : ctx ≠ 0) (q : Request) (hq : q.Fits) (hpages : 1 ≤ q.pages)
    (hfit : RegionsFit s.regions (regionNodes s ctx)) :
    ∃ a s', vadd A D.hhdmOffset ctx q.vaddr q.paddr q.pages q.flags s = some (a, s') ∧
      (SoundAndAtomic D A roots ctx q pm s a s' ↔ 4096 ≤ q.vaddr ∨ Refused A ctx q s) := by
  rw [hc.listed.regionNodes_eq] at hfit
  rcases vadd_cases hc hpm hctx q with ⟨hrefused, p, heq, hsame⟩ | ⟨hclear, hne, h0, heq⟩
  · exact ⟨_, _, heq, fun _ => .inr hrefused, fun _ => ⟨fun h => absurd rfl h, fun _ => hsame⟩⟩
  · have hadded := vadd_added hc hpm hq hpages hfit hne hclear h0
    refine ⟨_, _, heq, fun hsound => ?_, ?_⟩
    · by_contra hcond
      rw [not_or, not_le] at hcond
      have hsame := hsound.2 (Request.lo_eq_zero.mpr hcond.1)
      obtain ⟨new, -, hlist, -⟩ := hadded.linked
      have hlength := congrArg List.length (hlist.symm.trans hsame.list)
      simp at hlength
    · rintro (hhigh | hrefused)
      · refine ⟨fun _ => hadded, fun hlow => ?_⟩
        have := Request.lo_eq_zero.mp hlow
        omega
      · exact absurd hrefused hclear

def addressZero : Request := ⟨0x123, 0x9000, 1, 3⟩

/-- The layout of the small page map with a context at `0x10000`. -/
def smallCtx : ℕ × State (List ℕ) := vinit smallOps smallLayout.hhdmOffset 0x10000 smallState

theorem smallCtx_owned : ∃ root,
    CtxOwned smallContract.toContract {smallLayout.hhdmOffset} ∅ smallCtx.1 smallLayout.hhdmOffset
      smallCtx.2 [root] ∧ smallCtx.2.regions root = ⟨0x10000, 0, 0, 0, 0⟩ := by
  have hforest := (forest_zeroed smallContract.toContract ∅ smallPhys_valid smallPhys_owned
    (fun _ _ => rfl)).1
  obtain ⟨root, hc, hroot, -⟩ := vinit_ctxOwned (s := smallState) hforest smallLayout.hhdmOffset
    0x10000 (by decide +kernel)
  exact ⟨root, hc, hroot⟩

theorem vadd_sound_iff_small :
    ∃ a s', vadd smallOps smallLayout.hhdmOffset smallCtx.1 0x9000 0x5000 2 3 smallCtx.2 =
        some (a, s') ∧
      SoundAndAtomic smallLayout smallOps {smallLayout.hhdmOffset} smallCtx.1
        ⟨0x9000, 0x5000, 2, 3⟩ smallLayout.hhdmOffset smallCtx.2 a s' := by
  obtain ⟨root, hc, -⟩ := smallCtx_owned
  obtain ⟨a, s', heq, hiff⟩ := vadd_sound_iff hc rfl (by decide +kernel) ⟨0x9000, 0x5000, 2, 3⟩
    (by decide) (by decide) (by rw [RegionsFit]; decide +kernel)
  exact ⟨a, s', heq, hiff.mpr (.inl (by decide))⟩

/-- A page added at address zero is linked and mapped, and `NULL` returned. -/
theorem vadd_null_added :
    ∃ s', vadd smallOps smallLayout.hhdmOffset smallCtx.1 0x123 0x9000 1 3 smallCtx.2 =
        some (0, s') ∧
      ¬ SoundAndAtomic smallLayout smallOps {smallLayout.hhdmOffset} smallCtx.1 addressZero
        smallLayout.hhdmOffset smallCtx.2 0 s' := by
  have hrun : (vadd smallOps smallLayout.hhdmOffset smallCtx.1 0x123 0x9000 1 3 smallCtx.2).map
      (fun r => (r.1, (regionNodes r.2 smallCtx.1).length)) = some (0, 2) := by decide +kernel
  obtain ⟨⟨a, s'⟩, h, hlength⟩ := Option.map_eq_some_iff.mp hrun
  obtain ⟨rfl, hlist⟩ := Prod.mk.inj hlength
  refine ⟨s', h, fun hsound => ?_⟩
  have hsame := (hsound.2 rfl).list
  have hone : (regionNodes smallCtx.2 smallCtx.1).length = 1 := by decide +kernel
  rw [← hsame, hlist] at hone
  exact absurd hone (by decide)

section Acceptance

/-- A call of `vadd` that succeeds. -/
def accept (A : Ops σ) (hhdmOffset ctx : ℕ) (s : State σ) (q : Request) : Option (State σ) :=
  (vadd A hhdmOffset ctx q.vaddr q.paddr q.pages q.flags s).bind fun r =>
    if r.1 = 0 then none else some r.2

theorem accept_keeps (hc : CtxOwned C roots shared ctx pm s nodes) (hpm : pm ∈ roots)
    (hctx : ctx ≠ 0) (hfit : RegionsFit s.regions nodes) {q : Request} (hq : q.Fits) {s' : State σ}
    (h : accept A D.hhdmOffset ctx s q = some s') :
    ∃ nodes', CtxOwned C roots shared ctx pm s' nodes' ∧ RegionsFit s'.regions nodes' ∧
      nodes' ≠ [] := by
  obtain ⟨⟨a, t⟩, hcall, hr⟩ := Option.bind_eq_some_iff.mp h
  dsimp only at hr
  split_ifs at hr with ha
  obtain rfl := Option.some.inj hr
  rcases vadd_cases hc hpm hctx q with ⟨-, p, heq, -⟩ | ⟨-, hne, h0, heq⟩
  · rw [heq] at hcall
    exact absurd (Prod.mk.inj (Option.some.inj hcall)).1.symm ha
  · rw [heq] at hcall
    obtain ⟨-, rfl⟩ := Prod.mk.inj (Option.some.inj hcall)
    have hrange := mapPages_range (A := A) (palloc_quiet hc.forest true).forest hpm
      (vflagsToPflags_entry q.flags).lt q.lo (alignDown q.paddr 4096) q.pages 0
    obtain ⟨hpushed, hsame⟩ := hc.push h0 hne q.lo q.pages q.flags hrange.forest hrange.owned
    have hroot : (A.palloc 1 true s.phys).1 ≠ (s.ctxs ctx).root :=
      fun he => hc.fresh (he ▸ hc.listed.root_mem hne)
    have hnew := pushRegion_region q.pages q.flags s q.lo hroot (A.palloc 1 true s.phys).1
    rw [if_pos rfl] at hnew
    refine ⟨_, hpushed, fun x hx => ?_, List.cons_ne_nil _ _⟩
    dsimp only
    rcases List.mem_cons.mp hx with rfl | hx
    · rw [hnew]
      exact hq
    · rw [(hsame x hx).1, (hsame x hx).2]
      exact hfit x hx

/-- Every context that successful calls lead to is one in use. -/
theorem accepted_ctx (hf : Forest C roots shared s.phys) (hpm : pm ∈ roots) {start : ℕ}
    (hstart : start < 2^64) (hc : (vinit A pm start s).1 ≠ 0) {qs : List Request}
    (hqs : ∀ q ∈ qs, q.Fits) {w : State σ}
    (h : run (lift (accept A D.hhdmOffset (vinit A pm start s).1)) (some (vinit A pm start s).2)
      qs = some w) :
    ∃ nodes, CtxOwned C roots shared (vinit A pm start s).1 pm w nodes ∧
      RegionsFit w.regions nodes ∧ nodes ≠ [] := by
  obtain ⟨root, howned, hroot, -⟩ := vinit_ctxOwned hf pm start hc
  have hfirst : RegionsFit (vinit A pm start s).2.regions [root] := by
    intro x hx
    rw [List.mem_singleton.mp hx, hroot]
    simpa using hstart
  have hall : Along (lift (accept A D.hhdmOffset (vinit A pm start s).1))
      (Issued fun _ q => q.Fits) (some (vinit A pm start s).2) qs :=
    along_of_invariant (I := fun _ => True) (C := fun _ q => q.Fits) (fun _ _ _ _ => trivial)
      (fun _ _ _ hq _ _ => hq) trivial (along_of_forall hqs)
  refine run_lift_safe (I := fun w => ∃ nodes, CtxOwned C roots shared (vinit A pm start s).1 pm w
    nodes ∧ RegionsFit w.regions nodes ∧ nodes ≠ []) ?_
    ⟨_, howned, hfirst, List.cons_ne_nil _ _⟩ hall h
  rintro w q w' ⟨nodes, hw, hfit, -⟩ hq hnext
  exact accept_keeps hw hpm hc hfit hq hnext

/-- In every context that successful calls lead to, a range that no region
with pages meets is accepted exactly when it lies outside the first page and
no node without pages starts within it or at its end. -/
theorem vadd_accepts_iff (hf : Forest C roots shared s.phys) (hpm : pm ∈ roots) (start : ℕ)
    (hstart : start < 2^64) (hc : (vinit A pm start s).1 ≠ 0) (qs : List Request)
    (hqs : ∀ q ∈ qs, q.Fits) (w : State σ)
    (hw : run (lift (accept A D.hhdmOffset (vinit A pm start s).1)) (some (vinit A pm start s).2)
      qs = some w)
    (q : Request) (hq : q.Fits) (hpages : 1 ≤ q.pages) (hnode : (A.palloc 1 true w.phys).1 ≠ 0)
    (hfree : ∀ x ∈ regionNodes w (vinit A pm start s).1, 1 ≤ (w.regions x).pages →
      Disjoint q.range.points (span (w.regions x)).points) :
    ∃ a w', vadd A D.hhdmOffset (vinit A pm start s).1 q.vaddr q.paddr q.pages q.flags w =
        some (a, w') ∧
      (a ≠ 0 ↔ 4096 ≤ q.vaddr ∧ ∀ x ∈ regionNodes w (vinit A pm start s).1,
        (w.regions x).pages = 0 →
          ¬ (q.lo ≤ (w.regions x).start ∧ (w.regions x).start ≤ q.lo+4096*q.pages)) := by
  obtain ⟨nodes, hctx, hfit, hnil⟩ := accepted_ctx hf hpm hstart hc hqs hw
  have hnodes := hctx.listed.regionNodes_eq
  rw [hnodes] at hfree ⊢
  have hlow : q.lo ≠ 0 ↔ 4096 ≤ q.vaddr := by
    rw [Ne, Request.lo_eq_zero, not_lt]
  rcases vadd_cases hctx hpm hc q with ⟨hrefused, p, heq, -⟩ | ⟨hclear, hne, h0, heq⟩
  · refine ⟨_, _, heq, fun h => absurd rfl h, ?_⟩
    rintro ⟨-, hempty⟩
    rcases hrefused with hroot | hnull | ⟨x, hx, ho⟩
    · exact absurd hroot (hctx.listed.root_ne hnil)
    · exact absurd hnull hnode
    · rw [hnodes] at hx
      rcases (overlaps_iff hq hpages (hfit x hx)).mp ho with ⟨hp, hmeets⟩ | ⟨h0, hwithin⟩
      · exact absurd (hfree x hx hp) hmeets
      · exact absurd hwithin (hempty x hx h0)
  · refine ⟨_, _, heq, ?_⟩
    rw [hlow]
    refine ⟨fun hhigh => ⟨hhigh, fun x hx hzero hwithin => hclear (.inr (.inr ⟨x, ?_, ?_⟩))⟩,
      And.left⟩
    · rwa [hnodes]
    · exact (overlaps_iff hq hpages (hfit x hx)).mpr (.inr ⟨hzero, hwithin⟩)

end Acceptance

def smallRequests : List Request := [⟨0x20000, 0x9000, 2, 3⟩]

theorem vadd_accepts_iff_small :
    ∃ w a w', run (lift (accept smallOps smallLayout.hhdmOffset smallCtx.1)) (some smallCtx.2)
        smallRequests = some w ∧
      vadd smallOps smallLayout.hhdmOffset smallCtx.1 0x22000 0x5000 2 3 w = some (a, w') ∧
      a ≠ 0 := by
  have hforest := (forest_zeroed smallContract.toContract ∅ smallPhys_valid smallPhys_owned
    (fun _ _ => rfl)).1
  have hrun : ((run (lift (accept smallOps smallLayout.hhdmOffset smallCtx.1)) (some smallCtx.2)
      smallRequests).map fun w =>
        ((regionNodes w smallCtx.1).map fun x => ((w.regions x).start, (w.regions x).pages),
          decide ((smallOps.palloc 1 true w.phys).1 = 0))) =
      some ([(0x20000, 2), (0x10000, 0)], false) := by decide +kernel
  obtain ⟨w, hw, hlist⟩ := Option.map_eq_some_iff.mp hrun
  obtain ⟨hregions, hnode⟩ := Prod.mk.inj hlist
  have hmem : ∀ x ∈ regionNodes w smallCtx.1,
      ((w.regions x).start, (w.regions x).pages) ∈ [(0x20000, 2), (0x10000, 0)] :=
    fun x hx => hregions ▸ List.mem_map_of_mem hx
  have hmap : smallLayout.hhdmOffset ∈ ({smallLayout.hhdmOffset} : Set ℕ) := rfl
  have hfree : ∀ x ∈ regionNodes w smallCtx.1, 1 ≤ (w.regions x).pages →
      Disjoint (Request.range ⟨0x22000, 0x5000, 2, 3⟩).points (span (w.regions x)).points := by
    intro x hx hp
    have hx := hmem x hx
    simp only [List.mem_cons, Prod.mk.injEq, List.not_mem_nil, or_false] at hx
    rw [apart_iff]
    simp only [Request.range, Request.lo, alignDown, span]
    omega
  obtain ⟨a, w', heq, hiff⟩ := vadd_accepts_iff (s := smallState) hforest hmap 0x10000 (by decide)
    (by decide +kernel) smallRequests (by decide) w hw ⟨0x22000, 0x5000, 2, 3⟩ (by decide)
    (by decide) (of_decide_eq_false hnode) hfree
  refine ⟨w, a, w', hw, heq, hiff.mpr ⟨by decide, fun x hx h0 => ?_⟩⟩
  have hx := hmem x hx
  rw [h0] at hx
  simp only [List.mem_cons, Prod.mk.injEq, List.not_mem_nil, or_false] at hx
  simp only [Request.lo, alignDown]
  omega

/-- The page at the address that the context starts with is refused, although
no page is there. -/
theorem vadd_refuses_start :
    (∀ x ∈ regionNodes smallCtx.2 smallCtx.1, (smallCtx.2.regions x).pages = 0) ∧
    (smallOps.palloc 1 true smallCtx.2.phys).1 ≠ 0 ∧
    (vadd smallOps smallLayout.hhdmOffset smallCtx.1 0x10000 0x9000 1 3 smallCtx.2).map Prod.fst =
      some 0 := by
  decide +kernel

end Emk.VmmAddition
