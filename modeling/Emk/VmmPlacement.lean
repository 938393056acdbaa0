import Emk.OrderedSpans
import Emk.VmmRuns

/-!
# Where `vallocat` places a region

`vallocat` looks for a gap with the size of the new region, counted from the
start of the region in front of the gap, and places the new region at that
region's end. The two agree only when there happens to be room.
-/

set_option autoImplicit false

namespace Emk.VmmPlacement
open Emk.ByteMemory Emk.MachineWord Emk.DirectMap Emk.PageAllocator Emk.Paging Emk.Vmm
open Emk.OrderedSpans Emk.ReferenceAllocator

def span (r : Vregion) : Span ℕ := ⟨r.start, r.start+4096*r.pages⟩

def spans (regions : ℕ → Vregion) (nodes : List ℕ) : List (Span ℕ) :=
  nodes.map (fun x => span (regions x))

/-- The test that ends the search of `vallocat`. -/
abbrev gapAtStart (pages : ℕ) (r n : Vregion) : Prop := wrap (r.start+4096*pages) < n.start

variable {σ : Type} {A : Ops σ} {hhdmOffset ctx pages flags phys : ℕ} {s : State σ}
  {pre post : List ℕ} {x : ℕ}

theorem spans_split (regions : ℕ → Vregion) (pre post : List ℕ) (x : ℕ) :
    spans regions (pre ++ x::post) =
      spans regions pre ++ span (regions x)::spans regions post := by
  simp [spans]

theorem spans_cons (regions : ℕ → Vregion) (x : ℕ) (nodes : List ℕ) :
    spans regions (x::nodes) = span (regions x)::spans regions nodes := List.map_cons

theorem forall_mem_spans {regions : ℕ → Vregion} {nodes : List ℕ} {P : Span ℕ → Prop} :
    (∀ r ∈ spans regions nodes, P r) ↔ ∀ y ∈ nodes, P (span (regions y)) := List.forall_mem_map

theorem spans_congr {s' : State σ} {nodes : List ℕ} (h : SameRange s s' nodes) :
    spans s'.regions nodes = spans s.regions nodes := by
  apply List.map_congr_left
  intro y hy
  rw [span, span, (h y hy).1, (h y hy).2]

section Place
variable (hctx : ctx ≠ 0) (hpm : (s.ctxs ctx).pagemap ≠ 0) (hl : Listed s ctx (pre ++ x::post))
  (hfind : findRegion s.regions (gapAtStart pages) rounds (s.ctxs ctx).root = some x)
  (hnode : (A.palloc 1 true s.phys).1 ≠ 0) (hfresh : (A.palloc 1 true s.phys).1 ∉ pre ++ x::post)
  (hptr : (A.palloc 1 true s.phys).1 < 2^64)
include hctx hpm hl hfind hnode hfresh hptr

variable (hhdmOffset flags phys) in
/-- The node that `vallocat` links behind the region it stops at. -/
theorem vallocat_placed : ∃ a s', vallocat A hhdmOffset ctx pages flags phys s = some (a, s') ∧
    Listed s' ctx (pre ++ x::(A.palloc 1 true s.phys).1::post) ∧
    s'.regions (A.palloc 1 true s.phys).1 =
      ⟨regionEnd (s.regions x), pages, vflagsToPflags flags, (s.regions x).next, x⟩ ∧
    SameRange s s' (pre ++ x::post) := by
  have hx : x ∈ pre ++ x::post := by simp
  have hne : (A.palloc 1 true s.phys).1 ≠ x := fun he => hfresh (he ▸ hx)
  obtain ⟨hl', hsame⟩ := hl.insertAfter pages flags hnode hfresh hptr
  rw [vallocat, placeRegion_eq A hhdmOffset hl _ _ hx hfind hctx hpm hne]
  dsimp only
  rw [if_neg hnode]
  refine ⟨_, _, rfl, hl'.phys _, ?_, hsame⟩
  dsimp only
  rw [insertAfter_new _ _ _ hne]

variable (hhdmOffset flags phys) in
/-- The new region keeps clear of all others and the list in order exactly
when the gap behind the region at which the search stops is large enough. -/
theorem vallocat_keeps_order (harr : Arranged (spans s.regions (pre ++ x::post)))
    (hpages : 1 ≤ pages) (hwrap : (s.regions x).start+4096*(s.regions x).pages < 2^64) :
    ∃ a s', vallocat A hhdmOffset ctx pages flags phys s = some (a, s') ∧
      (((∀ y ∈ pre ++ x::post, Disjoint (span (s'.regions (A.palloc 1 true s.phys).1)).points
          (span (s'.regions y)).points) ∧
        Sorted (spans s'.regions (regionNodes s' ctx))) ↔
      RoomBehind (spans s.regions pre) (span (s.regions x)) (spans s.regions post)
        (regionEnd (s.regions x)+4096*pages)) := by
  obtain ⟨a, s', h, hl', hnew, hsame⟩ :=
    vallocat_placed hhdmOffset flags phys hctx hpm hl hfind hnode hfresh hptr
  refine ⟨a, s', h, ?_⟩
  have hend : regionEnd (s.regions x) = (span (s.regions x)).hi := wrap_of_lt hwrap
  have hspan : span (s'.regions (A.palloc 1 true s.phys).1) =
      ⟨(span (s.regions x)).hi, regionEnd (s.regions x)+4096*pages⟩ := by
    rw [span, hnew, ← hend]
  have hpre : spans s'.regions pre = spans s.regions pre :=
    spans_congr (fun y hy => hsame y (by simp [hy]))
  have hpost : spans s'.regions post = spans s.regions post :=
    spans_congr (fun y hy => hsame y (by simp [hy]))
  have hx : span (s'.regions x) = span (s.regions x) := by
    rw [span, span, (hsame x (by simp)).1, (hsame x (by simp)).2]
  have hall : spans s'.regions (pre ++ x::(A.palloc 1 true s.phys).1::post) =
      spans s.regions pre ++ span (s.regions x)::
        ⟨(span (s.regions x)).hi, regionEnd (s.regions x)+4096*pages⟩::spans s.regions post := by
    rw [spans_split, spans_cons, hpre, hpost, hx, hspan]
  rw [spans_split] at harr
  rw [hl'.regionNodes_eq, hall, hspan, ← harr.insert_iff (by omega), ← spans_split,
    ← spans_congr hsame, forall_mem_spans]

end Place

/-- Four pages at `0x1000`, a hole of one page, and one page at `0x6000`. -/
def gappedState : State (List ℕ) :=
  ((VmmRuns.smallRun [.valloc 4 3, .valloc 1 3, .valloc 1 3, .vfree 0x5000]).map (·.vmm)).getD
    VmmRuns.smallState

def gappedCtx : ℕ := (vinit smallOps smallLayout.hhdmOffset 0x1000 VmmRuns.smallState).1

def gappedNode (k : ℕ) : ℕ := smallLayout.hhdmOffset+4096*k

theorem gapped_listed :
    Listed gappedState gappedCtx [gappedNode 2, gappedNode 3, gappedNode 13] := by
  constructor
  all_goals decide +kernel

theorem gapped_arranged :
    Arranged (spans gappedState.regions [gappedNode 2, gappedNode 3, gappedNode 13]) := by
  have hspans : spans gappedState.regions [gappedNode 2, gappedNode 3, gappedNode 13] =
      [⟨0x1000, 0x1000⟩, ⟨0x1000, 0x5000⟩, ⟨0x6000, 0x7000⟩] := by decide +kernel
  rw [hspans]
  refine ⟨by decide, by decide, ?_⟩
  have hapart : [Span.mk 0x1000 0x1000, ⟨0x1000, 0x5000⟩, ⟨0x6000, 0x7000⟩].Pairwise
      (fun r q => min r.hi q.hi ≤ max r.lo q.lo) := by decide
  exact hapart.imp apart_iff.mpr

theorem vallocat_keeps_order_small :
    ∃ a s', vallocat smallOps smallLayout.hhdmOffset gappedCtx 1 3 0x9000 gappedState =
        some (a, s') ∧ Sorted (spans s'.regions (regionNodes s' gappedCtx)) := by
  have hl : Listed gappedState gappedCtx ([gappedNode 2] ++ gappedNode 3::[gappedNode 13]) :=
    gapped_listed
  obtain ⟨a, s', h, hiff⟩ := vallocat_keeps_order (A := smallOps) smallLayout.hhdmOffset 3 0x9000
    (by decide +kernel) (by decide +kernel) hl (by decide +kernel) (by decide +kernel)
    (by decide +kernel) (by decide +kernel) gapped_arranged (le_refl 1) (by decide +kernel)
  exact ⟨a, s', h, (hiff.mpr (by decide +kernel)).2⟩

/-- Two pages are placed in the hole of one page. -/
theorem vallocat_overfills_gap :
    ∃ a s', vallocat smallOps smallLayout.hhdmOffset gappedCtx 2 3 0x9000 gappedState =
        some (a, s') ∧ ¬ ((∀ y ∈ regionNodes gappedState gappedCtx,
          Disjoint (span (s'.regions (smallOps.palloc 1 true gappedState.phys).1)).points
            (span (s'.regions y)).points) ∧
        Sorted (spans s'.regions (regionNodes s' gappedCtx))) := by
  have hrun : (vallocat smallOps smallLayout.hhdmOffset gappedCtx 2 3 0x9000 gappedState).map
      (fun r => (span (r.2.regions (smallOps.palloc 1 true gappedState.phys).1),
        span (r.2.regions (gappedNode 13)))) = some (⟨0x5000, 0x7000⟩, ⟨0x6000, 0x7000⟩) := by
    decide +kernel
  obtain ⟨⟨a, s'⟩, h, hspans⟩ := Option.map_eq_some_iff.mp hrun
  obtain ⟨hnew, hnext⟩ := Prod.mk.inj hspans
  refine ⟨a, s', h, fun hall => ?_⟩
  have hapart := hall.1 (gappedNode 13) (by decide +kernel)
  rw [hnew, hnext, apart_iff] at hapart
  exact absurd hapart (by decide)

end Emk.VmmPlacement
