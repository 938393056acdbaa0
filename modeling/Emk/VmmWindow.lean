import Emk.VmmAtomicity
import Emk.VmmPlacement

/-!
# The window that `vallocat` opens

`vallocat` maps whole frames and returns the start of the region it placed.
The pointer shows the physical byte asked for only when the start happens to
lie as far into its page as that byte into its frame.
-/

set_option autoImplicit false

namespace Emk.VmmWindow
open Emk.ByteMemory Emk.MachineWord Emk.DirectMap Emk.PageAllocator Emk.Paging Emk.Vmm
open Emk.PagingForest Emk.ReferenceAllocator
open Emk.Sched (translation translation_page EntryFlags vflagsToPflags_entry)
open Emk.VmmPlacement (gapAtStart)
open Emk.VmmRuns (smallState)

/-- From `v` on, to the end of `pages` frames, virtual bytes are the physical
bytes from `phys` on. -/
def Window (D : Layout) (m : Mem) (pm v phys pages : ℕ) : Prop :=
  ∀ k, phys % 4096+k < 4096*pages →
    translation D m pm (v+k) ≠ 0 ∧ translation D m pm (v+k)+(v+k) % 4096 = phys+k

variable {σ : Type} {D : Layout} {A : Ops σ} {C : Contract D A} {roots : Set ℕ}
  {shared : Set (Fin 512)}

theorem fillRegion_fixed (hhdmOffset r start paddr flags n i : ℕ) (s : Phys σ)
    (hne : ∀ j, i ≤ j → j < i+n → wrap (paddr+4096*j) ≠ 0) :
    fillRegion A hhdmOffset (fun i p => (wrap (paddr+4096*i), p)) r start flags n i s =
      (true, mapPages A hhdmOffset r start paddr flags n i s) := by
  induction n generalizing i s with
  | zero => rfl
  | succ n ih =>
    rw [fillRegion, mapPages]
    dsimp only
    rw [if_neg (hne i le_rfl (by omega))]
    exact ih (i+1) _ (fun j h1 h2 => hne j (by omega) (by omega))

section Pages
variable {s : Phys σ} {r v phys flags pages : ℕ} (hf : Forest C roots shared s) (hr : r ∈ roots)
  (hflags : EntryFlags flags) (hphys : 4096 ≤ phys) (hpages : 1 ≤ pages)
  (hbelow : alignDown phys 4096+4096*pages ≤ 2^52) (hwrap : v+4096*pages < 2^64)
  (hall : MapsAll A D.hhdmOffset r v (alignDown phys 4096) flags pages 0 s)
include hf hr hflags hphys hpages hbelow hwrap hall

omit hphys hpages in
theorem mapPages_translation {j : ℕ} (hj : j < pages) (hlast : pages ≤ j+2^36) :
    translation D (mapPages A D.hhdmOffset r v (alignDown phys 4096) flags pages 0 s).mem r
      (v+4096*j) = alignDown phys 4096+4096*j := by
  have hentry := mapPages_last hf hr hflags.lt v (alignDown phys 4096) pages 0 hall
    (Nat.zero_le j) (by omega) (by omega)
  rw [wrap_of_lt (by omega), wrap_of_lt (by omega)] at hentry
  have hforest := (mapPages_range (A := A) hf hr hflags.lt v (alignDown phys 4096) pages 0).forest
  have hpage : (alignDown phys 4096+4096*j) % 4096 = 0 := by
    rw [alignDown]
    omega
  exact hflags.translation hforest hr hpage (by omega) hentry

/-- Mapping the frames from `phys` on opens the window exactly when `v` has
the page offset of `phys` and no page is mapped twice. -/
theorem mapPages_window_iff :
    Window D (mapPages A D.hhdmOffset r v (alignDown phys 4096) flags pages 0 s).mem r v phys
      pages ↔ phys % 4096 = v % 4096 ∧ pages ≤ 2^36 := by
  have hforest := (mapPages_range (A := A) hf hr hflags.lt v (alignDown phys 4096) pages 0).forest
  have hsplit : phys = alignDown phys 4096+phys % 4096 := by
    rw [alignDown]
    omega
  constructor
  · intro hwindow
    -- the last page that falls on the page of `v`
    have hlast := mapPages_translation hf hr hflags hbelow hwrap hall
      (j := (pages-1)/2^36*2^36) (by omega) (by omega)
    have hsame : pageNumber (v+0) = pageNumber (v+4096*((pages-1)/2^36*2^36)) := by
      rw [pageNumber, pageNumber]
      omega
    have hfirst := (hwindow 0 (by omega)).2
    rw [translation_page hforest hr hsame, hlast] at hfirst
    omega
  · rintro ⟨hoffset, hn⟩ k hk
    have hpage : pageNumber (v+k) = pageNumber (v+4096*((phys % 4096+k)/4096)) := by
      rw [pageNumber, pageNumber]
      omega
    rw [translation_page hforest hr hpage,
      mapPages_translation hf hr hflags hbelow hwrap hall (by omega) (by omega)]
    rw [alignDown] at hsplit ⊢
    omega

end Pages

/-- The end of the region behind which `vallocat` places a new one. -/
def placeEnd (ctx pages : ℕ) (s : State σ) : ℕ :=
  regionEnd (s.regions ((findRegion s.regions (gapAtStart pages) rounds
    (s.ctxs ctx).root).getD 0))

variable {ctx pm : ℕ} {s : State σ} {nodes : List ℕ}

/-- `vallocat` gives up, or maps the frames from the end of a region on. -/
theorem vallocat_cases (hc : CtxOwned C roots shared ctx pm s nodes) (hpm : pm ∈ roots)
    (hctx : ctx ≠ 0) (pages flags : ℕ) {phys : ℕ} (hphys : 4096 ≤ phys)
    (hbelow : alignDown phys 4096+4096*pages ≤ 2^52) :
    ∃ v s', vallocat A D.hhdmOffset ctx pages flags phys s = some (v, s') ∧
      (v ≠ 0 → v = placeEnd ctx pages s ∧
        s'.phys = mapPages A D.hhdmOffset pm v (alignDown phys 4096) (vflagsToPflags flags) pages 0
          (A.palloc 1 true s.phys).2) := by
  by_cases hnil : nodes = []
  · refine ⟨0, s, ?_, fun h => absurd rfl h⟩
    rw [vallocat, placeRegion, if_pos (.inr (.inl (hc.listed.root_nil hnil)))]
  have hmap : (s.ctxs ctx).pagemap ≠ 0 := by
    rw [hc.pagemap]
    exact hc.forest.root_ne_zero hpm
  obtain ⟨pre, x, post, hnodes, hfind⟩ := hc.listed.findRegion (gapAtStart pages) hnil
  have hx : x ∈ nodes := by simp [hnodes]
  have hend : placeEnd ctx pages s = regionEnd (s.regions x) := by
    rw [placeEnd, hfind]
    rfl
  have hne : (A.palloc 1 true s.phys).1 ≠ x := fun he => hc.fresh (he ▸ hx)
  rw [vallocat, placeRegion_eq A D.hhdmOffset hc.listed _ _ hx hfind hctx hmap hne]
  dsimp only
  by_cases h0 : (A.palloc 1 true s.phys).1 = 0
  · rw [if_pos h0]
    exact ⟨_, _, rfl, fun h => absurd rfl h⟩
  · rw [if_neg h0, hc.pagemap, hend]
    rw [fillRegion_fixed]
    · exact ⟨_, _, rfl, fun _ => ⟨rfl, rfl⟩⟩
    · intro j _ hj
      rw [alignDown] at hbelow ⊢
      rw [wrap_of_lt (by omega)]
      omega

/-- The pointer that `vallocat` returns shows the physical bytes asked for
exactly when the region in front of the new one ends at the page offset of the
physical address. -/
theorem vallocat_window_iff (hc : CtxOwned C roots shared ctx pm s nodes) (hpm : pm ∈ roots)
    (hctx : ctx ≠ 0) {pages phys : ℕ} (flags : ℕ) (hpages : 1 ≤ pages) (hphys : 4096 ≤ phys)
    (hbelow : alignDown phys 4096+4096*pages ≤ 2^52)
    (hwrap : placeEnd ctx pages s+4096*pages < 2^64)
    (hall : MapsAll A D.hhdmOffset pm (placeEnd ctx pages s) (alignDown phys 4096)
      (vflagsToPflags flags) pages 0 (A.palloc 1 true s.phys).2) :
    ∃ v s', vallocat A D.hhdmOffset ctx pages flags phys s = some (v, s') ∧
      (v ≠ 0 → (Window D s'.phys.mem pm v phys pages ↔
        phys % 4096 = placeEnd ctx pages s % 4096 ∧ pages ≤ 2^36)) := by
  obtain ⟨v, s', heq, hplaced⟩ := vallocat_cases hc hpm hctx pages flags hphys hbelow
  refine ⟨v, s', heq, fun hv => ?_⟩
  obtain ⟨rfl, hmem⟩ := hplaced hv
  rw [hmem]
  exact mapPages_window_iff (palloc_quiet hc.forest true).forest hpm (vflagsToPflags_entry flags)
    hphys hpages hbelow hwrap hall

def smallCtx : ℕ × State (List ℕ) := VmmAtomicity.smallCtx

theorem vallocat_window_iff_small :
    ∃ v s', vallocat smallOps smallLayout.hhdmOffset smallCtx.1 2 3 0x9000 smallCtx.2 =
        some (v, s') ∧
      v ≠ 0 ∧ Window smallLayout s'.phys.mem smallLayout.hhdmOffset v 0x9000 2 := by
  have hforest := (forest_zeroed smallTightContract.toContract ∅ smallPhys_valid smallPhys_owned
    (fun _ _ => rfl)).1
  obtain ⟨root, hc, -⟩ := vinit_ctxOwned (s := smallState) hforest smallLayout.hhdmOffset 0x1000
    (by decide +kernel)
  obtain ⟨v, s', heq, hiff⟩ := vallocat_window_iff hc rfl (by decide +kernel) 3
    (show 1 ≤ 2 by decide) (show 4096 ≤ 0x9000 by decide) (by decide) (by decide +kernel)
    (by decide +kernel)
  have hv : (vallocat smallOps smallLayout.hhdmOffset smallCtx.1 2 3 0x9000 smallCtx.2).map
      (fun r => r.1) = some 0x1000 := by decide +kernel
  have hne : v ≠ 0 := by
    obtain ⟨⟨v', t⟩, hcall, rfl⟩ := Option.map_eq_some_iff.mp hv
    obtain ⟨rfl, -⟩ := Prod.mk.inj (Option.some.inj (hcall.symm.trans heq))
    decide
  exact ⟨v, s', heq, hne, (hiff hne).mpr (by decide +kernel)⟩

/-- Asked for the byte `0x5010`, `vallocat` returns a pointer to the byte
`0x5000`. -/
theorem vallocat_drops_offset :
    ∃ v s', vallocat smallOps smallLayout.hhdmOffset smallCtx.1 1 3 0x5010 smallCtx.2 =
        some (v, s') ∧
      v ≠ 0 ∧ ¬ Window smallLayout s'.phys.mem smallLayout.hhdmOffset v 0x5010 1 := by
  have hrun : (vallocat smallOps smallLayout.hhdmOffset smallCtx.1 1 3 0x5010 smallCtx.2).map
      (fun r => (r.1, translation smallLayout r.2.phys.mem smallLayout.hhdmOffset r.1)) =
      some (0x1000, 0x5000) := by decide +kernel
  obtain ⟨⟨v, s'⟩, heq, hout⟩ := Option.map_eq_some_iff.mp hrun
  obtain ⟨rfl, hfirst⟩ := Prod.mk.inj hout
  refine ⟨_, s', heq, by decide, fun hwindow => ?_⟩
  have hbyte := (hwindow 0 (by decide)).2
  rw [Nat.add_zero, hfirst] at hbyte
  exact absurd hbyte (by decide)

end Emk.VmmWindow
