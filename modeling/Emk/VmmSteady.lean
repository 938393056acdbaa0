import Emk.VmmInverse

/-!
# Pages that the calls of a context pass by

`valloc` maps the pages of its new region and `vfree` releases those of the
region it finds. Every other page of the lower half keeps its frame, and no
byte of that frame changes: it is neither a page table nor a page of a node
nor the frame of another page.
-/

set_option autoImplicit false

namespace Emk.VmmSteady
open Emk.ByteMemory Emk.MachineWord Emk.DirectMap Emk.PageAllocator Emk.Paging Emk.Vmm
open Emk.PagingForest Emk.LinkedPath Emk.ReferenceAllocator Emk.VmmTenants Emk.VmmInverse
open Emk.Sched (translation translation_leaf vflagsToPflags_entry)
open Emk.VmmRuns (openEnd namedRegion PrevAccurate takeWhile_prefix)

variable {σ : Type} {D : Layout} {A : Ops σ} {F : FreeContract D A} {roots : Set ℕ}
  {shared : Set (Fin 512)} {K ctx : ℕ} {S : Set ℕ} {nodes : List ℕ} {s s' s'' : Phys σ}

/-- The pages of `S` that are mapped stay mapped to the same frames, and the
bytes of these frames stay. -/
def Undisturbed (D : Layout) (K : ℕ) (S : Set ℕ) (s s' : Phys σ) : Prop :=
  ∀ q ∈ S, translation D s.mem K (4096*q) ≠ 0 →
    translation D s'.mem K (4096*q) = translation D s.mem K (4096*q) ∧
      Set.EqOn s'.mem s.mem (frame D (translation D s.mem K (4096*q)))

theorem Undisturbed.refl (s : Phys σ) : Undisturbed D K S s s :=
  fun _ _ _ => ⟨rfl, fun _ _ => rfl⟩

theorem Undisturbed.trans (h : Undisturbed D K S s s') (h' : Undisturbed D K S s' s'') :
    Undisturbed D K S s s'' := by
  intro q hq h0
  obtain ⟨ht, hm⟩ := h q hq h0
  obtain ⟨ht', hm'⟩ := h' q hq (by rwa [ht])
  rw [ht] at hm'
  exact ⟨ht'.trans ht, fun x hx => (hm' hx).trans (hm hx)⟩

section Calls
variable (hS : ∀ q ∈ S, q < 2^35) (hh : Housed F.toContract roots K nodes s)
  (hf : Forest F.toContract roots shared s) (hK : K ∈ roots)
include hS hh hf hK

theorem undisturbed_range {pages : Set ℕ}
    (hw : RangeWrite F.toContract roots shared K pages s s') (hout : ∀ q ∈ S, q ∉ pages) :
    Undisturbed D K S s s' := by
  intro q hq h0
  have hlow := hS q hq
  have hold : Holds D K nodes s.mem (.page q) (translation D s.mem K (4096*q)) :=
    ⟨hlow, h0, rfl⟩
  refine ⟨translation_leaf hf hw.forest hK (hw.elsewhere K hK _ ?_), fun x hx => ?_⟩
  · rw [pageNumber_low hlow]
    exact hout q hq
  · exact hw.keeps ⟨_, ⟨hh.rented _ _ hold, hh.apart _ _ hold⟩, hx⟩

/-- The frame of another tenant is given back. -/
theorem undisturbed_pfree {t : Tenant} {f : ℕ} (hold : Holds D K nodes s.mem t f)
    (hout : ∀ q ∈ S, t ≠ .page q) : Undisturbed D K S s (A.pfree f 1 s) := by
  intro q hq h0
  have hpage : Holds D K nodes s.mem (.page q) (translation D s.mem K (4096*q)) :=
    ⟨hS q hq, h0, rfl⟩
  have hrel := pfree_released hf hK (hh.rented _ _ hold) (hh.apart _ _ hold)
  refine ⟨hrel.kept _ (Set.notMem_empty _), fun x hx => ?_⟩
  refine F.pfree_keeps hf.valid f (hh.rented _ _ hold) ⟨_, ⟨hh.rented _ _ hpage, ?_⟩, hx⟩
  intro he
  rw [Set.mem_singleton_iff] at he
  rw [he] at hpage
  exact hout q hq (hh.single _ _ _ hold hpage)

/-- One round of the loop in `vfree`. -/
theorem undisturbed_release {virt : ℕ} (ha : virt % 4096 = 0) (hlow : virt < 2^47)
    (h0 : translation D s.mem K virt ≠ 0) (hout : virt/4096 ∉ S) :
    Undisturbed D K S s
      (vunmap D.hhdmOffset K virt (A.pfree (translation D s.mem K virt) 1 s)).2 := by
  have hvirt : 4096*(virt/4096) = virt := by omega
  have hold : Holds D K nodes s.mem (.page (virt/4096)) (translation D s.mem K virt) :=
    ⟨by omega, h0, by rw [hvirt]⟩
  have hfree := pfree_released hf hK (hh.rented _ _ hold) (hh.apart _ _ hold)
  have hstep := undisturbed_pfree hS hh hf hK hold (fun q hq he => hout (Tenant.page.inj he ▸ hq))
  refine hstep.trans fun q hq hq0 => ?_
  have hpage : Holds D K nodes s.mem (.page q) (translation D s.mem K (4096*q)) := by
    refine ⟨hS q hq, ?_, rfl⟩
    rwa [hfree.kept _ (Set.notMem_empty _)] at hq0
  have hw := (vunmap_effect hfree.forest hK virt ha).2.range
  have hlow' := hS q hq
  refine ⟨translation_leaf hfree.forest hw.forest hK (hw.elsewhere K hK _ ?_), fun x hx => ?_⟩
  · rw [pageNumber_low hlow', Set.mem_singleton_iff, ← hvirt, pageNumber_low (by omega)]
    rintro rfl
    exact hout hq
  · rw [hfree.kept _ (Set.notMem_empty _)] at hx
    refine hw.keeps ⟨_, ⟨?_, fun hin => ?_⟩, hx⟩
    · rw [hfree.owned]
      refine ⟨hh.rented _ _ hpage, fun he => ?_⟩
      rw [Set.mem_singleton_iff] at he
      rw [he] at hpage
      have hsame := Tenant.page.inj (hh.single _ _ _ hpage hold)
      exact hout (hsame ▸ hq)
    · exact hh.apart _ _ hpage (hfree.tables hin)

end Calls

theorem undisturbed_releasePages (hS : ∀ q ∈ S, q < 2^35) (start n i : ℕ)
    (hh : Housed F.toContract roots K nodes s) (hf : Forest F.toContract roots shared s)
    (hK : K ∈ roots) (ha : start % 4096 = 0) (hlow : n = 0 ∨ start+4096*(i+n) ≤ 2^47)
    (hout : ∀ j < n, start/4096+(i+j) ∉ S) :
    Undisturbed D K S s (releasePages A D.hhdmOffset K K start n i s) := by
  induction n generalizing i s with
  | zero => exact Undisturbed.refl s
  | succ n ih =>
    have hlow' := hlow.resolve_left (by omega)
    have hwrap : wrap (start+4096*i) = start+4096*i := wrap_of_lt (by omega)
    have hrest : ∀ j < n, start/4096+(i+1+j) ∉ S := by
      intro j hj
      have := hout (j+1) (by omega)
      rwa [show i+(j+1) = i+1+j by omega] at this
    rw [releasePages]
    split_ifs with h0
    · have hpage : wrap (start+4096*i)/4096 ∉ S := by
        have := hout 0 (by omega)
        rw [hwrap]
        rwa [show (start+4096*i)/4096 = start/4096+(i+0) by omega]
      have hal : wrap (start+4096*i) % 4096 = 0 := by rw [hwrap]; omega
      have hin : wrap (start+4096*i) < 2^47 := by rw [hwrap]; omega
      obtain ⟨hr, hh'⟩ := release_page hh hf hK _ hal hin h0
      exact (undisturbed_release hS hh hf hK hal hin h0 hpage).trans
        (ih (i+1) hh' hr.forest (.inr (by omega)) hrest)
    · exact ih (i+1) hh hf (.inr (by omega)) hrest

section Contexts
variable {s : State σ}

/-- The regions of a list that a call left in it are as they were. -/
def SameRegion (s s' : State σ) (y : ℕ) : Prop :=
  (s'.regions y).start = (s.regions y).start ∧ (s'.regions y).pages = (s.regions y).pages

theorem valloc_passes (hS : ∀ q ∈ S, q < 2^35) (hi : Inv F roots shared K ctx s nodes)
    (hK : K ∈ roots) (hctx : ctx ≠ 0) (n flags : ℕ) (hlow : openEnd ctx s+4096*n ≤ 2^47)
    (hout : ∀ j < n, openEnd ctx s/4096+j ∉ S) :
    ∃ r nodes', valloc A D.hhdmOffset ctx n flags s = some r ∧
      Inv F roots shared K ctx r.2 nodes' ∧ Undisturbed D K S s.phys r.2.phys ∧
      (∀ y ∈ nodes, y ∈ nodes' ∧ SameRegion s r.2 y) ∧
      ∀ y ∈ nodes', y ∈ nodes ∨
        (r.2.regions y).start = openEnd ctx s ∧ (r.2.regions y).pages = n := by
  by_cases hnil : nodes = []
  · rw [valloc, placeRegion, if_pos (.inr (.inl (hi.listed.root_nil hnil)))]
    exact ⟨_, nodes, rfl, hi, Undisturbed.refl _, fun y hy => ⟨hy, rfl, rfl⟩, fun y hy => .inl hy⟩
  obtain ⟨pre, x, post, rfl, hfind⟩ := hi.listed.findRegion holeBehind hnil
  have hne : newNode A s ≠ x := fun he => hi.fresh (by rw [← newNode, he]; simp)
  have hend := (openEnd_eq hfind).2
  have hq := palloc_quiet hi.forest true
  rw [valloc, placeRegion_eq A D.hhdmOffset hi.listed _ _ (by simp) hfind hctx
    (hi.pagemap_ne hK) hne]
  dsimp only
  by_cases h0 : (A.palloc 1 true s.phys).1 = 0
  · rw [if_pos h0]
    exact ⟨_, _, rfl, hi.phys hK hq, undisturbed_range hS hi.housed hi.forest hK (hq.range ∅)
      (fun q _ => Set.notMem_empty q), fun y hy => ⟨hy, rfl, rfl⟩, fun y hy => .inl hy⟩
  · rw [if_neg h0, hi.pagemap]
    have hflags := vflagsToPflags_entry flags
    have hfill := fillRegion_range (A := A) hq.forest hK hflags.lt (regionEnd (s.regions x)) n 0
    have hal := regionEnd_aligned (hi.aligned x (by simp))
    rw [hend] at hlow hout
    refine ⟨_, _, rfl, hi.place hK h0 n flags hlow, ?_, fun y hy => ⟨?_, ?_⟩, fun y hy => ?_⟩
    · refine undisturbed_range hS hi.housed hi.forest hK ((hq.range _).trans hfill) ?_
      rintro q hq' ⟨j, -, hj, rfl⟩
      rw [pageNumber_wrap, pageNumber_add, Nat.mod_eq_of_lt (by omega)] at hq'
      exact hout j (by omega) hq'
    · simp only [List.mem_append, List.mem_cons] at hy ⊢
      tauto
    · have hyn : y ≠ newNode A s := fun he => hi.fresh (by rw [← newNode, ← he]; exact hy)
      have hold := insertAfter_old n flags s hne (s.regions x).next hyn
      exact ⟨hold.1, hold.2.1⟩
    · by_cases hyn : y = newNode A s
      · right
        have hnew := insertAfter_new n flags s hne (s.regions x).next
        rw [hyn, hend]
        exact ⟨congrArg Vregion.start hnew, congrArg Vregion.pages hnew⟩
      · left
        simp only [List.mem_append, List.mem_cons] at hy ⊢
        tauto

theorem vfree_passes (hS : ∀ q ∈ S, q < 2^35) (hi : Inv F roots shared K ctx s nodes)
    (hK : K ∈ roots) (hctx : ctx ≠ 0) {ptr : ℕ} (ho : Orderly ctx s (.vfree ptr))
    (hout : ∀ x ∈ nodes, (s.regions x).start = ptr →
      ∀ j < (s.regions x).pages, (s.regions x).start/4096+j ∉ S) :
    ∃ s' nodes', vfree A D.hhdmOffset K ctx ptr s = some s' ∧
      Inv F roots shared K ctx s' nodes' ∧ Undisturbed D K S s.phys s'.phys ∧
      ∀ y ∈ nodes', y ∈ nodes ∧ SameRegion s s' y := by
  rcases vfree_eq A D.hhdmOffset K hi.listed hctx ptr with
    ⟨heq, -⟩ | ⟨pre, x, post, rfl, hptr, -, hfind, heq⟩
  · exact ⟨s, nodes, heq, hi, Undisturbed.refl _, fun y hy => ⟨hy, rfl, rfl⟩⟩
  · have hx : x ∈ pre ++ x::post := by simp
    have hx0 : x ≠ 0 := hi.listed.nonzero hx
    have hname : namedRegion ctx s ptr = x := by rw [namedRegion, hfind, Option.getD_some]
    have hprev : (s.regions x).prev = tip 0 pre := by
      have hacc := ho.resolve_left (fun h0 => hx0 (hname ▸ h0))
      have hpre := hi.listed.nodup
      rw [PrevAccurate, hname, hi.listed.regionNodes_eq, takeWhile_prefix] at hacc
      · exact hacc
      · simp only [List.nodup_cons, List.nodup_append, List.mem_cons] at hpre
        exact fun hin => hpre.2.2.2 x hin x (.inl rfl) rfl
    have hout' := hout x hx hptr
    obtain ⟨hl, hsame⟩ := hi.listed.unlinkRegion
    obtain ⟨f, hfo, hxf⟩ := hi.owned x hx
    have hal := hi.aligned x hx
    have hlow := hi.low x hx
    obtain ⟨hr, hh⟩ := releasePages_released (s.regions x).start (s.regions x).pages 0 hi.housed
      hi.forest hK hal (by rw [Nat.zero_add]; exact hlow)
    have hfirst := undisturbed_releasePages hS (s.regions x).start (s.regions x).pages 0 hi.housed
      hi.forest hK hal (by rw [Nat.zero_add]; exact hlow)
      (fun j hj => by rw [Nat.zero_add]; exact hout' j hj)
    have hnode : Holds D K (pre ++ x::post) (releasePages A D.hhdmOffset K K (s.regions x).start
        (s.regions x).pages 0 s.phys).mem (.node x) f := ⟨hx, hxf⟩
    have hlast := undisturbed_pfree hS hh hr.forest hK hnode (fun q _ => by simp)
    rw [heq, hprev, hi.pagemap]
    refine ⟨_, _, rfl, (hi.release hK).1, ?_, fun y hy => ⟨?_, hsame y hy⟩⟩
    · rw [← F.pfree_pointer hr.forest.valid f (hh.rented _ _ hnode), ← hxf] at hlast
      exact hfirst.trans hlast
    · simp only [List.mem_append, List.mem_cons] at hy ⊢
      tauto

end Contexts

end Emk.VmmSteady
