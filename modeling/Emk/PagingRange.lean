import Emk.PagingEffect
import Emk.Vmm

/-!
# Mapping ranges of pages

The loops of the region allocator map consecutive pages. Only the leaf
entries of those pages can change, another page map notices only under a
shared slot, and when no call fails every page has the entry written for it.
-/

set_option autoImplicit false

namespace Emk.PagingForest
open Emk.ByteMemory Emk.MachineWord Emk.DirectMap Emk.PageAllocator Emk.Paging Emk.Vmm

variable {σ : Type} {D : Layout} {A : Ops σ} {C : Contract D A} {roots : Set ℕ}
  {shared : Set (Fin 512)} {s s' s'' : Phys σ} {r : ℕ}

/-- Leaf entries change at most at `pages`, and for other page maps than `r`
only under a shared slot. -/
structure RangeWrite (C : Contract D A) (roots : Set ℕ) (shared : Set (Fin 512)) (r : ℕ)
    (pages : Set ℕ) (s s' : Phys σ) : Prop extends Extends C roots shared s s' where
  elsewhere : ∀ r' ∈ roots, ∀ v, pageNumber v ∉ pages →
    leafEntry D s'.mem r' v = leafEntry D s.mem r' v
  others : ∀ r' ∈ roots, r' ≠ r → ∀ v, ix v pml4Shift ∉ shared →
    leafEntry D s'.mem r' v = leafEntry D s.mem r' v

theorem Quiet.range (h : Quiet C roots shared s s') (pages : Set ℕ) :
    RangeWrite C roots shared r pages s s' where
  toExtends := h.toExtends
  elsewhere := fun r' hr' v _ => h.leaf r' hr' v
  others := fun r' hr' _ v _ => h.leaf r' hr' v

theorem LeafWrite.range {virt e : ℕ} (h : LeafWrite C roots shared r virt e s s') :
    RangeWrite C roots shared r {pageNumber virt} s s' where
  toExtends := h.toExtends
  elsewhere := fun r' hr' v hv => h.elsewhere r' hr' v hv
  others := by
    intro r' hr' hne v hv
    by_cases hp : pageNumber v = pageNumber virt
    · rw [leafEntry_page hp, leafEntry_page hp]
      refine (h.others r' hr' hne).resolve_right (fun hs => hv ?_)
      rw [ix_of_page hp]
      exact (under_tablePath shared virt).mp hs.1
    · exact h.elsewhere r' hr' v hp

theorem RangeWrite.mono {pages pages' : Set ℕ} (h : RangeWrite C roots shared r pages s s')
    (hsub : pages ⊆ pages') : RangeWrite C roots shared r pages' s s' where
  toExtends := h.toExtends
  elsewhere := fun r' hr' v hv => h.elsewhere r' hr' v (fun hin => hv (hsub hin))
  others := h.others

theorem RangeWrite.trans {pages : Set ℕ} (h : RangeWrite C roots shared r pages s s')
    (h' : RangeWrite C roots shared r pages s' s'') : RangeWrite C roots shared r pages s s'' where
  toExtends := h.toExtends.trans h'.toExtends
  elsewhere := fun r' hr' v hv => (h'.elsewhere r' hr' v hv).trans (h.elsewhere r' hr' v hv)
  others := fun r' hr' hne v hv => (h'.others r' hr' hne v hv).trans (h.others r' hr' hne v hv)

theorem vmap_range (hf : Forest C roots shared s) (hr : r ∈ roots) (virt phys flags : ℕ)
    (he : phys ||| flags < 2^64) :
    RangeWrite C roots shared r {pageNumber virt} s
      (vmap A D.hhdmOffset r virt phys flags s).2 := by
  rcases vmap_effect hf hr virt phys flags he with ⟨-, -, hq⟩ | ⟨-, hw⟩
  · exact hq.range _
  · exact hw.range

theorem pageNumber_wrap (x : ℕ) : pageNumber (wrap x) = pageNumber x := by
  rw [pageNumber, pageNumber, wrap]
  omega

theorem pageNumber_add (x i : ℕ) : pageNumber (x+4096*i) = (x/4096+i) % 2^36 := by
  rw [pageNumber]
  congr 1
  omega

theorem pageNumber_inj {x i j : ℕ} (hi : i < 2^36) (hj : j < 2^36)
    (h : pageNumber (wrap (x+4096*i)) = pageNumber (wrap (x+4096*j))) : i = j := by
  rw [pageNumber_wrap, pageNumber_wrap, pageNumber_add, pageNumber_add] at h
  omega

/-- The pages of `n` consecutive page addresses, from the `i`-th on. -/
def pagesOf (start i n : ℕ) : Set ℕ :=
  {q | ∃ j, i ≤ j ∧ j < i+n ∧ q = pageNumber (wrap (start+4096*j))}

theorem pagesOf_succ (start i n : ℕ) : pagesOf start (i+1) n ⊆ pagesOf start i (n+1) := by
  rintro q ⟨j, h1, h2, rfl⟩
  exact ⟨j, by omega, by omega, rfl⟩

theorem pagesOf_head (start i n : ℕ) :
    {pageNumber (wrap (start+4096*i))} ⊆ pagesOf start i (n+1) := by
  rintro q rfl
  exact ⟨i, le_rfl, by omega, rfl⟩

theorem not_mem_pagesOf_succ {start i n : ℕ} (hn : n < 2^36) :
    pageNumber (wrap (start+4096*i)) ∉ pagesOf start (i+1) n := by
  rintro ⟨j, h1, h2, he⟩
  rw [pageNumber_wrap, pageNumber_wrap, pageNumber_add, pageNumber_add] at he
  omega

theorem wrap_or_lt {x flags : ℕ} (hflags : flags < 2^64) : wrap x ||| flags < 2^64 :=
  Nat.or_lt_two_pow (wrap_lt x) hflags

theorem Forest.quiet_self (hf : Forest C roots shared s) : Quiet C roots shared s s :=
  ⟨⟨hf, subset_rfl, fun _ _ => rfl, fun _ h _ => h, fun _ _ _ _ _ h => h⟩, fun _ _ _ => rfl⟩

theorem mapPages_range (hf : Forest C roots shared s) (hr : r ∈ roots) {flags : ℕ}
    (hflags : flags < 2^64) (vaddr paddr n i : ℕ) :
    RangeWrite C roots shared r (pagesOf vaddr i n) s
      (mapPages A D.hhdmOffset r vaddr paddr flags n i s) := by
  induction n generalizing i s with
  | zero => exact hf.quiet_self.range _
  | succ n ih =>
    have hstep := vmap_range (A := A) hf hr (wrap (vaddr+4096*i)) (wrap (paddr+4096*i)) flags
      (wrap_or_lt hflags)
    exact (hstep.mono (pagesOf_head vaddr i n)).trans
      ((ih hstep.forest (i+1)).mono (pagesOf_succ vaddr i n))

/-- No `vmap` call of the loop fails. -/
def MapsAll (A : Ops σ) (hhdmOffset pagemap vaddr paddr flags : ℕ) : ℕ → ℕ → Phys σ → Prop
  | 0, _, _ => True
  | n+1, i, s =>
    (vmap A hhdmOffset pagemap (wrap (vaddr+4096*i)) (wrap (paddr+4096*i)) flags s).1 = 0 ∧
      MapsAll A hhdmOffset pagemap vaddr paddr flags n (i+1)
        (vmap A hhdmOffset pagemap (wrap (vaddr+4096*i)) (wrap (paddr+4096*i)) flags s).2

instance decidableMapsAll (A : Ops σ) (hhdmOffset pagemap vaddr paddr flags : ℕ) :
    ∀ (n i : ℕ) (s : Phys σ), Decidable (MapsAll A hhdmOffset pagemap vaddr paddr flags n i s)
  | 0, _, _ => .isTrue trivial
  | n+1, i, _ =>
    @instDecidableAnd _ _ _ (decidableMapsAll A hhdmOffset pagemap vaddr paddr flags n (i+1) _)

/-- The entry of a page is the one of the last round that maps it. -/
theorem mapPages_last (hf : Forest C roots shared s) (hr : r ∈ roots) {flags : ℕ}
    (hflags : flags < 2^64) (vaddr paddr n i : ℕ)
    (hall : MapsAll A D.hhdmOffset r vaddr paddr flags n i s) {j : ℕ} (hj : i ≤ j) (hjn : j < i+n)
    (hlast : i+n ≤ j+2^36) :
    leafEntry D (mapPages A D.hhdmOffset r vaddr paddr flags n i s).mem r (wrap (vaddr+4096*j)) =
      wrap (paddr+4096*j) ||| flags := by
  induction n generalizing i s with
  | zero => omega
  | succ n ih =>
    obtain ⟨hok, hrest⟩ := hall
    rcases vmap_effect (A := A) hf hr (wrap (vaddr+4096*i)) (wrap (paddr+4096*i)) flags
      (wrap_or_lt hflags) with ⟨hfail, -⟩ | ⟨-, hw⟩
    · rw [hok] at hfail
      exact absurd hfail (by decide)
    · by_cases hji : j = i
      · have hlater := mapPages_range hw.forest hr hflags vaddr paddr n (i+1)
        rw [hji]
        refine (hlater.elsewhere r hr _ ?_).trans hw.here
        exact not_mem_pagesOf_succ (by omega)
      · exact ih hw.forest (i+1) hrest (by omega) (by omega) (by omega)

theorem mapPages_entry (hf : Forest C roots shared s) (hr : r ∈ roots) {flags : ℕ}
    (hflags : flags < 2^64) (vaddr paddr n i : ℕ) (hn : i+n ≤ 2^36)
    (hall : MapsAll A D.hhdmOffset r vaddr paddr flags n i s) {j : ℕ} (hj : i ≤ j) (hjn : j < i+n) :
    leafEntry D (mapPages A D.hhdmOffset r vaddr paddr flags n i s).mem r (wrap (vaddr+4096*j)) =
      wrap (paddr+4096*j) ||| flags :=
  mapPages_last hf hr hflags vaddr paddr n i hall hj hjn (by omega)

section Fill

/-- The pages that `valloc` backs its region with. -/
abbrev backing (A : Ops σ) : ℕ → Phys σ → ℕ × Phys σ := fun _ => A.palloc 1 false

/-- The frames delivered to the loop, up to the first failure. -/
def fillFrames (A : Ops σ) (hhdmOffset : ℕ) (page : ℕ → Phys σ → ℕ × Phys σ)
    (pagemap start flags : ℕ) : ℕ → ℕ → Phys σ → List ℕ
  | 0, _, _ => []
  | n+1, i, s =>
    let p := page i s
    if p.1 = 0 then []
    else p.1::fillFrames A hhdmOffset page pagemap start flags n (i+1)
      (vmap A hhdmOffset pagemap (wrap (start+4096*i)) p.1 flags p.2).2

/-- No `vmap` call of the loop fails. -/
def FillMaps (A : Ops σ) (hhdmOffset : ℕ) (page : ℕ → Phys σ → ℕ × Phys σ)
    (pagemap start flags : ℕ) : ℕ → ℕ → Phys σ → Prop
  | 0, _, _ => True
  | n+1, i, s =>
    let p := page i s
    p.1 ≠ 0 → (vmap A hhdmOffset pagemap (wrap (start+4096*i)) p.1 flags p.2).1 = 0 ∧
      FillMaps A hhdmOffset page pagemap start flags n (i+1)
        (vmap A hhdmOffset pagemap (wrap (start+4096*i)) p.1 flags p.2).2

instance decidableFillMaps (A : Ops σ) (hhdmOffset : ℕ) (page : ℕ → Phys σ → ℕ × Phys σ)
    (pagemap start flags : ℕ) : ∀ (n i : ℕ) (s : Phys σ),
      Decidable (FillMaps A hhdmOffset page pagemap start flags n i s)
  | 0, _, _ => .isTrue trivial
  | n+1, i, _ => @instDecidableForall _ _ _ (@instDecidableAnd _ _ _
      (decidableFillMaps A hhdmOffset page pagemap start flags n (i+1) _))

theorem palloc_quiet (hf : Forest C roots shared s) (hh : Bool) :
    Quiet C roots shared s (A.palloc 1 hh s).2 :=
  Quiet.of_agree hf (C.palloc_valid hf.valid hh) (C.palloc_owned hf.valid hh)
    (C.palloc_keeps hf.valid hh)

/-- A frame that a client of the allocator may map. -/
structure Backing (C : Contract D A) (s : Phys σ) (g : ℕ) : Prop where
  aligned : g % 4096 = 0
  below : g+4096 ≤ D.top
  nonzero : g ≠ 0
  fresh : g ∉ C.owned s

theorem palloc_backing (hv : C.Valid s) (h0 : (A.palloc 1 false s).1 ≠ 0) :
    Backing C s (A.palloc 1 false s).1 := by
  obtain ⟨g, hg, hga, hgt, hgo, -⟩ := C.palloc_grant hv false h0
  rw [if_neg (by decide)] at hg
  rw [hg] at h0 ⊢
  exact ⟨hga, hgt, h0, hgo⟩

theorem Backing.entry_lt {g flags : ℕ} (hg : Backing C s g) (hflags : flags < 2^64) :
    g ||| flags < 2^64 := by
  have := D.top_le_address
  have := hg.below
  exact Nat.or_lt_two_pow (by omega) hflags

theorem fillRegion_range (hf : Forest C roots shared s) (hr : r ∈ roots) {flags : ℕ}
    (hflags : flags < 2^64) (start n i : ℕ) :
    RangeWrite C roots shared r (pagesOf start i n) s
      (fillRegion A D.hhdmOffset (backing A) r start flags n i s).2 := by
  induction n generalizing i s with
  | zero => exact hf.quiet_self.range _
  | succ n ih =>
    have hq := palloc_quiet hf false
    rw [fillRegion]
    split_ifs with h0
    · exact hq.range _
    · have hg := palloc_backing hf.valid h0
      have hstep := vmap_range (A := A) hq.forest hr (wrap (start+4096*i)) _ flags
        (hg.entry_lt hflags)
      exact ((hq.range _).trans (hstep.mono (pagesOf_head start i n))).trans
        ((ih hstep.forest (i+1)).mono (pagesOf_succ start i n))

theorem vmap_backing (start i : ℕ) {flags : ℕ} (hf : Forest C roots shared s) (hr : r ∈ roots)
    (hflags : flags < 2^64) (h0 : (A.palloc 1 false s).1 ≠ 0) :
    let p := A.palloc 1 false s
    let w := vmap A D.hhdmOffset r (wrap (start+4096*i)) p.1 flags p.2
    RangeWrite C roots shared r {pageNumber (wrap (start+4096*i))} s w.2 ∧
      ((w.1 = -1 ∧ leafEntry D w.2.mem r (wrap (start+4096*i)) = 0) ∨
        (w.1 = 0 ∧ leafEntry D w.2.mem r (wrap (start+4096*i)) = p.1 ||| flags)) := by
  intro p w
  have hq := palloc_quiet hf false
  have he := (palloc_backing hf.valid h0).entry_lt hflags
  have hrange := vmap_range (A := A) hq.forest hr (wrap (start+4096*i)) p.1 flags he
  refine ⟨(hq.range _).trans hrange, ?_⟩
  rcases vmap_effect (A := A) hq.forest hr (wrap (start+4096*i)) p.1 flags he with
    ⟨hfail, hzero, hquiet⟩ | ⟨hok, hw⟩
  · exact .inl ⟨hfail, (hquiet.leaf r hr _).trans hzero⟩
  · exact .inr ⟨hok, hw.here⟩

/-- Page `j` maps the `j`-th frame, unless its mapping failed. -/
theorem fillRegion_cases (hf : Forest C roots shared s) (hr : r ∈ roots) {flags : ℕ}
    (hflags : flags < 2^64) (start n i : ℕ) (hn : i+n ≤ 2^36)
    (hok : (fillRegion A D.hhdmOffset (backing A) r start flags n i s).1 = true) {j : ℕ}
    (hj : j < n) :
    ∃ g, (fillFrames A D.hhdmOffset (backing A) r start flags n i s)[j]? = some g ∧ Backing C s g ∧
      let e := leafEntry D (fillRegion A D.hhdmOffset (backing A) r start flags n i s).2.mem r
        (wrap (start+4096*(i+j)))
      ((e = 0 ∧ ¬ FillMaps A D.hhdmOffset (backing A) r start flags n i s) ∨ e = g ||| flags) := by
  induction n generalizing i j s with
  | zero => omega
  | succ n ih =>
    have hq := palloc_quiet hf false
    rw [fillRegion] at hok ⊢
    rw [fillFrames]
    by_cases h0 : (A.palloc 1 false s).1 = 0
    · rw [if_pos h0] at hok
      exact absurd hok Bool.false_ne_true
    · rw [if_neg h0] at hok ⊢
      rw [if_neg h0]
      have hg := palloc_backing hf.valid h0
      obtain ⟨hstep, hleaf⟩ := vmap_backing start i hf hr hflags h0
      have hlater := fillRegion_range (A := A) hstep.forest hr hflags start n (i+1)
      cases j with
      | zero =>
        refine ⟨_, rfl, hg, ?_⟩
        have hkeep := hlater.elsewhere r hr _ (not_mem_pagesOf_succ (i := i) (by omega))
        rcases hleaf with ⟨hfail, hzero⟩ | ⟨-, hmapped⟩
        · refine .inl ⟨hkeep.trans hzero, fun hall => ?_⟩
          exact absurd ((hall h0).1.symm.trans hfail) (by decide)
        · exact .inr (hkeep.trans hmapped)
      | succ j =>
        obtain ⟨g, hget, hb, he⟩ := ih hstep.forest (i+1) (by omega) hok (j := j) (by omega)
        refine ⟨g, by simpa using hget, ⟨hb.aligned, hb.below, hb.nonzero, ?_⟩, ?_⟩
        · exact fun ho => hb.fresh (hstep.owned ho)
        · rw [show i+(j+1) = i+1+j by omega]
          exact he.imp_left (fun ⟨hz, hno⟩ => ⟨hz, fun hall => hno (hall h0).2⟩)

/-- When every page has an entry, no mapping failed. -/
theorem fillMaps_of_mapped (hf : Forest C roots shared s) (hr : r ∈ roots) {flags : ℕ}
    (hflags : flags < 2^64) (start n i : ℕ) (hn : i+n ≤ 2^36)
    (hmapped : ∀ j < n, leafEntry D (fillRegion A D.hhdmOffset (backing A) r start flags n i
      s).2.mem r
      (wrap (start+4096*(i+j))) ≠ 0) :
    FillMaps A D.hhdmOffset (backing A) r start flags n i s := by
  induction n generalizing i s with
  | zero => trivial
  | succ n ih =>
    intro h0
    have h0' : (A.palloc 1 false s).1 ≠ 0 := h0
    rw [fillRegion, if_neg h0'] at hmapped
    obtain ⟨hstep, hleaf⟩ := vmap_backing start i hf hr hflags h0'
    have hlater := fillRegion_range (A := A) hstep.forest hr hflags start n (i+1)
    refine ⟨?_, ih hstep.forest (i+1) (by omega) (fun j hj => ?_)⟩
    · rcases hleaf with ⟨-, hzero⟩ | ⟨hok, -⟩
      · have hkeep := hlater.elsewhere r hr _ (not_mem_pagesOf_succ (i := i) (by omega))
        refine absurd (hkeep.trans hzero) ?_
        have := hmapped 0 (by omega)
        rwa [Nat.add_zero] at this
      · exact hok
    · have := hmapped (j+1) (by omega)
      rwa [show i+(j+1) = i+1+j by omega] at this

end Fill

end Emk.PagingForest
