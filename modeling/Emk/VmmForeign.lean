import Emk.PagingShare
import Emk.VmmInverse

/-!
# Freeing through the kernel's page map

`vfree` asks the kernel's page map for the frames of a region and clears the
pages in the page map of the context. For a process these are two page maps,
and the frames given back are the region's own only where the two agree.
-/

set_option autoImplicit false

namespace Emk.VmmForeign
open Emk.ByteMemory Emk.MachineWord Emk.DirectMap Emk.PageAllocator Emk.Paging Emk.Vmm
open Emk.PagingForest Emk.RadixForest Emk.LinkedPath Emk.ReferenceAllocator Emk.VmmTenants
open Emk.Sched (translation translation_leaf translation_page)
open Emk.VmmRuns (namedRegion openEnd smallState)

variable {σ : Type}

/-- What the loop of `vfree` passes to `pfree`, page by page. -/
def releasedFrames (A : Ops σ) (hhdmOffset K P start : ℕ) : ℕ → ℕ → Phys σ → List ℕ
  | 0, _, _ => []
  | n+1, i, s =>
    let virt := wrap (start+4096*i)
    let phys := virtToPhys hhdmOffset s.mem K virt
    if phys ≠ 0 then
      phys::releasedFrames A hhdmOffset K P start n (i+1)
        (vunmap hhdmOffset P virt (A.pfree phys 1 s)).2
    else releasedFrames A hhdmOffset K P start n (i+1) s

/-- The frames that a page map has for the pages of a range. -/
def pageFrames (D : Layout) (m : Mem) (r start : ℕ) : ℕ → ℕ → List ℕ
  | 0, _ => []
  | n+1, i =>
    if translation D m r (wrap (start+4096*i)) ≠ 0 then
      translation D m r (wrap (start+4096*i))::pageFrames D m r start n (i+1)
    else pageFrames D m r start n (i+1)

variable {D : Layout} {A : Ops σ} {F : FreeContract D A} {roots : Set ℕ} {shared : Set (Fin 512)}
  {K P start : ℕ} {s s' : Phys σ}

theorem mem_pageFrames {m : Mem} {r n i f : ℕ} :
    f ∈ pageFrames D m r start n i ↔
      f ≠ 0 ∧ ∃ j, i ≤ j ∧ j < i+n ∧ translation D m r (wrap (start+4096*j)) = f := by
  induction n generalizing i with
  | zero =>
    simp only [pageFrames, List.not_mem_nil, false_iff]
    rintro ⟨-, j, h1, h2, -⟩
    omega
  | succ n ih =>
    have hsplit : (∃ j, i ≤ j ∧ j < i+(n+1) ∧ translation D m r (wrap (start+4096*j)) = f) ↔
        translation D m r (wrap (start+4096*i)) = f ∨
          ∃ j, i+1 ≤ j ∧ j < i+1+n ∧ translation D m r (wrap (start+4096*j)) = f := by
      constructor
      · rintro ⟨j, h1, h2, he⟩
        by_cases hj : j = i
        · exact .inl (hj ▸ he)
        · exact .inr ⟨j, by omega, by omega, he⟩
      · rintro (he | ⟨j, h1, h2, he⟩)
        · exact ⟨i, le_rfl, by omega, he⟩
        · exact ⟨j, by omega, by omega, he⟩
    rw [hsplit, pageFrames]
    split_ifs with h0
    · rw [List.mem_cons, ih]
      constructor
      · rintro (rfl | ⟨hf, h⟩)
        · exact ⟨h0, .inl rfl⟩
        · exact ⟨hf, .inr h⟩
      · rintro ⟨hf, he | h⟩
        · exact .inl he.symm
        · exact .inr ⟨hf, h⟩
    · rw [ih]
      push Not at h0
      constructor
      · rintro ⟨hf, h⟩
        exact ⟨hf, .inr h⟩
      · rintro ⟨hf, he | h⟩
        · exact absurd (he.symm.trans h0) hf
        · exact ⟨hf, h⟩

theorem pageFrames_congr {m m' : Mem} {r n i : ℕ}
    (h : ∀ j, i ≤ j → j < i+n → translation D m' r (wrap (start+4096*j)) =
      translation D m r (wrap (start+4096*j))) :
    pageFrames D m' r start n i = pageFrames D m r start n i := by
  induction n generalizing i with
  | zero => rfl
  | succ n ih =>
    rw [pageFrames, pageFrames, h i le_rfl (by omega),
      ih (fun j h1 h2 => h j (by omega) (by omega))]

theorem pageFrames_nodup {m : Mem} {r n i : ℕ}
    (h : ∀ j k, i ≤ j → j < k → k < i+n → translation D m r (wrap (start+4096*j)) ≠ 0 →
      translation D m r (wrap (start+4096*j)) ≠ translation D m r (wrap (start+4096*k))) :
    (pageFrames D m r start n i).Nodup := by
  induction n generalizing i with
  | zero => exact List.nodup_nil
  | succ n ih =>
    have hrest := ih (i := i+1) (fun j k h1 h2 h3 => h j k (by omega) h2 (by omega))
    rw [pageFrames]
    split_ifs with h0
    · refine List.nodup_cons.mpr ⟨fun hin => ?_, hrest⟩
      obtain ⟨-, k, h1, h2, he⟩ := mem_pageFrames.mp hin
      exact h i k le_rfl (by omega) (by omega) h0 he.symm
    · exact hrest

/-- Unmapping a page of `P` leaves another page map alone, or both have the
same entry there. -/
theorem vunmap_other {C : Contract D A} (hf : Forest C roots shared s) (hP : P ∈ roots)
    (hK : K ∈ roots) (virt : ℕ) :
    leafEntry D (vunmap D.hhdmOffset P virt s).2.mem K virt = leafEntry D s.mem K virt ∨
      leafEntry D s.mem K virt = leafEntry D s.mem P virt := by
  by_cases ha : virt % 4096 = 0
  swap
  · rw [vunmap_unaligned P ha]
    exact .inl rfl
  have halign : virt &&& (4096-1) = 0 := by
    rw [show (4096-1 : ℕ) = 2^12-1 by rfl, Nat.and_two_pow_sub_one_eq_mod]
    exact ha
  obtain ⟨hP0, ⟨hnull, -⟩ | ⟨h3, h2, h1, hd⟩⟩ := walk_cases hf hP virt
  · left
    rw [vunmap, if_neg (by simp [hP0, halign])]
    dsimp only
    rcases hnull with h | h | h <;> simp [h]
  · obtain ⟨f, -, hft, -, -⟩ := hf.node hP (le_refl _) hd
    rw [vunmap, if_neg (by simp [hP0, halign])]
    simp only [if_neg h3, if_neg h2, if_neg h1]
    rw [hft] at hd ⊢
    obtain ⟨-, hleaf⟩ := store_leaf hf hP (le_refl _) hd (ix virt pml1Shift) 0 rfl (by decide)
    by_cases hshare : descend (child D s.mem) K (tablePath virt) = some (D.hhdmOffset+f)
    · right
      rw [leafEntry, leafEntry, hshare, hd]
    · left
      exact (hleaf K hK virt).trans (if_neg (fun h => hshare h.1))

/-- Frames that can be given back one after the other: in use, no page tables,
none twice. -/
structure Giveable (F : FreeContract D A) (roots : Set ℕ) (start : ℕ) (l : List ℕ) (s : Phys σ) :
    Prop where
  nodup : l.Nodup
  owned : ∀ f ∈ l, f ∈ F.owned s
  apart : ∀ f ∈ l, f ∉ tableFrames D s.mem roots
  aligned : l ≠ [] → start % 4096 = 0

/-- One frame is given back and one page of `P` unmapped. -/
structure Given (F : FreeContract D A) (roots : Set ℕ) (shared : Set (Fin 512)) (P f virt : ℕ)
    (s s' : Phys σ) : Prop where
  forest : Forest F.toContract roots shared s'
  owned : F.owned s' = F.owned s \ {f}
  tables : tableFrames D s'.mem roots ⊆ tableFrames D s.mem roots
  here : translation D s'.mem P virt = 0
  elsewhere : ∀ r ∈ roots, ∀ v, pageNumber v ≠ pageNumber virt →
    translation D s'.mem r v = translation D s.mem r v
  others : ∀ r ∈ roots, translation D s'.mem r virt = translation D s.mem r virt ∨
    translation D s.mem r virt = translation D s.mem P virt

theorem give_back (hf : Forest F.toContract roots shared s) (hP : P ∈ roots) {f virt : ℕ}
    (ho : f ∈ F.owned s) (ht : f ∉ tableFrames D s.mem roots) (ha : virt % 4096 = 0) :
    Given F roots shared P f virt s (vunmap D.hhdmOffset P virt (A.pfree f 1 s)).2 := by
  have hfree := pfree_released hf hP ho ht
  have hunmap := vunmap_released hfree.forest hP ha
  have hw := (vunmap_effect hfree.forest hP virt ha).2
  have hsame : ∀ r ∈ roots, ∀ v, translation D (A.pfree f 1 s).mem r v = translation D s.mem r v :=
    fun r hr v => (pfree_released hf hr ho ht).kept v (Set.notMem_empty _)
  refine ⟨hunmap.forest, ?_, hunmap.tables.trans hfree.tables, hunmap.cleared virt rfl, ?_, ?_⟩
  · rw [hunmap.owned, hfree.owned, Set.sdiff_empty]
  · intro r hr v hv
    exact (translation_leaf hfree.forest hw.forest hr (hw.elsewhere r hr v hv)).trans (hsame r hr v)
  · intro r hr
    rw [← hsame r hr, ← hsame P hP]
    rcases vunmap_other hfree.forest hP hr virt with h | h
    · exact .inl (translation_leaf hfree.forest hw.forest hr h)
    · right
      rw [translation, translation, virtToPhys_leaf hfree.forest hr,
        virtToPhys_leaf hfree.forest hP, h]

/-- The frames that `K` has for the pages are given back, and the pages that
`K` knows are gone from `P`. -/
structure Returned (F : FreeContract D A) (roots : Set ℕ) (shared : Set (Fin 512))
    (K P start n i : ℕ) (s s' : Phys σ) : Prop where
  forest : Forest F.toContract roots shared s'
  owned : F.owned s' = F.owned s \ {f | f ∈ pageFrames D s.mem K start n i}
  tables : tableFrames D s'.mem roots ⊆ tableFrames D s.mem roots
  cleared : ∀ v, pageNumber v ∈ pagesOf start i n → translation D s.mem K v ≠ 0 →
    translation D s'.mem P v = 0
  kept : ∀ v, pageNumber v ∉ pagesOf start i n ∨ translation D s.mem K v = 0 →
    translation D s'.mem P v = translation D s.mem P v

/-- The pages that are mapped have frames of their own. -/
def Distinct (D : Layout) (m : Mem) (P start n i : ℕ) : Prop :=
  ∀ j k, i ≤ j → j < k → k < i+n → translation D m P (wrap (start+4096*j)) ≠ 0 →
    translation D m P (wrap (start+4096*j)) ≠ translation D m P (wrap (start+4096*k))

section Step
variable {n i f : ℕ} (hg : Given F roots shared P f (wrap (start+4096*i)) s s')
include hg

theorem Given.distinct (hP : P ∈ roots) (hd : Distinct D s.mem P start (n+1) i) :
    Distinct D s'.mem P start n (i+1) := by
  intro j k h1 h2 h3 h0
  have hj : pageNumber (wrap (start+4096*j)) ≠ pageNumber (wrap (start+4096*i)) := by
    intro he
    rw [translation_page hg.forest hP he] at h0
    exact h0 hg.here
  rw [hg.elsewhere P hP _ hj] at h0 ⊢
  by_cases hk : pageNumber (wrap (start+4096*k)) = pageNumber (wrap (start+4096*i))
  · rw [translation_page hg.forest hP hk, hg.here]
    exact h0
  · rw [hg.elsewhere P hP _ hk]
    exact hd j k (by omega) h2 (by omega) h0

/-- The other page map has the later pages as before. -/
theorem Given.later (hf : Forest F.toContract roots shared s) (hP : P ∈ roots) (hK : K ∈ roots)
    (hd : Distinct D s.mem P start (n+1) i)
    (h0 : translation D s.mem K (wrap (start+4096*i)) ≠ 0) :
    pageFrames D s'.mem K start n (i+1) = pageFrames D s.mem K start n (i+1) := by
  apply pageFrames_congr
  intro j h1 h2
  by_cases hj : pageNumber (wrap (start+4096*j)) = pageNumber (wrap (start+4096*i))
  swap
  · exact hg.elsewhere K hK _ hj
  rw [translation_page hg.forest hK hj, translation_page hf hK hj]
  refine (hg.others K hK).resolve_right (fun he => ?_)
  refine hd i j le_rfl (by omega) (by omega) (he ▸ h0) ?_
  exact (translation_page hf hP hj).symm

theorem Given.giveable {l : List ℕ} (hl : Giveable F roots start (f::l) s) :
    Giveable F roots start l s' where
  nodup := (List.nodup_cons.mp hl.nodup).2
  owned := fun g hin => by
    rw [hg.owned]
    refine ⟨hl.owned g (List.mem_cons_of_mem f hin), fun he => ?_⟩
    exact (List.nodup_cons.mp hl.nodup).1 (Set.mem_singleton_iff.mp he ▸ hin)
  apart := fun g hin ht => hl.apart g (List.mem_cons_of_mem f hin) (hg.tables ht)
  aligned := fun _ => hl.aligned (List.cons_ne_nil f l)

end Step

section Loop
variable {n i : ℕ}

theorem pageFrames_skip {m : Mem} {r : ℕ} (h0 : translation D m r (wrap (start+4096*i)) = 0) :
    pageFrames D m r start (n+1) i = pageFrames D m r start n (i+1) :=
  if_neg (not_not.mpr h0)

theorem pageFrames_cons {m : Mem} {r : ℕ} (h0 : translation D m r (wrap (start+4096*i)) ≠ 0) :
    pageFrames D m r start (n+1) i =
      translation D m r (wrap (start+4096*i))::pageFrames D m r start n (i+1) :=
  if_pos h0

theorem release_skip (h0 : translation D s.mem K (wrap (start+4096*i)) = 0) :
    releasedFrames A D.hhdmOffset K P start (n+1) i s =
        releasedFrames A D.hhdmOffset K P start n (i+1) s ∧
      releasePages A D.hhdmOffset K P start (n+1) i s =
        releasePages A D.hhdmOffset K P start n (i+1) s := by
  constructor
  · exact if_neg (not_not.mpr h0)
  · exact congrArg _ (if_neg (not_not.mpr h0))

theorem release_cons (h0 : translation D s.mem K (wrap (start+4096*i)) ≠ 0) :
    let s₁ := (vunmap D.hhdmOffset P (wrap (start+4096*i))
      (A.pfree (translation D s.mem K (wrap (start+4096*i))) 1 s)).2
    releasedFrames A D.hhdmOffset K P start (n+1) i s =
        translation D s.mem K (wrap (start+4096*i))::
          releasedFrames A D.hhdmOffset K P start n (i+1) s₁ ∧
      releasePages A D.hhdmOffset K P start (n+1) i s =
        releasePages A D.hhdmOffset K P start n (i+1) s₁ := by
  constructor
  · exact if_pos h0
  · exact congrArg _ (if_pos h0)

variable (hf : Forest F.toContract roots shared s)
include hf

theorem Returned.skip (hK : K ∈ roots) (h0 : translation D s.mem K (wrap (start+4096*i)) = 0)
    (h : Returned F roots shared K P start n (i+1) s s') :
    Returned F roots shared K P start (n+1) i s s' where
  forest := h.forest
  owned := by
    rw [h.owned, pageFrames_skip h0]
  tables := h.tables
  cleared := by
    intro v hv hv0
    rw [pagesOf_cons] at hv
    refine h.cleared v (hv.resolve_left (fun he => hv0 ?_)) hv0
    rw [translation_page hf hK he, h0]
  kept := fun v hv => h.kept v (hv.imp_left (fun hno hin => hno (pagesOf_succ start i n hin)))

theorem Returned.cons {s₁ : Phys σ} (hP : P ∈ roots) (hK : K ∈ roots)
    (hd : Distinct D s.mem P start (n+1) i)
    (h0 : translation D s.mem K (wrap (start+4096*i)) ≠ 0)
    (hg : Given F roots shared P (translation D s.mem K (wrap (start+4096*i)))
      (wrap (start+4096*i)) s s₁)
    (h : Returned F roots shared K P start n (i+1) s₁ s') :
    Returned F roots shared K P start (n+1) i s s' where
  forest := h.forest
  owned := by
    rw [h.owned, hg.owned, Set.sdiff_sdiff, hg.later hf hP hK hd h0, pageFrames_cons h0]
    congr 1
    ext f
    simp
  tables := h.tables.trans hg.tables
  cleared := by
    intro v hv hv0
    by_cases hpage : pageNumber v = pageNumber (wrap (start+4096*i))
    · have hzero : translation D s₁.mem P v = 0 := by
        rw [translation_page hg.forest hP hpage, hg.here]
      by_cases hcase : pageNumber v ∈ pagesOf start (i+1) n ∧ translation D s₁.mem K v ≠ 0
      · exact h.cleared v hcase.1 hcase.2
      · rw [h.kept v ((not_and_or.mp hcase).imp_right not_not.mp), hzero]
    · rw [pagesOf_cons] at hv
      refine h.cleared v (hv.resolve_left hpage) ?_
      rwa [hg.elsewhere K hK v hpage]
  kept := by
    intro v hv
    have hpage : pageNumber v ≠ pageNumber (wrap (start+4096*i)) := by
      intro he
      rcases hv with hno | hv0
      · exact hno (pagesOf_head start i n he)
      · rw [translation_page hf hK he] at hv0
        exact h0 hv0
    rw [h.kept v, hg.elsewhere P hP v hpage]
    refine hv.imp (fun hno hin => hno (pagesOf_succ start i n hin)) (fun hv0 => ?_)
    rwa [hg.elsewhere K hK v hpage]

/-- The loop, as long as what is passed to `pfree` can be given back, or what
`K` has for the pages can. -/
theorem release_loop (hP : P ∈ roots) (hK : K ∈ roots) (hd : Distinct D s.mem P start n i)
    {l : List ℕ} (hgive : Giveable F roots start l s)
    (hl : l = releasedFrames A D.hhdmOffset K P start n i s ∨ l = pageFrames D s.mem K start n i) :
    releasedFrames A D.hhdmOffset K P start n i s = pageFrames D s.mem K start n i ∧
      Returned F roots shared K P start n i s (releasePages A D.hhdmOffset K P start n i s) := by
  induction n generalizing i s l with
  | zero =>
    refine ⟨rfl, hf, ?_, subset_rfl, ?_, fun _ _ => rfl⟩
    · simp [pageFrames, releasePages]
    · rintro v ⟨j, h1, h2, -⟩
      omega
  | succ n ih =>
    by_cases h0 : translation D s.mem K (wrap (start+4096*i)) = 0
    · obtain ⟨hfreed, hpages⟩ := release_skip (A := A) (P := P) (n := n) h0
      rw [hfreed, pageFrames_skip h0] at hl ⊢
      rw [hpages]
      obtain ⟨heq, hr⟩ := ih hf (fun j k h1 h2 h3 => hd j k (by omega) h2 (by omega)) hgive hl
      exact ⟨heq, hr.skip hf hK h0⟩
    · obtain ⟨hfreed, hpages⟩ := release_cons (A := A) (P := P) (n := n) h0
      rw [hfreed, pageFrames_cons h0] at hl ⊢
      rw [hpages]
      have hcons : ∃ l', l = translation D s.mem K (wrap (start+4096*i))::l' := by
        rcases hl with rfl | rfl
        · exact ⟨_, rfl⟩
        · exact ⟨_, rfl⟩
      obtain ⟨l', rfl⟩ := hcons
      have ha : wrap (start+4096*i) % 4096 = 0 := by
        have := hgive.aligned (List.cons_ne_nil _ l')
        rw [wrap]
        omega
      have hg := give_back hf hP (hgive.owned _ List.mem_cons_self)
        (hgive.apart _ List.mem_cons_self) ha
      have hlater := hg.later hf hP hK hd h0
      obtain ⟨heq, hr⟩ := ih hg.forest (hg.distinct hP hd) (hg.giveable hgive) (by
        rw [hlater]
        exact hl.imp (fun h => (List.cons.inj h).2) (fun h => (List.cons.inj h).2))
      rw [heq, hlater]
      exact ⟨rfl, hr.cons hf hP hK hd h0 hg⟩

end Loop

/-- The frames that a page map has for the pages of a region. -/
def regionFrames (D : Layout) (r : ℕ) (s : State σ) (x : ℕ) : List ℕ :=
  pageFrames D s.phys.mem r (s.regions x).start (s.regions x).pages 0

/-- The frames that `vfree` passes to `pfree` for the pages of the region. -/
def vfreeFrames (A : Ops σ) (hhdmOffset K ctx ptr : ℕ) (s : State σ) : List ℕ :=
  if ctx = 0 ∨ namedRegion ctx s ptr = 0 then []
  else
    let r := s.regions (namedRegion ctx s ptr)
    releasedFrames A hhdmOffset K (s.ctxs ctx).pagemap r.start r.pages 0 s.phys

/-- One of the regions of a context has a page mapped to the frame. -/
def HasFrame (D : Layout) (s : State σ) (c f : ℕ) : Prop :=
  ∃ x ∈ regionNodes s c, f ∈ regionFrames D (s.ctxs c).pagemap s x

/-- The mapped pages of each region have frames of their own, which are
neither page tables nor nodes. -/
structure Settled (F : FreeContract D A) (roots : Set ℕ) (shared : Set (Fin 512)) (ctx P : ℕ)
    (s : State σ) (nodes : List ℕ) : Prop
    extends CtxOwned F.toContract roots shared ctx P s nodes where
  nodeApart : ∀ f, D.hhdmOffset+f ∈ nodes → f ∉ tableFrames D s.phys.mem roots
  rented : ∀ x ∈ nodes, ∀ f ∈ regionFrames D P s x, f ∈ F.owned s.phys ∧
    f ∉ tableFrames D s.phys.mem roots ∧ D.hhdmOffset+f ∉ nodes
  distinct : ∀ x ∈ nodes, Distinct D s.phys.mem P (s.regions x).start (s.regions x).pages 0
  aligned : ∀ x ∈ nodes, regionFrames D P s x ≠ [] → (s.regions x).start % 4096 = 0

/-- The frames of the region are given back and no others, its pages are gone,
and no other context had one of the frames. -/
structure OwnReturned (D : Layout) (A : Ops σ) (K P ctx x : ℕ) (others : Set ℕ) (s s' : State σ) :
    Prop where
  frames : (vfreeFrames A D.hhdmOffset K ctx (s.regions x).start s).Perm (regionFrames D P s x)
  unmapped : ∀ i < (s.regions x).pages,
    virtToPhys D.hhdmOffset s'.phys.mem P (wrap ((s.regions x).start+4096*i)) = 0
  foreign : ∀ f ∈ vfreeFrames A D.hhdmOffset K ctx (s.regions x).start s, ∀ c ∈ others,
    ¬ HasFrame D s c f

/-- On the first region listed at this address, `K` has the frames that `P`
has for the region, and it has them wherever `P` has one. -/
structure Agree (D : Layout) (K P ctx x : ℕ) (others : Set ℕ) (s : State σ) : Prop where
  frames : (regionFrames D K s (namedRegion ctx s (s.regions x).start)).Perm (regionFrames D P s x)
  known : ∀ i < (s.regions x).pages,
    translation D s.phys.mem P (wrap ((s.regions x).start+4096*i)) ≠ 0 →
      pageNumber (wrap ((s.regions x).start+4096*i)) ∈ pagesOf (s.regions x).start 0
          (s.regions (namedRegion ctx s (s.regions x).start)).pages ∧
        translation D s.phys.mem K (wrap ((s.regions x).start+4096*i)) ≠ 0
  unshared : ∀ f ∈ regionFrames D P s x, ∀ c ∈ others, ¬ HasFrame D s c f

section Vfree
variable {ctx x : ℕ} {s : State σ} {nodes : List ℕ}

theorem Settled.giveable (hs : Settled F roots shared ctx P s nodes) (hx : x ∈ nodes) {l : List ℕ}
    (hl : l.Perm (regionFrames D P s x)) : Giveable F roots (s.regions x).start l s.phys where
  nodup := hl.nodup_iff.mpr (pageFrames_nodup (hs.distinct x hx))
  owned := fun f hin => (hs.rented x hx f (hl.mem_iff.mp hin)).1
  apart := fun f hin => (hs.rented x hx f (hl.mem_iff.mp hin)).2.1
  aligned := fun hne => hs.aligned x hx (fun h => hne (List.perm_nil.mp (h ▸ hl)))

/-- The region node is given back last, without a trace in the page maps. -/
theorem Settled.node_freed (hs : Settled F roots shared ctx P s nodes) (hP : P ∈ roots) {y : ℕ}
    (hx : x ∈ nodes) (hy : y ∈ nodes) {p : Phys σ}
    (hl : (regionFrames D K s y).Perm (regionFrames D P s x))
    (hr : Returned F roots shared K P (s.regions y).start (s.regions y).pages 0 s.phys p) (v : ℕ) :
    translation D (A.pfree y 1 p).mem P v = translation D p.mem P v := by
  obtain ⟨f, hfo, rfl⟩ := hs.owned y hy
  have hkept : f ∈ F.owned p := by
    rw [hr.owned]
    exact ⟨hfo, fun hin => (hs.rented x hx f (hl.mem_iff.mp hin)).2.2 hy⟩
  rw [F.pfree_pointer hr.forest.valid f hkept]
  exact (pfree_released hr.forest hP hkept (fun ht => hs.nodeApart f hy (hr.tables ht))).kept v
    (Set.notMem_empty _)

theorem Settled.unmapped_iff (hs : Settled F roots shared ctx P s nodes) (hP : P ∈ roots) {y : ℕ}
    (hx : x ∈ nodes) (hy : y ∈ nodes) (hstart : (s.regions y).start = (s.regions x).start)
    {p : Phys σ} (hl : (regionFrames D K s y).Perm (regionFrames D P s x))
    (hr : Returned F roots shared K P (s.regions y).start (s.regions y).pages 0 s.phys p) :
    (∀ i < (s.regions x).pages,
      translation D (A.pfree y 1 p).mem P (wrap ((s.regions x).start+4096*i)) = 0) ↔
    ∀ i < (s.regions x).pages,
      translation D s.phys.mem P (wrap ((s.regions x).start+4096*i)) ≠ 0 →
        pageNumber (wrap ((s.regions x).start+4096*i)) ∈
            pagesOf (s.regions x).start 0 (s.regions y).pages ∧
          translation D s.phys.mem K (wrap ((s.regions x).start+4096*i)) ≠ 0 := by
  refine forall₂_congr (fun i _ => ?_)
  rw [hs.node_freed hP hx hy hl hr, ← hstart]
  constructor
  · intro hgone hmapped
    by_contra hno
    rw [hr.kept _ ((not_and_or.mp hno).imp_right not_not.mp)] at hgone
    exact hmapped hgone
  · intro hknown
    by_cases h0 : translation D s.phys.mem P (wrap ((s.regions y).start+4096*i)) = 0
    · by_cases hin : pageNumber (wrap ((s.regions y).start+4096*i)) ∈
          pagesOf (s.regions y).start 0 (s.regions y).pages ∧
        translation D s.phys.mem K (wrap ((s.regions y).start+4096*i)) ≠ 0
      · exact hr.cleared _ hin.1 hin.2
      · rw [hr.kept _ ((not_and_or.mp hin).imp_right not_not.mp), h0]
    · exact hr.cleared _ (hknown h0).1 (hknown h0).2

/-- `vfree` gives back the frames of the context's own region exactly when the
kernel's page map has the same frames there and nobody else has them. -/
theorem vfree_returns_own_frames (hs : Settled F roots shared ctx P s nodes) (hP : P ∈ roots)
    (hK : K ∈ roots) (hctx : ctx ≠ 0) (hx : x ∈ nodes) (others : Set ℕ) :
    ∃ s', vfree A D.hhdmOffset K ctx (s.regions x).start s = some s' ∧
      (OwnReturned D A K P ctx x others s s' ↔ Agree D K P ctx x others s) := by
  rcases vfree_eq A D.hhdmOffset K hs.listed hctx (s.regions x).start with
    ⟨-, hno⟩ | ⟨pre, y, post, hnodes, hstart, -, hfind, heq⟩
  · exact absurd rfl (hno x hx)
  have hy : y ∈ nodes := by simp [hnodes]
  have hname : namedRegion ctx s (s.regions x).start = y := by
    rw [namedRegion, hfind, Option.getD_some]
  have hfreed : vfreeFrames A D.hhdmOffset K ctx (s.regions x).start s =
      releasedFrames A D.hhdmOffset K P (s.regions y).start (s.regions y).pages 0 s.phys := by
    rw [vfreeFrames, hname, if_neg (not_or.mpr ⟨hctx, hs.listed.nonzero hy⟩), hs.pagemap]
  rw [hs.pagemap] at heq
  have hloop {l : List ℕ} (hl : l.Perm (regionFrames D P s x)) :=
    release_loop (l := l) hs.forest hP hK (hs.distinct y hy) (hstart ▸ hs.giveable hx hl)
  refine ⟨_, heq, ?_⟩
  constructor
  · rintro ⟨hframes, hgone, hforeign⟩
    rw [hfreed] at hframes hforeign
    obtain ⟨hsame, hr⟩ := hloop hframes (.inl rfl)
    have hl := hframes
    rw [hsame] at hl
    refine ⟨by rwa [hname], ?_, fun f hf => hforeign f (hframes.mem_iff.mpr hf)⟩
    rw [hname]
    exact (hs.unmapped_iff hP hx hy hstart hl hr).mp hgone
  · rintro ⟨hl, hknown, hunshared⟩
    rw [hname] at hl hknown
    obtain ⟨hsame, hr⟩ := hloop hl (.inr rfl)
    have hframes : (vfreeFrames A D.hhdmOffset K ctx (s.regions x).start s).Perm
        (regionFrames D P s x) := by
      rw [hfreed, hsame]
      exact hl
    exact ⟨hframes, (hs.unmapped_iff hP hx hy hstart hl hr).mpr hknown,
      fun f hf => hunshared f (hframes.mem_iff.mp hf)⟩

end Vfree

/-- A process context that only orderly calls have touched is settled. -/
theorem Settled.of_inv {ctx : ℕ} {s : State σ} {nodes : List ℕ}
    (hi : VmmInverse.Inv F roots shared P ctx s nodes) : Settled F roots shared ctx P s nodes := by
  have htenant : ∀ x ∈ nodes, ∀ j < (s.regions x).pages,
      translation D s.phys.mem P (wrap ((s.regions x).start+4096*j)) ≠ 0 →
        Holds D P nodes s.phys.mem (.page ((s.regions x).start/4096+j))
          (translation D s.phys.mem P (wrap ((s.regions x).start+4096*j))) := by
    intro x hx j hj h0
    have hlow := (hi.low x hx).resolve_left (by omega)
    have hal := hi.aligned x hx
    have hvirt : 4096*((s.regions x).start/4096+j) = wrap ((s.regions x).start+4096*j) := by
      rw [wrap_of_lt (by omega)]
      omega
    exact ⟨by omega, h0, by rw [hvirt]⟩
  refine ⟨hi.toCtxOwned, ?_, ?_, ?_, fun x hx _ => hi.aligned x hx⟩
  · exact fun f hf => hi.housed.apart (.node (D.hhdmOffset+f)) f ⟨hf, rfl⟩
  · intro x hx f hf
    obtain ⟨h0, j, -, hj, rfl⟩ := mem_pageFrames.mp hf
    have hold := htenant x hx j (by omega) h0
    refine ⟨hi.housed.rented _ _ hold, hi.housed.apart _ _ hold, fun hin => ?_⟩
    exact nomatch hi.housed.single (.node _) _ _ ⟨hin, rfl⟩ hold
  · intro x hx j k h1 h2 h3 h0 he
    have hj := htenant x hx j (by omega) h0
    have hk := htenant x hx k (by omega) (he ▸ h0)
    rw [← he] at hk
    have := Tenant.page.inj (hi.housed.single _ _ _ hj hk)
    omega

/-- A context that `vinit` makes over a page map from `pmnew`. -/
theorem process_inv {s : State σ} {p : Phys σ} (hf : Forest F.toContract roots shared s.phys)
    (hK : K ∈ roots) (hnew : pmnew A K s.phys = some (P, p)) (hstart : start % 4096 = 0)
    (hc : (vinit A P start { s with phys := p }).1 ≠ 0) :
    ∃ nodes, VmmInverse.Inv F (insert P roots) (shared ∪ upperSlots D s.phys.mem K) P
      (vinit A P start { s with phys := p }).1 (vinit A P start { s with phys := p }).2 nodes := by
  obtain ⟨hforest, -⟩ := pmnew_forest hf hK hnew
  have hP : P ∈ insert P roots := Set.mem_insert P roots
  refine VmmInverse.vinit_inv (s := { s with phys := p }) hforest hP (fun v hv => ?_) hstart hc
  dsimp only
  rw [virtToPhys_leaf hforest hP, pmnew_low hf hK hnew hv, Nat.zero_and, if_pos rfl]

/-- A context with two regions of one page each. -/
def twoRegions (c : ℕ × State (List ℕ)) : State (List ℕ) :=
  (((valloc smallOps smallLayout.hhdmOffset c.1 1 3 c.2).bind fun r =>
    valloc smallOps smallLayout.hhdmOffset c.1 1 3 r.2).map (·.2)).getD c.2

theorem twoRegions_settled {C : Set ℕ} {Q : Set (Fin 512)} {c : ℕ × State (List ℕ)} {nodes : List ℕ}
    (hi : VmmInverse.Inv smallFreeContract C Q P c.1 c.2 nodes) (hP : P ∈ C) (hc : c.1 ≠ 0)
    (h1 : openEnd c.1 c.2+4096 ≤ 2^47)
    (h2 : openEnd c.1 ((valloc smallOps smallLayout.hhdmOffset c.1 1 3 c.2).getD (0, c.2)).2+4096 ≤
      2^47) :
    ∃ nodes', Settled smallFreeContract C Q c.1 P (twoRegions c) nodes' := by
  obtain ⟨r₁, nodes₁, e1, hi₁⟩ := hi.valloc hP hc 1 3 h1
  rw [e1] at h2
  obtain ⟨r₂, nodes₂, e2, hi₂⟩ := hi₁.valloc hP hc 1 3 h2
  refine ⟨nodes₂, ?_⟩
  rw [twoRegions, e1, Option.bind_some, e2]
  exact .of_inv hi₂

def processMap (k : State (List ℕ)) : ℕ × Phys (List ℕ) :=
  (pmnew smallOps smallLayout.hhdmOffset k.phys).getD (0, k.phys)

def processCtx (k : State (List ℕ)) : ℕ × State (List ℕ) :=
  vinit smallOps (processMap k).1 0x10000 { k with phys := (processMap k).2 }

def processState (k : State (List ℕ)) : State (List ℕ) := twoRegions (processCtx k)

/-- The region at `0x11000`. -/
def processNode (k : State (List ℕ)) : ℕ := namedRegion (processCtx k).1 (processState k) 0x11000

/-- A kernel that has one page mapped, at the address of that region. -/
def kernelCtx : ℕ × State (List ℕ) :=
  vinit smallOps smallLayout.hhdmOffset 0x1000 { smallState with
    phys := (vmap smallOps smallLayout.hhdmOffset smallLayout.hhdmOffset 0x11000 0xf000 3
      smallPhys).2 }

theorem processState_settled {k : State (List ℕ)} {Q : Set (Fin 512)}
    (hf : Forest smallFreeContract.toContract {smallLayout.hhdmOffset} Q k.phys)
    (hnew : (pmnew smallOps smallLayout.hhdmOffset k.phys).isSome) (hc : (processCtx k).1 ≠ 0)
    (h1 : openEnd (processCtx k).1 (processCtx k).2+4096 ≤ 2^47)
    (h2 : openEnd (processCtx k).1 ((valloc smallOps smallLayout.hhdmOffset (processCtx k).1 1 3
      (processCtx k).2).getD (0, (processCtx k).2)).2+4096 ≤ 2^47) :
    ∃ Q' nodes, Settled smallFreeContract (insert (processMap k).1 {smallLayout.hhdmOffset}) Q'
      (processCtx k).1 (processMap k).1 (processState k) nodes := by
  have heq : pmnew smallOps smallLayout.hhdmOffset k.phys =
      some ((processMap k).1, (processMap k).2) := by
    obtain ⟨r, hr⟩ := Option.isSome_iff_exists.mp hnew
    rw [processMap, hr, Option.getD_some]
  obtain ⟨nodes, hi⟩ := process_inv hf (Set.mem_singleton _) heq (by omega) hc
  exact ⟨_, twoRegions_settled hi (Set.mem_insert _ _) hc h1 h2⟩

theorem kernelCtx_forest :
    Forest smallFreeContract.toContract {smallLayout.hhdmOffset} ∅ kernelCtx.2.phys := by
  have hzero := (forest_zeroed smallContract.toContract ∅ smallPhys_valid smallPhys_owned
    (fun _ _ => rfl)).1
  have hmap := (vmap_range (A := smallOps) hzero rfl 0x11000 0xf000 3 (by decide)).forest
  obtain ⟨root, hc, -⟩ := vinit_ctxOwned (s := { smallState with
    phys := (vmap smallOps smallLayout.hhdmOffset smallLayout.hhdmOffset 0x11000 0xf000 3
      smallPhys).2 }) hmap smallLayout.hhdmOffset 0x1000 (by decide +kernel)
  exact hc.forest

theorem vfree_returns_own_frames_agreeing :
    ∃ s', vfree smallOps smallLayout.hhdmOffset smallLayout.hhdmOffset (processCtx kernelCtx.2).1
        ((processState kernelCtx.2).regions (processNode kernelCtx.2)).start
        (processState kernelCtx.2) = some s' ∧
      OwnReturned smallLayout smallOps smallLayout.hhdmOffset (processMap kernelCtx.2).1
        (processCtx kernelCtx.2).1 (processNode kernelCtx.2) {kernelCtx.1}
        (processState kernelCtx.2) s' := by
  obtain ⟨Q, nodes, hs⟩ := processState_settled kernelCtx_forest (by decide +kernel)
    (by decide +kernel) (by decide +kernel) (by decide +kernel)
  have hx : processNode kernelCtx.2 ∈ nodes := by
    rw [← hs.listed.regionNodes_eq]
    decide +kernel
  obtain ⟨s', heq, hiff⟩ := vfree_returns_own_frames (K := smallLayout.hhdmOffset) hs
    (Set.mem_insert _ _) (Set.mem_insert_of_mem _ rfl) (by decide +kernel) hx {kernelCtx.1}
  have hnode : namedRegion (processCtx kernelCtx.2).1 (processState kernelCtx.2)
      ((processState kernelCtx.2).regions (processNode kernelCtx.2)).start =
        processNode kernelCtx.2 := by decide +kernel
  have hframes : regionFrames smallLayout smallLayout.hhdmOffset (processState kernelCtx.2)
      (processNode kernelCtx.2) = regionFrames smallLayout (processMap kernelCtx.2).1
        (processState kernelCtx.2) (processNode kernelCtx.2) := by decide +kernel
  have hknown : ∀ i < ((processState kernelCtx.2).regions (processNode kernelCtx.2)).pages,
      translation smallLayout (processState kernelCtx.2).phys.mem smallLayout.hhdmOffset
        (wrap (((processState kernelCtx.2).regions (processNode kernelCtx.2)).start+4096*i)) ≠
          0 := by
    decide +kernel
  refine ⟨s', heq, hiff.mpr ⟨?_, fun i hi _ => ⟨?_, hknown i hi⟩, ?_⟩⟩
  · rw [hnode, hframes]
  · rw [hnode]
    exact ⟨i, Nat.zero_le i, by omega, rfl⟩
  · rintro f - c rfl ⟨y, hy, hin⟩
    have hnone : ∀ y ∈ regionNodes (processState kernelCtx.2) kernelCtx.1,
        regionFrames smallLayout ((processState kernelCtx.2).ctxs kernelCtx.1).pagemap
          (processState kernelCtx.2) y = [] := by decide +kernel
    rw [hnone y hy] at hin
    exact List.not_mem_nil hin

/-- A kernel with a context like that of the process. -/
def busyKernel : ℕ × State (List ℕ) := vinit smallOps smallLayout.hhdmOffset 0x10000 smallState

/-- The kernel's frame at this address is given back instead, and it is mapped
in the kernel's context. -/
theorem vfree_returns_kernel_frames :
    ∃ s', vfree smallOps smallLayout.hhdmOffset smallLayout.hhdmOffset
        (processCtx (twoRegions busyKernel)).1
        ((processState (twoRegions busyKernel)).regions
          (processNode (twoRegions busyKernel))).start
        (processState (twoRegions busyKernel)) = some s' ∧
      ¬ OwnReturned smallLayout smallOps smallLayout.hhdmOffset
        (processMap (twoRegions busyKernel)).1 (processCtx (twoRegions busyKernel)).1
        (processNode (twoRegions busyKernel)) {busyKernel.1}
        (processState (twoRegions busyKernel)) s' := by
  have hsome : (vfree smallOps smallLayout.hhdmOffset smallLayout.hhdmOffset
      (processCtx (twoRegions busyKernel)).1
      ((processState (twoRegions busyKernel)).regions (processNode (twoRegions busyKernel))).start
      (processState (twoRegions busyKernel))).isSome := by decide +kernel
  obtain ⟨s', heq⟩ := Option.isSome_iff_exists.mp hsome
  refine ⟨s', heq, fun h => ?_⟩
  have hfreed : ∃ y ∈ regionNodes (processState (twoRegions busyKernel)) busyKernel.1,
      ∃ f ∈ vfreeFrames smallOps smallLayout.hhdmOffset smallLayout.hhdmOffset
        (processCtx (twoRegions busyKernel)).1
        ((processState (twoRegions busyKernel)).regions (processNode (twoRegions busyKernel))).start
        (processState (twoRegions busyKernel)),
        f ∈ regionFrames smallLayout ((processState (twoRegions busyKernel)).ctxs
          busyKernel.1).pagemap (processState (twoRegions busyKernel)) y := by decide +kernel
  obtain ⟨y, hy, f, hf, hin⟩ := hfreed
  exact h.foreign f hf busyKernel.1 rfl ⟨y, hy, hin⟩

end Emk.VmmForeign
