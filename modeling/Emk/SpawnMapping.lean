import Emk.PagingRange
import Emk.Sched
import Emk.VmmList

/-!
# Copying the kernel's mappings into a page map

`sched_spawn` maps pages of the kernel into the page map of a new process, one
by one and with the translation that the kernel's page map has for them. The
kernel's own translations never change by that; those of the process change at
most at the pages copied, and always where the process had one before.
-/

set_option autoImplicit false

namespace Emk.Sched
open Emk.ByteMemory Emk.MachineWord Emk.DirectMap Emk.PageAllocator Emk.Paging Emk.Vmm
open Emk.PagingForest Emk.LinkedPath

abbrev translation (D : Layout) (m : Mem) (r v : ℕ) : ℕ := virtToPhys D.hhdmOffset m r v

variable {σ : Type} {D : Layout} {A : Ops σ} {C : Contract D A} {roots : Set ℕ}
  {shared : Set (Fin 512)} {s s' s'' : Phys σ} {K P : ℕ} {pages pages' : Set ℕ}

theorem translation_leaf (hf : Forest C roots shared s) (hf' : Forest C roots shared s') {r v : ℕ}
    (hr : r ∈ roots) (h : leafEntry D s'.mem r v = leafEntry D s.mem r v) :
    translation D s'.mem r v = translation D s.mem r v := by
  rw [translation, translation, virtToPhys_leaf hf' hr, virtToPhys_leaf hf hr, h]

theorem translation_page (hf : Forest C roots shared s) {r v w : ℕ} (hr : r ∈ roots)
    (h : pageNumber v = pageNumber w) : translation D s.mem r v = translation D s.mem r w := by
  rw [translation, translation, virtToPhys_leaf hf hr, virtToPhys_leaf hf hr, leafEntry_page h]

theorem translation_frame (hf : Forest C roots shared s) {r : ℕ} (hr : r ∈ roots) (v : ℕ) :
    translation D s.mem r v % 4096 = 0 ∧ translation D s.mem r v < 2^52 := by
  rw [translation, virtToPhys_leaf hf hr]
  split_ifs
  · decide
  · rw [pageMask_field, and_fieldMask]
    omega

/-- Flags of an entry that is present. -/
structure EntryFlags (flags : ℕ) : Prop where
  lt : flags < 2^64
  mask : flags &&& pageMask = 0
  present : flags &&& vmmPresent ≠ 0

theorem mapFlags_entry (user : Bool) : EntryFlags (mapFlags user) := by
  cases user <;> exact ⟨by decide, by decide, by decide⟩

theorem vflagsToPflags_entry (flags : ℕ) : EntryFlags (vflagsToPflags flags) := by
  rw [vflagsToPflags]
  split_ifs <;> exact ⟨by decide, by decide, by decide⟩

theorem EntryFlags.translation {flags f r v : ℕ} (h : EntryFlags flags)
    (hf : Forest C roots shared s) (hr : r ∈ roots) (ha : f % 4096 = 0) (hlt : f < 2^52)
    (he : leafEntry D s.mem r v = f ||| flags) : translation D s.mem r v = f := by
  rw [Sched.translation, virtToPhys_leaf hf hr, he, frame_or_and flags ha hlt (by decide),
    if_neg h.present, frame_mask f flags ha hlt h.mask]

/-- Pages of `K` copied into `P`. -/
structure Copied (C : Contract D A) (roots : Set ℕ) (shared : Set (Fin 512)) (K P : ℕ)
    (pages : Set ℕ) (s s' : Phys σ) : Prop extends RangeWrite C roots shared P pages s s' where
  kernel : ∀ v, translation D s'.mem K v = translation D s.mem K v
  either : ∀ v, translation D s'.mem P v = translation D s.mem P v ∨
    translation D s'.mem P v = translation D s.mem K v
  copied : ∀ v, pageNumber v ∈ pages → translation D s.mem K v ≠ 0 →
    translation D s.mem P v ≠ 0 → translation D s'.mem P v = translation D s.mem K v

theorem Copied.mono (h : Copied C roots shared K P pages s s') (hsub : pages ⊆ pages')
    (hskip : ∀ v, pageNumber v ∈ pages' → pageNumber v ∉ pages → translation D s.mem K v = 0) :
    Copied C roots shared K P pages' s s' where
  toRangeWrite := h.toRangeWrite.mono hsub
  kernel := h.kernel
  either := h.either
  copied := fun v hv hk hp => h.copied v (by
    by_contra hno
    exact hk (hskip v hv hno)) hk hp

theorem Copied.trans (h : Copied C roots shared K P pages s s')
    (h' : Copied C roots shared K P pages' s' s'') :
    Copied C roots shared K P (pages ∪ pages') s s'' where
  toRangeWrite := (h.toRangeWrite.mono Set.subset_union_left).trans
    (h'.toRangeWrite.mono Set.subset_union_right)
  kernel := fun v => (h'.kernel v).trans (h.kernel v)
  either := fun v => by
    rcases h'.either v with h2 | h2
    · rw [h2]
      exact h.either v
    · rw [h2, h.kernel]
      exact .inr rfl
  copied := fun v hv hk hp => by
    by_cases hv' : pageNumber v ∈ pages'
    · have hp' : translation D s'.mem P v ≠ 0 := by
        rcases h.either v with h1 | h1 <;> rwa [h1]
      rw [h'.copied v hv' (by rwa [h.kernel]) hp', h.kernel]
    · have h1 := h.copied v (hv.resolve_right hv') hk hp
      rcases h'.either v with h2 | h2
      · rw [h2, h1]
      · rw [h2, h.kernel]

theorem Copied.refl (hf : Forest C roots shared s) : Copied C roots shared K P ∅ s s where
  toRangeWrite := hf.quiet_self.range _
  kernel := fun _ => rfl
  either := fun _ => .inl rfl
  copied := fun _ hv => absurd hv (Set.notMem_empty _)

/-- One page with the translation of the kernel. -/
theorem vmap_copied (hf : Forest C roots shared s) (hK : K ∈ roots) (hP : P ∈ roots) {flags : ℕ}
    (hflags : EntryFlags flags) (v : ℕ) :
    Copied C roots shared K P {pageNumber v} s
      (vmap A D.hhdmOffset P v (translation D s.mem K v) flags s).2 := by
  obtain ⟨ha, hlt⟩ := translation_frame hf hK v
  have he : translation D s.mem K v ||| flags < 2^64 := Nat.or_lt_two_pow (by omega) hflags.lt
  have hrange := vmap_range (A := A) hf hP v (translation D s.mem K v) flags he
  rcases vmap_effect (A := A) hf hP v (translation D s.mem K v) flags he with
    ⟨-, hzero, hq⟩ | ⟨-, hw⟩
  · refine ⟨hrange, fun w => translation_leaf hf hrange.forest hK (hq.leaf K hK w),
      fun w => .inl (translation_leaf hf hrange.forest hP (hq.leaf P hP w)), fun w hw _ hp => ?_⟩
    refine absurd ?_ hp
    rw [translation_page hf hP hw, translation, virtToPhys_leaf hf hP, hzero, Nat.zero_and,
      if_pos rfl]
  · have hhere : translation D (vmap A D.hhdmOffset P v (translation D s.mem K v) flags
      s).2.mem P v =
        translation D s.mem K v := hflags.translation hrange.forest hP ha hlt hw.here
    refine ⟨hrange, fun w => ?_, fun w => ?_, fun w hpage _ _ => ?_⟩
    · by_cases hpage : pageNumber w = pageNumber v
      · rw [translation_page hrange.forest hK hpage, translation_page hf hK hpage]
        have hseen : leafEntry D (vmap A D.hhdmOffset P v (translation D s.mem K v) flags
          s).2.mem K v =
            leafEntry D s.mem K v ∨
          leafEntry D (vmap A D.hhdmOffset P v (translation D s.mem K v) flags s).2.mem K v =
            translation D s.mem K v ||| flags := by
          by_cases hKP : K = P
          · right
            rw [hKP] at hw ⊢
            exact hw.here
          · exact (hw.others K hK hKP).imp_right And.right
        rcases hseen with hold | hnew
        · exact translation_leaf hf hrange.forest hK hold
        · exact hflags.translation hrange.forest hK ha hlt hnew
      · exact translation_leaf hf hrange.forest hK (hw.elsewhere K hK w hpage)
    · by_cases hpage : pageNumber w = pageNumber v
      · rw [translation_page hrange.forest hP hpage, translation_page hf hK hpage]
        exact .inr hhere
      · exact .inl (translation_leaf hf hrange.forest hP (hw.elsewhere P hP w hpage))
    · rw [translation_page hrange.forest hP hpage, translation_page hf hK hpage]
      exact hhere

theorem mapRange_copied (hf : Forest C roots shared s) (hK : K ∈ roots) (hP : P ∈ roots)
    {flags : ℕ} (hflags : EntryFlags flags) (start n i : ℕ) :
    Copied C roots shared K P (pagesOf start i n) s
      (mapRangeToPagemap A D.hhdmOffset P K start flags n i s) := by
  induction n generalizing i s with
  | zero => exact (Copied.refl hf).mono (Set.empty_subset _) (by rintro v ⟨j, h1, h2, -⟩; omega)
  | succ n ih =>
    rw [mapRangeToPagemap]
    have hstep : Copied C roots shared K P {pageNumber (wrap (start+4096*i))} s
        (if virtToPhys D.hhdmOffset s.mem K (wrap (start+4096*i)) ≠ 0 then
          (vmap A D.hhdmOffset P (wrap (start+4096*i))
            (virtToPhys D.hhdmOffset s.mem K (wrap (start+4096*i))) flags s).2 else s) := by
      by_cases h0 : virtToPhys D.hhdmOffset s.mem K (wrap (start+4096*i)) = 0
      · rw [if_neg (not_not.mpr h0)]
        exact (Copied.refl hf).mono (Set.empty_subset _)
          (fun v hv _ => (translation_page hf hK hv).trans h0)
      · rw [if_pos h0]
        exact vmap_copied hf hK hP hflags _
    refine (hstep.trans (ih hstep.forest (i+1))).mono ?_ ?_
    · exact Set.union_subset (pagesOf_head start i n) (pagesOf_succ start i n)
    · rintro v ⟨j, h1, h2, hj⟩ hno
      refine absurd ?_ hno
      by_cases hji : j = i
      · exact .inl (hj.trans (by rw [hji]))
      · exact .inr ⟨j, by omega, by omega, hj⟩

/-- The pages that the loop over the regions visits in one of them. -/
def regionPages (r : Vregion) : Set ℕ := pagesOf r.start 0 (wrap (4096*r.pages) / 4096)

/-- The pages of the regions of a list of nodes. -/
def nodePages (regions : ℕ → Vregion) (nodes : List ℕ) : Set ℕ :=
  {q | ∃ x ∈ nodes, q ∈ regionPages (regions x)}

theorem nodePages_cons (regions : ℕ → Vregion) (x : ℕ) (nodes : List ℕ) :
    nodePages regions (x::nodes) = regionPages (regions x) ∪ nodePages regions nodes := by
  ext q
  simp [nodePages]

theorem mapRegions_copied {regions : ℕ → Vregion} (hf : Forest C roots shared s) (hK : K ∈ roots)
    (hP : P ∈ roots) {flags : ℕ} (hflags : EntryFlags flags) {fuel region : ℕ}
    (h : mapRegions A D.hhdmOffset K P flags regions fuel region s = some s') :
    Copied C roots shared K P (nodePages regions (nodesFrom regions fuel region)) s s' := by
  induction fuel generalizing region s with
  | zero => exact absurd h (by simp [mapRegions])
  | succ fuel ih =>
    rw [mapRegions] at h
    rw [nodesFrom]
    by_cases h0 : region = 0
    · rw [if_pos h0] at h ⊢
      rw [← Option.some.inj h]
      exact (Copied.refl hf).mono (Set.empty_subset _) (by rintro v ⟨x, hx, -⟩; simp at hx)
    · rw [if_neg h0] at h ⊢
      have hstep := mapRange_copied (A := A) hf hK hP hflags (regions region).start
        (wrap (4096*(regions region).pages) / 4096) 0
      rw [nodePages_cons]
      exact hstep.trans (ih hstep.forest h)

/-- Everything `sched_spawn` maps besides the stack. -/
theorem mapKernel_copied {v v' : State σ} {kvm proc table flags : ℕ}
    (hf : Forest C roots shared v.phys) (hK : K ∈ roots) (hP : P ∈ roots)
    (hflags : EntryFlags flags)
    (h : mapKernel A D.hhdmOffset K kvm proc table P flags v = some ((), v')) :
    Copied C roots shared K P ({pageNumber proc} ∪ pagesOf table 0 1 ∪
        nodePages v.regions (regionNodes v kvm)) v.phys v'.phys ∧
      v'.regions = v.regions ∧ v'.ctxs = v.ctxs := by
  obtain ⟨p, hp, he⟩ := Option.map_eq_some_iff.mp h
  obtain ⟨-, rfl⟩ := Prod.mk.inj he
  have h1 := vmap_copied (A := A) hf hK hP hflags proc
  have h2 := mapRange_copied (A := A) h1.forest hK hP hflags table (8*procMaxProcsPerCpu/4096) 0
  exact ⟨(h1.trans h2).trans (mapRegions_copied h2.forest hK hP hflags hp), rfl, rfl⟩

end Emk.Sched
