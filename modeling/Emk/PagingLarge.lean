import Emk.PagingRange
import Emk.PagingRoom

/-!
# Large pages

`vmap_large` of `arch/paging.c`, as it is built with `LARGE_PAGES`. It writes
a leaf one level above the last tables. The other functions take a present
entry of that level for a pointer to a table, so they read and write the
memory that is mapped.
-/

set_option autoImplicit false

namespace Emk.PagingLarge
open Emk.ByteMemory Emk.MachineWord Emk.DirectMap Emk.PageAllocator Emk.Paging Emk.RadixForest
open Emk.PagingForest Emk.PagingRefinement Emk.PagingWrites Emk.PagingRoom Emk.Vmm
open Emk.Transition Emk.ReferenceAllocator

def pageSize2M : ℕ := 2*1024*1024

/-- Bit 7 of an entry above the last level. -/
def largeBit : ℕ := 1 <<< 7

variable {σ : Type} (A : Ops σ) (hhdmOffset : ℕ)

/-- `supported` is the answer of `cpuid`. -/
def vmapLarge (supported : Bool) (pagemap virt phys flags : ℕ) (s : Phys σ) : Int × Phys σ :=
  if pagemap = 0 ∨ virt &&& (pageSize2M-1) ≠ 0 ∨ phys &&& (pageSize2M-1) ≠ 0 then (-1, s)
  else if supported = false then (-1, s)
  else
    let r3 := getOrAllocTable A hhdmOffset pagemap (pageIndex virt pml4Shift) flags s
    if r3.1 = 0 then (-1, r3.2)
    else
      let r2 := getOrAllocTable A hhdmOffset r3.1 (pageIndex virt pml3Shift) flags r3.2
      if r2.1 = 0 then (-1, r2.2)
      else
        (0, { r2.2 with
          mem := store64 r2.2.mem (r2.1+8*pageIndex virt pml2Shift)
            (phys ||| flags ||| largeBit) })

/-- A call on the page map `pm`. -/
def call (pm : ℕ) (s : Phys σ) : Op → Int × Phys σ
  | .vmap virt phys flags => vmap A hhdmOffset pm virt phys flags s
  | .vunmap virt => vunmap hhdmOffset pm virt s

def after (pm : ℕ) (s : Phys σ) (o : Op) : Phys σ := (call A hhdmOffset pm s o).2

/-- The arguments are 64-bit words, and the page allocator has the pages for
the tables that are missing. -/
def Served (pm : ℕ) (s : Phys σ) : Op → Prop
  | .vmap virt phys flags =>
    phys < 2^64 ∧ flags < 2^64 ∧ VmapGranted A hhdmOffset pm ⟨virt, phys, flags⟩ s
  | .vunmap _ => True

/-- After every sequence of calls that both states can serve, the two page
maps translate every address alike. -/
def Agree (pm : ℕ) (s t : Phys σ) : Prop :=
  ∀ ops, Along (after A hhdmOffset pm) (Served A hhdmOffset pm) s ops →
    Along (after A hhdmOffset pm) (Served A hhdmOffset pm) t ops → ∀ v,
      virtToPhys hhdmOffset (run (after A hhdmOffset pm) s ops).mem pm v =
        virtToPhys hhdmOffset (run (after A hhdmOffset pm) t ops).mem pm v

/-- What `virt_to_phys` makes of a leaf entry. -/
def translate (e : ℕ) : ℕ := if e &&& vmmPresent = 0 then 0 else e &&& pageMask

/-- What it makes of entry `i` of the table at `t`. -/
def readTable (m : Mem) (t i : ℕ) : ℕ := if t = 0 then 0 else translate (load64 m (t+8*i))

variable {A hhdmOffset} {D : Layout} {C : Contract D A} {roots : Set ℕ} {shared : Set (Fin 512)}
  {s : Phys σ}

theorem child_absent (m : Mem) (t : ℕ) (i : Fin 512) {e : ℕ} (he : e < 2^64)
    (habsent : e &&& vmmPresent = 0) : child D (store64 m (t+8*i) e) t i = none := by
  rw [child, load_store64 _ _ _ he, if_pos habsent]

section Prune
variable (hf : Forest C roots shared s) {r : ℕ} (hr : r ∈ roots) {p : List (Fin 512)}
  (hp : p.length < 3) {f : ℕ} (ht : descend (child D s.mem) r p = some (D.hhdmOffset+f))
  (i : Fin 512) {e : ℕ} (he : e < 2^64) (habsent : e &&& vmmPresent = 0)
include hf hr hp ht he habsent

theorem child_of_pruned (u : ℕ) (hu : u ∈ Nodes (child D s.mem) roots 3) (j : Fin 512) (t : ℕ)
    (h : child D (store64 s.mem (D.hhdmOffset+f+8*i) e) u j = some t) :
    child D s.mem u j = some t := by
  by_cases hne : u ≠ D.hhdmOffset+f ∨ j ≠ i
  · rwa [child_node_store hf hr (le_of_lt hp) ht i e u hu j hne] at h
  · push Not at hne
    obtain ⟨rfl, rfl⟩ := hne
    rw [child_absent _ _ _ he habsent] at h
    exact absurd h (Option.some_ne_none t).symm

/-- An entry that is not present unlinks what was below it. -/
theorem store_prune :
    Forest C roots shared ⟨store64 s.mem (D.hhdmOffset+f+8*i) e, s.pmm⟩ ∧
      ∀ v, leafEntry D (store64 s.mem (D.hhdmOffset+f+8*i) e) r v =
        if (i::p) <:+ tablePath v then 0 else leafEntry D s.mem r v := by
  have hpruned := child_of_pruned hf hr hp ht i he habsent
  obtain ⟨hvalid, howned⟩ := store_valid hf hr (le_of_lt hp) ht i e
  refine ⟨⟨hvalid, fun t h => ?_, hf.separate.of_pruned hpruned⟩, fun v => ?_⟩
  · rw [howned]
    exact hf.tables t (Nodes_of_pruned hpruned h)
  · have hkeep := descend_update hf.separate hr (le_of_lt hp) ht
      (child_node_store hf hr (le_of_lt hp) ht i e) hr
    split_ifs with hsuf
    · obtain ⟨q, hq⟩ := hsuf
      have hup := hkeep p (by omega) fun h => absurd h.length_le (by simp)
      have hnone : descend (child D (store64 s.mem (D.hhdmOffset+f+8*i) e)) r (i::p) = none := by
        rw [descend, hup, ht]
        exact child_absent _ _ _ he habsent
      exact leafEntry_absent hnone hq.symm
    · rw [leafEntry, leafEntry, hkeep _ (by simp [tablePath]) hsuf]
      cases hu : descend (child D s.mem) r (tablePath v) with
      | none => rfl
      | some u =>
        obtain ⟨g, -, rfl, -, -⟩ := hf.node hr (le_refl _) hu
        refine load_node_store hf hr (le_of_lt hp) ht i e ⟨r, hr, _, le_refl _, hu⟩
          (ix v pml1Shift) (.inl fun hg => ?_)
        rw [hg] at hu
        have hpath := (hf.separate r hr r hr p (tablePath v) _ (le_of_lt hp) (le_refl _) ht hu).1
        rw [hpath] at hp
        simp [tablePath] at hp

end Prune

section Later
variable {pm : ℕ} {t : Phys σ}

/-- Every address is translated alike. -/
structure Alike (C : Contract D A) (pm : ℕ) (s t : Phys σ) : Prop where
  left : Forest C {pm} ∅ s
  right : Forest C {pm} ∅ t
  leaf : ∀ v, translate (leafEntry D s.mem pm v) = translate (leafEntry D t.mem pm v)

theorem Alike.virtToPhys_eq (h : Alike C pm s t) (v : ℕ) :
    virtToPhys D.hhdmOffset s.mem pm v = virtToPhys D.hhdmOffset t.mem pm v := by
  rw [virtToPhys_leaf h.left rfl, virtToPhys_leaf h.right rfl]
  exact h.leaf v

theorem vmap_served (hf : Forest C {pm} ∅ s) {virt phys flags : ℕ}
    (h : Served A D.hhdmOffset pm s (.vmap virt phys flags)) :
    LeafWrite C {pm} ∅ pm virt (phys ||| flags) s
      (vmap A D.hhdmOffset pm virt phys flags s).2 := by
  obtain ⟨hphys, hflags, hgranted⟩ := h
  rcases vmap_effect hf rfl virt phys flags (Nat.or_lt_two_pow hphys hflags) with
    ⟨hfail, -⟩ | ⟨-, hw⟩
  · have hok := vmap_granted hf rfl hgranted
    exact absurd (hok.symm.trans hfail) (by decide)
  · exact hw

theorem Alike.write {virt e : ℕ} {s' t' : Phys σ} (h : Alike C pm s t)
    (hs : LeafWrite C {pm} ∅ pm virt e s s') (ht : LeafWrite C {pm} ∅ pm virt e t t') :
    Alike C pm s' t' where
  left := hs.forest
  right := ht.forest
  leaf := by
    intro v
    by_cases hv : pageNumber v = pageNumber virt
    · rw [leafEntry_page hv, leafEntry_page hv, hs.here, ht.here]
    · rw [hs.elsewhere pm rfl v hv, ht.elsewhere pm rfl v hv]
      exact h.leaf v

theorem Alike.after {o : Op} (h : Alike C pm s t) (hs : Served A D.hhdmOffset pm s o)
    (ht : Served A D.hhdmOffset pm t o) :
    Alike C pm (after A D.hhdmOffset pm s o) (after A D.hhdmOffset pm t o) := by
  cases o with
  | vmap virt phys flags => exact h.write (vmap_served h.left hs) (vmap_served h.right ht)
  | vunmap virt =>
    rw [PagingLarge.after, PagingLarge.after, call, call]
    by_cases ha : virt % 4096 = 0
    · exact h.write (vunmap_effect h.left rfl virt ha).2 (vunmap_effect h.right rfl virt ha).2
    · rw [vunmap_unaligned pm ha, vunmap_unaligned pm ha]
      exact h

theorem Alike.agree (h : Alike C pm s t) : Agree A D.hhdmOffset pm s t := by
  intro ops
  induction ops generalizing s t with
  | nil => exact fun _ _ => h.virtToPhys_eq
  | cons o ops ih => exact fun hs ht => ih (h.after hs.1 ht.1) hs.2 ht.2

end Later

section Large
variable {pm : ℕ} {supported : Bool} {virt phys flags : ℕ}

/-- A call that succeeds writes one entry, after changes that no translation
shows. -/
theorem vmapLarge_returned (hf : Forest C {pm} ∅ s)
    (h : (vmapLarge A D.hhdmOffset supported pm virt phys flags s).1 = 0) :
    virt % pageSize2M = 0 ∧ phys % pageSize2M = 0 ∧ ∃ q f, Quiet C {pm} ∅ s q ∧
      descend (child D q.mem) pm [ix virt pml3Shift, ix virt pml4Shift] =
        some (D.hhdmOffset+f) ∧
      (vmapLarge A D.hhdmOffset supported pm virt phys flags s).2 =
        ⟨store64 q.mem (D.hhdmOffset+f+8*ix virt pml2Shift) (phys ||| flags ||| largeBit),
          q.pmm⟩ := by
  have hmask : ∀ x, x &&& (pageSize2M-1) = x % pageSize2M := fun x =>
    Nat.and_two_pow_sub_one_eq_mod x 21
  rw [vmapLarge, hmask, hmask] at h ⊢
  by_cases harg : pm = 0 ∨ virt % pageSize2M ≠ 0 ∨ phys % pageSize2M ≠ 0
  · rw [if_pos harg] at h
    exact absurd h (show (-1 : Int) ≠ 0 by decide)
  rw [if_neg harg] at h ⊢
  push Not at harg
  by_cases hsup : supported = false
  · rw [if_pos hsup] at h
    exact absurd h (show (-1 : Int) ≠ 0 by decide)
  rw [if_neg hsup] at h ⊢
  have hpm : pm ∈ ({pm} : Set ℕ) := rfl
  obtain ⟨hq3, hd3⟩ := getOrAllocTable_quiet (A := A) hf hpm (p := []) (by decide) rfl
    (ix virt pml4Shift) flags
  dsimp only [ix] at h hq3 hd3 ⊢
  split_ifs at h ⊢ with h3 h2
  · exact absurd h (show (-1 : Int) ≠ 0 by decide)
  · exact absurd h (show (-1 : Int) ≠ 0 by decide)
  · obtain ⟨hq2, hd2⟩ := getOrAllocTable_quiet (A := A) hq3.forest hpm (p := [ix virt pml4Shift])
      (by simp) (hd3 h3) (ix virt pml3Shift) flags
    dsimp only [ix] at hq2 hd2
    obtain ⟨f, -, hft, -, -⟩ := hq2.forest.node rfl
      (p := [ix virt pml3Shift, ix virt pml4Shift]) (by simp) (hd2 h2)
    refine ⟨harg.2.1, harg.2.2, _, f, hq3.trans hq2, ?_, ?_⟩
    · rw [← hft]
      exact hd2 h2
    · rw [hft]

/-- A 2 MiB page holds the addresses that share its last-level table. -/
theorem tablePath_eq_iff (ha : virt % pageSize2M = 0) (v : ℕ) :
    tablePath v = tablePath virt ↔ pageNumber v ∈ pagesOf virt 0 512 := by
  have hpath : tablePath v = tablePath virt ↔ pageNumber v / 512 = pageNumber virt / 512 := by
    simp only [tablePath, ix, Fin.mk.injEq, List.cons.injEq, and_true, pageIndex_eq, pageNumber,
      pml2Shift, pml3Shift, pml4Shift]
    omega
  rw [pageSize2M] at ha
  rw [hpath]
  constructor
  · intro h
    refine ⟨pageNumber v % 512, Nat.zero_le _, by omega, ?_⟩
    rw [pageNumber_wrap, pageNumber_add]
    rw [pageNumber] at h ⊢
    rw [pageNumber] at h
    omega
  · rintro ⟨j, -, hj, hv⟩
    rw [hv, pageNumber_wrap, pageNumber_add, pageNumber]
    omega

/-- Without `VMM_PRESENT` the entry unmaps the whole 2 MiB page. -/
theorem vmapLarge_absent (hf : Forest C {pm} ∅ s) (hphys : phys < 2^64) (hflags : flags < 2^64)
    (h : (vmapLarge A D.hhdmOffset supported pm virt phys flags s).1 = 0)
    (habsent : flags &&& vmmPresent = 0) :
    Forest C {pm} ∅ (vmapLarge A D.hhdmOffset supported pm virt phys flags s).2 ∧
      ∀ v, (pageNumber v ∈ pagesOf virt 0 512 →
          leafEntry D (vmapLarge A D.hhdmOffset supported pm virt phys flags s).2.mem pm v = 0) ∧
        (pageNumber v ∉ pagesOf virt 0 512 →
          leafEntry D (vmapLarge A D.hhdmOffset supported pm virt phys flags s).2.mem pm v =
            leafEntry D s.mem pm v) := by
  obtain ⟨hva, hpa, q, f, hq, hd, heq⟩ := vmapLarge_returned hf h
  have he : phys ||| flags ||| largeBit < 2^64 :=
    Nat.or_lt_two_pow (Nat.or_lt_two_pow hphys hflags) (by decide)
  have hbit : (phys ||| flags ||| largeBit) &&& vmmPresent = 0 := by
    have hlow : phys &&& vmmPresent = 0 := by
      rw [vmmPresent, Nat.shiftLeft_zero, Nat.and_one_is_mod]
      rw [pageSize2M] at hpa
      omega
    rw [Nat.and_or_distrib_right, Nat.and_or_distrib_right, hlow, habsent]
    decide
  obtain ⟨hforest, hleaf⟩ := store_prune hq.forest rfl (by simp) hd (ix virt pml2Shift) he hbit
  rw [heq]
  refine ⟨hforest, fun v => ?_⟩
  have hsuf : (ix virt pml2Shift :: [ix virt pml3Shift, ix virt pml4Shift]) <:+ tablePath v ↔
      pageNumber v ∈ pagesOf virt 0 512 := by
    rw [← tablePath_eq_iff hva]
    exact ⟨fun h => (h.eq_of_length (by simp [tablePath])).symm, fun h => by
      rw [h]
      exact List.suffix_rfl⟩
  rw [hleaf, hq.leaf pm rfl]
  exact ⟨fun hin => if_pos (hsuf.mpr hin), fun hout => if_neg fun h => hout (hsuf.mp h)⟩

/-- The walk through a present entry of this level ends in the mapped memory. -/
theorem virtToPhys_through (hf : Forest C {pm} ∅ s) {f e v : ℕ}
    (hd : descend (child D s.mem) pm [ix v pml3Shift, ix v pml4Shift] = some (D.hhdmOffset+f))
    (he : e < 2^64) (hpresent : e &&& vmmPresent ≠ 0) :
    virtToPhys D.hhdmOffset (store64 s.mem (D.hhdmOffset+f+8*ix v pml2Shift) e) pm v =
      readTable (store64 s.mem (D.hhdmOffset+f+8*ix v pml2Shift) e)
        (higherHalf D.hhdmOffset (e &&& pageMask)) (pageIndex v pml1Shift) := by
  have hpm : pm ∈ ({pm} : Set ℕ) := rfl
  have hpm0 := hf.root_ne_zero hpm
  have hother : ∀ {p : List (Fin 512)} {t : ℕ}, p.length < 2 →
      descend (child D s.mem) pm p = some t → ∀ j,
        child D (store64 s.mem (D.hhdmOffset+f+8*ix v pml2Shift) e) t j = child D s.mem t j := by
    intro p t hp ht j
    refine child_node_store hf hpm (by simp) hd _ e t ⟨pm, hpm, p, by omega, ht⟩ j
      (.inl fun htf => ?_)
    rw [htf] at ht
    have hpath := (hf.separate pm hpm pm hpm _ p _ (by simp) (by omega) hd ht).1
    rw [← hpath] at hp
    simp at hp
  have hlast : child D (store64 s.mem (D.hhdmOffset+f+8*ix v pml2Shift) e) (D.hhdmOffset+f)
      (ix v pml2Shift) = some (higherHalf D.hhdmOffset (e &&& pageMask)) := by
    rw [child, load_store64 _ _ _ he, if_neg hpresent]
  generalize store64 s.mem (D.hhdmOffset+f+8*ix v pml2Shift) e = m at hother hlast ⊢
  obtain ⟨t3, h3, h2⟩ := descend_cons hd
  have t30 := hf.node_ne_zero hpm (by simp) h3
  have t20 := hf.node_ne_zero hpm (by simp) hd
  have e3 := getTable_some hpm0 ((hother (p := []) (by simp) rfl _).trans h3)
  have e2 := getTable_some t30 ((hother (by simp) h3 _).trans h2)
  have e1 := getTable_some t20 hlast
  dsimp only [ix] at e3 e2 e1
  rw [virtToPhys, if_neg hpm0]
  dsimp only
  rw [e3, if_neg t30, e2, if_neg t20, e1]
  rfl

end Large

section Compare
variable {pm : ℕ} {supported : Bool} {virt phys flags : ℕ}

theorem translate_absent {e : ℕ} (h : e &&& vmmPresent = 0) : translate e = 0 := if_pos h

theorem translate_present {e : ℕ} (h : e &&& vmmPresent ≠ 0) : translate e = e &&& pageMask :=
  if_neg h

/-- The entry of a 4 KiB page has the flags and lacks the others. -/
theorem smallEntry_absent {j : ℕ} (hpa : phys % pageSize2M = 0) (h : flags &&& vmmPresent = 0) :
    (wrap (phys+4096*j) ||| flags) &&& vmmPresent = 0 := by
  have hlow : wrap (phys+4096*j) &&& vmmPresent = 0 := by
    rw [vmmPresent, Nat.shiftLeft_zero, Nat.and_one_is_mod, wrap]
    rw [pageSize2M] at hpa
    omega
  rw [Nat.and_or_distrib_right, hlow, h]
  decide

theorem alike_of_absent (hf : Forest C {pm} ∅ s) (hphys : phys < 2^64) (hflags : flags < 2^64)
    (hok : (vmapLarge A D.hhdmOffset supported pm virt phys flags s).1 = 0)
    (hall : MapsAll A D.hhdmOffset pm virt phys flags 512 0 s)
    (habsent : flags &&& vmmPresent = 0) :
    Alike C pm (vmapLarge A D.hhdmOffset supported pm virt phys flags s).2
      (mapPages A D.hhdmOffset pm virt phys flags 512 0 s) := by
  obtain ⟨-, hpa, -⟩ := vmapLarge_returned hf hok
  obtain ⟨hforest, hleaf⟩ := vmapLarge_absent hf hphys hflags hok habsent
  have hsmall := mapPages_range (A := A) hf rfl hflags virt phys 512 0
  refine ⟨hforest, hsmall.forest, fun v => ?_⟩
  by_cases hv : pageNumber v ∈ pagesOf virt 0 512
  · rw [(hleaf v).1 hv, translate_absent (Nat.zero_and _)]
    obtain ⟨j, hj, hjn, hpage⟩ := hv
    rw [leafEntry_page hpage,
      mapPages_entry hf rfl hflags virt phys 512 0 (by norm_num) hall hj hjn,
      translate_absent (smallEntry_absent hpa habsent)]
  · rw [(hleaf v).2 hv, hsmall.elsewhere pm rfl v hv]

/-- What an address of a present 2 MiB page translates to in both cases. -/
theorem translations_of_present (hf : Forest C {pm} ∅ s) (hphys : phys < 2^64)
    (hflags : flags < 2^64)
    (hok : (vmapLarge A D.hhdmOffset supported pm virt phys flags s).1 = 0)
    (hall : MapsAll A D.hhdmOffset pm virt phys flags 512 0 s)
    (hpresent : flags &&& vmmPresent ≠ 0) {j : ℕ} (hj : j < 512) :
    virtToPhys D.hhdmOffset (vmapLarge A D.hhdmOffset supported pm virt phys flags s).2.mem pm
        (wrap (virt+4096*j)) =
      readTable (vmapLarge A D.hhdmOffset supported pm virt phys flags s).2.mem
        (higherHalf D.hhdmOffset ((phys ||| flags ||| largeBit) &&& pageMask)) j ∧
    virtToPhys D.hhdmOffset (mapPages A D.hhdmOffset pm virt phys flags 512 0 s).mem pm
        (wrap (virt+4096*j)) =
      (wrap (phys+4096*j) ||| flags) &&& pageMask := by
  obtain ⟨hva, -, q, f, hq, hd, heq⟩ := vmapLarge_returned hf hok
  have he : phys ||| flags ||| largeBit < 2^64 :=
    Nat.or_lt_two_pow (Nat.or_lt_two_pow hphys hflags) (by decide)
  have hbit : (phys ||| flags ||| largeBit) &&& vmmPresent ≠ 0 :=
    or_present _ _ (or_one_bit phys flags vmmPresent hpresent)
  constructor
  · have hpath : tablePath (wrap (virt+4096*j)) = tablePath virt :=
      (tablePath_eq_iff hva _).mpr ⟨j, Nat.zero_le j, by omega, rfl⟩
    obtain ⟨h2, h3, h4⟩ : ix (wrap (virt+4096*j)) pml2Shift = ix virt pml2Shift ∧
        ix (wrap (virt+4096*j)) pml3Shift = ix virt pml3Shift ∧
        ix (wrap (virt+4096*j)) pml4Shift = ix virt pml4Shift := by
      simpa [tablePath] using hpath
    have hj1 : pageIndex (wrap (virt+4096*j)) pml1Shift = j := by
      rw [pageSize2M] at hva
      rw [pageIndex_eq, pml1Shift, wrap]
      omega
    have hwalk := virtToPhys_through hq.forest (v := wrap (virt+4096*j))
      (by rw [h3, h4]; exact hd) he hbit
    rw [h2, hj1] at hwalk
    rw [heq]
    exact hwalk
  · have hsmall := mapPages_range (A := A) hf rfl hflags virt phys 512 0
    rw [virtToPhys_leaf hsmall.forest rfl,
      mapPages_entry hf rfl hflags virt phys 512 0 (by norm_num) hall (Nat.zero_le j)
        (by omega)]
    exact translate_present (or_one_bit _ _ _ hpresent)

end Compare

/-- The first of the small pages takes the pages for all tables. -/
theorem mapsAll_of_room {room : Phys σ → ℕ} (hR : Room C room) (hf : Forest C roots shared s)
    {r : ℕ} (hr : r ∈ roots) {flags : ℕ} (hflags : flags < 2^64) (vaddr paddr n i : ℕ)
    {p : List (Fin 512)}
    (hpath : ∀ j, i ≤ j → j < i+n → tablePath (wrap (vaddr+4096*j)) = p) {c : ℕ}
    (hc : descend (child D s.mem) r p = none → 0 < c) (hroom : 3*c ≤ room s) :
    MapsAll A D.hhdmOffset r vaddr paddr flags n i s := by
  induction n generalizing i s c with
  | zero => trivial
  | succ n ih =>
    have hhead := hpath i le_rfl (by omega)
    obtain ⟨hg, -, hthere⟩ := vmap_room hR hf hr
      ⟨wrap (vaddr+4096*i), wrap (paddr+4096*i), flags⟩ (fun h => hc (by rwa [hhead] at h)) hroom
    have hok := vmap_granted hf hr hg
    have hstep := vmap_range (A := A) hf hr (wrap (vaddr+4096*i)) (wrap (paddr+4096*i)) flags
      (wrap_or_lt hflags)
    dsimp only at hthere hok
    rw [hhead] at hthere
    exact ⟨hok, ih hstep.forest (i+1) (fun j hij hjn => hpath j (by omega) (by omega))
      (c := 0) (fun h => absurd h hthere) (by omega)⟩

/-- A large page agrees with 512 small ones for ever when it is not present.
When it is, they can only agree if the memory that it maps, read as a page
table, happens to hold the same translations. -/
theorem vmapLarge_agree (C : Contract D A) (pm : ℕ) (s : Phys σ) (hf : Forest C {pm} ∅ s)
    (supported : Bool) (virt phys flags : ℕ) (hphys : phys < 2^64) (hflags : flags < 2^64)
    (hok : (vmapLarge A D.hhdmOffset supported pm virt phys flags s).1 = 0)
    (hall : MapsAll A D.hhdmOffset pm virt phys flags 512 0 s) :
    let large := (vmapLarge A D.hhdmOffset supported pm virt phys flags s).2
    let small := mapPages A D.hhdmOffset pm virt phys flags 512 0 s
    (flags &&& vmmPresent = 0 → Agree A D.hhdmOffset pm large small) ∧
      (Agree A D.hhdmOffset pm large small → flags &&& vmmPresent = 0 ∨
        ∀ j < 512, readTable large.mem
            (higherHalf D.hhdmOffset ((phys ||| flags ||| largeBit) &&& pageMask)) j =
          (wrap (phys+4096*j) ||| flags) &&& pageMask) := by
  refine ⟨fun habsent => (alike_of_absent hf hphys hflags hok hall habsent).agree, fun h => ?_⟩
  refine or_iff_not_imp_left.mpr fun hpresent j hj => ?_
  obtain ⟨hlarge, hsmall⟩ := translations_of_present hf hphys hflags hok hall hpresent hj
  rw [← hlarge, ← hsmall]
  exact h [] trivial trivial _

section Small

/-- An empty page map with its own frame as the only one in use. -/
theorem small_forest : Forest smallContract.toContract {smallLayout.hhdmOffset+0} ∅ smallPhys :=
  (forest_zeroed smallContract.toContract ∅ smallPhys_valid smallPhys_owned fun _ _ => rfl).1

theorem small_mapsAll {flags : ℕ} (hflags : flags < 2^64) :
    MapsAll smallOps smallLayout.hhdmOffset (smallLayout.hhdmOffset+0) 0 0x200000 flags 512 0
      smallPhys := by
  refine mapsAll_of_room (reference_room smallLayout) small_forest rfl hflags 0 0x200000 512 0
    (p := tablePath 0) (c := 1) (fun j _ hj => ?_) (fun _ => Nat.one_pos) (by decide)
  exact (tablePath_eq_iff (by decide) _).mpr ⟨j, Nat.zero_le j, hj, rfl⟩

theorem vmapLarge_agree_small :
    Agree smallOps smallLayout.hhdmOffset (smallLayout.hhdmOffset+0)
      (vmapLarge smallOps smallLayout.hhdmOffset true (smallLayout.hhdmOffset+0) 0 0x200000
        vmmWrite smallPhys).2
      (mapPages smallOps smallLayout.hhdmOffset (smallLayout.hhdmOffset+0) 0 0x200000
        vmmWrite 512 0 smallPhys) :=
  (vmapLarge_agree smallContract.toContract _ smallPhys small_forest true 0 0x200000 vmmWrite
    (by decide) (by decide) (by decide +kernel) (small_mapsAll (by decide))).1 (by decide)

/-- A present large page over memory that is all zero translates to nothing. -/
theorem vmapLarge_untranslated :
    Forest smallContract.toContract {smallLayout.hhdmOffset+0} ∅ smallPhys ∧
      (vmapLarge smallOps smallLayout.hhdmOffset true (smallLayout.hhdmOffset+0) 0 0x200000
        (vmmPresent ||| vmmWrite) smallPhys).1 = 0 ∧
      MapsAll smallOps smallLayout.hhdmOffset (smallLayout.hhdmOffset+0) 0 0x200000
        (vmmPresent ||| vmmWrite) 512 0 smallPhys ∧
      virtToPhys smallLayout.hhdmOffset
        (vmapLarge smallOps smallLayout.hhdmOffset true (smallLayout.hhdmOffset+0) 0 0x200000
          (vmmPresent ||| vmmWrite) smallPhys).2.mem (smallLayout.hhdmOffset+0) 0x1000 = 0 ∧
      virtToPhys smallLayout.hhdmOffset
        (mapPages smallOps smallLayout.hhdmOffset (smallLayout.hhdmOffset+0) 0 0x200000
          (vmmPresent ||| vmmWrite) 512 0 smallPhys).mem (smallLayout.hhdmOffset+0) 0x1000 =
        0x201000 := by
  have hall := small_mapsAll (show vmmPresent ||| vmmWrite < 2^64 by decide)
  have hok : (vmapLarge smallOps smallLayout.hhdmOffset true (smallLayout.hhdmOffset+0) 0 0x200000
      (vmmPresent ||| vmmWrite) smallPhys).1 = 0 := by decide +kernel
  refine ⟨small_forest, hok, hall, by decide +kernel, ?_⟩
  exact (translations_of_present small_forest (by decide) (by decide) hok hall (by decide)
    (j := 1) (by decide)).2.trans (by decide)

end Small

end Emk.PagingLarge
