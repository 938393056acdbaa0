import Emk.PagingRefinement

/-!
# Effective permissions of a mapped page

The processor combines the bits of the four entries on the way to a page.
Entries above the leaves are created with all low permissions and collect
only low flag bits afterwards, so the leaf entry alone decides: a page has
the permissions of the last call that mapped it.
-/

set_option autoImplicit false

namespace Emk.PagingPermissions
open Emk.ByteMemory Emk.MachineWord Emk.DirectMap Emk.PageAllocator Emk.Paging Emk.RadixForest
open Emk.PagingForest Emk.PagingRefinement Emk.Transition Emk.ReferenceAllocator

/-- The entries a walk reads, from the top level down; `none` at an absent one. -/
def pageWalk (hhdmOffset : ℕ) (m : Mem) (virt : ℕ) : List ℕ → ℕ → Option (List ℕ)
  | [], _ => some []
  | shift::shifts, table =>
    let e := load64 m (table+8*pageIndex virt shift)
    if e &&& vmmPresent = 0 then none
    else (pageWalk hhdmOffset m virt shifts (higherHalf hhdmOffset (e &&& pageMask))).map (e :: ·)

def walkShifts : List ℕ := [pml4Shift, pml3Shift, pml2Shift, pml1Shift]

structure Permissions where
  writable : Bool
  user : Bool
  noExecute : Bool
  deriving DecidableEq, Repr

def effective (entries : List ℕ) : Permissions where
  writable := entries.all (fun e => e &&& vmmWrite != 0)
  user := entries.all (fun e => e &&& vmmUser != 0)
  noExecute := entries.any (fun e => e &&& vmmNx != 0)

def requested (flags : ℕ) : Permissions where
  writable := flags &&& vmmWrite != 0
  user := flags &&& vmmUser != 0
  noExecute := flags &&& vmmNx != 0

structure World (σ : Type) where
  phys : Phys σ
  flags : ℕ → Option ℕ

variable {σ : Type} {D : Layout} {A : Ops σ}

/-- The flags of the last call that mapped a page and was not undone. -/
def step (D : Layout) (A : Ops σ) (pm : ℕ) (w : World σ) : Op → World σ
  | .vmap virt phys flags =>
    let q := vmap A D.hhdmOffset pm virt phys flags w.phys
    ⟨q.2, if q.1 = 0 then Function.update w.flags (pageNumber virt) (some flags) else w.flags⟩
  | .vunmap virt =>
    let q := vunmap D.hhdmOffset pm virt w.phys
    ⟨q.2, if q.1 = 0 then Function.update w.flags (pageNumber virt) none else w.flags⟩

def Mapping : Op → Prop
  | .vmap virt phys flags => Proper (.vmap virt phys flags)
  | .vunmap _ => True

/-- An entry that leads to a table grants everything. -/
def Open (e : ℕ) : Prop :=
  e &&& vmmPresent ≠ 0 → e &&& vmmWrite ≠ 0 ∧ e &&& vmmUser ≠ 0 ∧ e &&& vmmNx = 0

theorem open_of_absent {e : ℕ} (h : e &&& vmmPresent = 0) : Open e := fun hp => absurd h hp

theorem or_low_open {e : ℕ} (flags : ℕ) (hp : e &&& vmmPresent ≠ 0) (h : Open e) :
    Open (e ||| (flags &&& 0xFF)) := by
  obtain ⟨hw, hu, hn⟩ := h hp
  have hkeep : ∀ b, e &&& b ≠ 0 → (e ||| (flags &&& 0xFF)) &&& b ≠ 0 := by
    intro b hb
    rw [Nat.or_comm]
    exact or_one_bit _ _ _ hb
  refine fun _ => ⟨hkeep _ hw, hkeep _ hu, ?_⟩
  rw [Nat.and_or_distrib_right, hn, Nat.and_assoc, show 0xFF &&& vmmNx = 0 by decide, Nat.and_zero,
    Nat.or_zero]

theorem table_open {g : ℕ} (ha : g % 4096 = 0) (hlt : g < 2^52) : Open (g ||| 0b111) := by
  refine fun _ => ⟨or_one_bit _ _ _ (by decide), or_one_bit _ _ _ (by decide), ?_⟩
  rw [frame_or_and _ ha hlt (by decide)]
  decide

/-- Every entry above the leaves is open. -/
def Inner (D : Layout) (roots : Set ℕ) (m : Mem) : Prop :=
  ∀ r ∈ roots, ∀ (p : List (Fin 512)) (t : ℕ), p.length < 3 → descend (child D m) r p = some t →
    ∀ i : Fin 512, Open (load64 m (t+8*i))

variable {C : Contract D A} {roots : Set ℕ} {shared : Set (Fin 512)} {s : Phys σ}

theorem inner_agree (hf : Forest C roots shared s) (hi : Inner D roots s.mem) {m : Mem}
    (h : Set.EqOn m s.mem (frames D (C.owned s))) : Inner D roots m := by
  intro r hr p t hp ht i
  have hagree := h.mono (frames_mono D (tableFrames_owned hf))
  rw [descend_agree hf hagree hr p (by omega)] at ht
  obtain ⟨f, hfo, rfl, -⟩ := hf.node hr (by omega) ht
  rw [load_entry_congr (fun a ha => h ⟨f, hfo, ha⟩) i]
  exact hi r hr p _ hp ht i

section StoreEntry
variable (hf : Forest C roots shared s) (hi : Inner D roots s.mem) {r : ℕ} (hr : r ∈ roots)
  {p : List (Fin 512)} (hp : p.length ≤ 3) {f : ℕ}
  (ht : descend (child D s.mem) r p = some (D.hhdmOffset+f)) (i : Fin 512) {e : ℕ}
include hf hi hr hp ht

/-- Every entry above the leaves that the tables of `s` had is open after the
write of an open one. -/
theorem open_store (he : e < 2^64) (hopen : Open e) {r' : ℕ} (hr' : r' ∈ roots)
    {q : List (Fin 512)} {u : ℕ} (hq : q.length < 3)
    (hu : descend (child D s.mem) r' q = some u) (j : Fin 512) :
    Open (load64 (store64 s.mem (D.hhdmOffset+f+8*i) e) (u+8*j)) := by
  obtain ⟨g, -, rfl, -⟩ := hf.node hr' (by omega) hu
  by_cases hne : D.hhdmOffset+g ≠ D.hhdmOffset+f ∨ j ≠ i
  · rw [load_node_store hf hr hp ht i e ⟨r', hr', q, by omega, hu⟩ j hne]
    exact hi r' hr' q _ hq hu j
  · push Not at hne
    rw [hne.1, hne.2, load_store64 _ _ _ he]
    exact hopen

theorem inner_store_same (he : e < 2^64) (hopen : Open e)
    (hsame : child D (store64 s.mem (D.hhdmOffset+f+8*i) e) (D.hhdmOffset+f) i =
      child D s.mem (D.hhdmOffset+f) i) :
    Inner D roots (store64 s.mem (D.hhdmOffset+f+8*i) e) := by
  intro r' hr' q u hq hu j
  rw [descend_store_same hf hr hp ht i e hsame r' hr' q (by omega)] at hu
  exact open_store hf hi hr hp ht i he hopen hr' hq hu j

/-- Leaf entries are not constrained. -/
theorem inner_store_leaf (hlen : p.length = 3) :
    Inner D roots (store64 s.mem (D.hhdmOffset+f+8*i) e) := by
  intro r' hr' q u hq hu j
  rw [descend_store_leaf hf hr hp ht i e hlen r' hr' q (by omega)] at hu
  obtain ⟨g, -, rfl, -⟩ := hf.node hr' (by omega) hu
  rw [load_node_store hf hr hp ht i e ⟨r', hr', q, by omega, hu⟩ j]
  · exact hi r' hr' q _ hq hu j
  · left
    intro hg
    rw [hg] at hu
    have hpath := (hf.separate r' hr' r hr q p _ (by omega) hp hu ht).1
    rw [hpath] at hq
    omega

end StoreEntry

theorem orFlags_inner (hf : Forest C roots shared s) (hi : Inner D roots s.mem) {r : ℕ}
    (hr : r ∈ roots) {p : List (Fin 512)} (hp : p.length < 3) {f : ℕ}
    (ht : descend (child D s.mem) r p = some (D.hhdmOffset+f)) (i : Fin 512) (flags : ℕ)
    (hpresent : load64 s.mem (D.hhdmOffset+f+8*i) &&& vmmPresent ≠ 0) :
    Inner D roots (orFlags D.hhdmOffset (D.hhdmOffset+f) i flags s).2.mem := by
  have he : load64 s.mem (D.hhdmOffset+f+8*i) ||| (flags &&& 0xFF) < 2^64 :=
    Nat.or_lt_two_pow (load64_lt _ _) (lt_of_le_of_lt Nat.and_le_right (by decide))
  refine inner_store_same hf hi hr (le_of_lt hp) ht i he
    (or_low_open flags hpresent (hi r hr p _ hp ht i)) ?_
  rw [child, child, load_store64 _ _ _ he, if_neg (or_present _ _ hpresent), if_neg hpresent,
    or_low_flags_mask]

theorem getOrAllocTable_inner (hf : Forest C roots shared s) (hi : Inner D roots s.mem) {r : ℕ}
    (hr : r ∈ roots) {p : List (Fin 512)} (hp : p.length < 3) {t : ℕ}
    (ht : descend (child D s.mem) r p = some t) (i : Fin 512) (flags : ℕ) :
    Inner D roots (getOrAllocTable A D.hhdmOffset t i flags s).2.mem := by
  obtain ⟨f, hfo, rfl, hfa, hft⟩ := hf.node hr (le_of_lt hp) ht
  rw [getOrAllocTable, if_neg (pointer_ne_zero f hft)]
  dsimp only
  split_ifs with habsent hnull
  · exact inner_agree hf hi (C.palloc_keeps hf.valid true)
  · push Not at hnull
    obtain ⟨g, hg, hga, hgt, hgo, hv, ho, hk⟩ := grant_zeroed hf.valid hnull.1
    obtain ⟨hquiet, hroot, hpres, horigin⟩ := attach_quiet hf hr hp ht i habsent hgo hv ho hk
      (fun a ha => fill_inside _ _ _ _ _ ha)
    have hz := Quiet.of_agree hf hv (by rw [ho]; exact Set.subset_insert _ _) hk
    have hzi := inner_agree hf hi hk
    have hzt := (descend_agree hf (hk.mono (frames_mono D (tableFrames_owned hf))) hr p
      (le_of_lt hp)).trans ht
    have htop := D.top_le_address
    have hbound : g ||| 0b111 < 2^64 := Nat.or_lt_two_pow (by omega) (by decide)
    rw [hg, physical_pointer]
    refine orFlags_inner hquiet.forest ?_ hr hp hroot i flags hpres
    intro r' hr' q u hq hu j
    rcases horigin r' hr' q u (by omega) hu with hold | hzero
    · exact open_store hz.forest hzi hr (le_of_lt hp) hzt i hbound
        (table_open hga (by omega)) hr' hq hold j
    · rw [hzero j]
      exact open_of_absent rfl
  · exact orFlags_inner hf hi hr hp ht i flags habsent

theorem vmap_inner (hf : Forest C roots shared s) (hi : Inner D roots s.mem) {r : ℕ}
    (hr : r ∈ roots) (virt phys flags : ℕ) :
    Inner D roots (vmap A D.hhdmOffset r virt phys flags s).2.mem := by
  have hr0 := hf.root_ne_zero hr
  obtain ⟨hq3, hd3⟩ := getOrAllocTable_quiet hf hr (p := []) (by decide) rfl
    (ix virt pml4Shift) flags
  have hi3 := getOrAllocTable_inner hf hi hr (p := []) (by decide) rfl (ix virt pml4Shift) flags
  rw [vmap, if_neg hr0]
  dsimp only [ix] at hq3 hd3 hi3 ⊢
  split_ifs with h3 h2 h1
  · exact hi3
  all_goals
    obtain ⟨hq2, hd2⟩ := getOrAllocTable_quiet hq3.forest hr (p := [ix virt pml4Shift])
      (by simp) (hd3 h3) (ix virt pml3Shift) flags
    have hi2 := getOrAllocTable_inner hq3.forest hi3 hr (p := [ix virt pml4Shift]) (by simp)
      (hd3 h3) (ix virt pml3Shift) flags
    dsimp only [ix] at hq2 hd2 hi2
  · exact hi2
  all_goals
    obtain ⟨hq1, hd1⟩ := getOrAllocTable_quiet hq2.forest hr
      (p := [ix virt pml3Shift, ix virt pml4Shift]) (by simp) (hd2 h2) (ix virt pml2Shift) flags
    have hi1 := getOrAllocTable_inner hq2.forest hi2 hr
      (p := [ix virt pml3Shift, ix virt pml4Shift]) (by simp) (hd2 h2) (ix virt pml2Shift) flags
    dsimp only [ix] at hq1 hd1 hi1
  · exact hi1
  · have hd := hd1 h1
    obtain ⟨g, -, hg, -, -⟩ := hq1.forest.node hr (p := tablePath virt) (le_refl _) hd
    dsimp only
    rw [hg] at hd ⊢
    exact inner_store_leaf hq1.forest hi1 hr (p := tablePath virt) (le_refl _) hd
      (ix virt pml1Shift) rfl

theorem vunmap_inner (hf : Forest C roots shared s) (hi : Inner D roots s.mem) {r : ℕ}
    (hr : r ∈ roots) (virt : ℕ) : Inner D roots (vunmap D.hhdmOffset r virt s).2.mem := by
  rw [vunmap]
  by_cases h0 : r = 0 ∨ virt &&& (4096-1) ≠ 0
  · rw [if_pos h0]
    exact hi
  rw [if_neg h0]
  obtain ⟨hr0, ⟨hnull, hd⟩ | ⟨h3, h2, h1, hd⟩⟩ := walk_cases hf hr virt
  · dsimp only
    rcases hnull with h | h | h <;> simpa only [h, if_true, ite_self] using hi
  · simp only [if_neg h3, if_neg h2, if_neg h1]
    obtain ⟨g, -, hg, -, -⟩ := hf.node hr (p := tablePath virt) (le_refl _) hd
    rw [hg] at hd ⊢
    exact inner_store_leaf hf hi hr (le_refl _) hd (ix virt pml1Shift) rfl

theorem pageWalk_cons (m : Mem) (virt table shift : ℕ) (shifts : List ℕ) :
    pageWalk D.hhdmOffset m virt (shift::shifts) table =
      (child D m table (ix virt shift)).bind fun u =>
        (pageWalk D.hhdmOffset m virt shifts u).map
          (load64 m (table+8*pageIndex virt shift) :: ·) := by
  by_cases h0 : load64 m (table+8*pageIndex virt shift) &&& vmmPresent = 0
  · have hnone : child D m table (ix virt shift) = none := if_pos h0
    rw [pageWalk, if_pos h0, hnone, Option.bind_none]
  · have hsome : child D m table (ix virt shift) = some _ := if_neg h0
    rw [pageWalk, if_neg h0, hsome, Option.bind_some]
    rfl

theorem pageWalk_leaf (m : Mem) (virt table : ℕ) :
    pageWalk D.hhdmOffset m virt [pml1Shift] table =
      if load64 m (table+8*pageIndex virt pml1Shift) &&& vmmPresent = 0 then none
      else some [load64 m (table+8*pageIndex virt pml1Shift)] := by
  rw [pageWalk]
  split_ifs <;> rfl

theorem effective_cons {e : ℕ} (es : List ℕ)
    (h : e &&& vmmWrite ≠ 0 ∧ e &&& vmmUser ≠ 0 ∧ e &&& vmmNx = 0) :
    effective (e::es) = effective es := by
  simp [effective, h.1, h.2.1, h.2.2]

theorem effective_singleton (e : ℕ) : effective [e] = requested e := by
  simp [effective, requested]

/-- Above the leaves nothing is taken away. -/
theorem effective_open {m : Mem} (hi : Inner D roots m) {r : ℕ} (hr : r ∈ roots)
    {p : List (Fin 512)} (hp : p.length < 3) {t : ℕ} (ht : descend (child D m) r p = some t)
    (virt shift : ℕ) (shifts : List ℕ) :
    (pageWalk D.hhdmOffset m virt (shift::shifts) t).map effective =
      (child D m t (ix virt shift)).bind fun u =>
        (pageWalk D.hhdmOffset m virt shifts u).map effective := by
  rw [pageWalk_cons]
  cases hc : child D m t (ix virt shift) with
  | none => rfl
  | some u =>
    have hpresent : load64 m (t+8*pageIndex virt shift) &&& vmmPresent ≠ 0 := by
      intro h0
      rw [child, show ((ix virt shift : Fin 512) : ℕ) = pageIndex virt shift from rfl, if_pos h0]
        at hc
      exact absurd hc (by simp)
    have hopen := hi r hr p t hp ht (ix virt shift) hpresent
    rw [Option.bind_some, Option.bind_some, Option.map_map]
    congr 1
    funext es
    exact effective_cons es hopen

/-- The permissions of a walk are those of the leaf entry. -/
theorem effective_walk {m : Mem} (hi : Inner D roots m) {r : ℕ} (hr : r ∈ roots) (v : ℕ) :
    (pageWalk D.hhdmOffset m v walkShifts r).map effective =
      if leafEntry D m r v &&& vmmPresent = 0 then none
        else some (requested (leafEntry D m r v)) := by
  rw [walkShifts, effective_open hi hr (p := []) (by decide) rfl, leafEntry, tablePath]
  cases h3 : child D m r (ix v pml4Shift) with
  | none =>
    have hd : descend (child D m) r [ix v pml2Shift, ix v pml3Shift, ix v pml4Shift] = none := by
      simp [descend, h3]
    rw [hd, Option.bind_none, if_pos (Nat.zero_and _)]
  | some t3 =>
    have d3 : descend (child D m) r [ix v pml4Shift] = some t3 := by simp [descend, h3]
    rw [Option.bind_some, effective_open hi hr (p := [ix v pml4Shift]) (by simp) d3]
    cases h2 : child D m t3 (ix v pml3Shift) with
    | none =>
      have hd : descend (child D m) r [ix v pml2Shift, ix v pml3Shift, ix v pml4Shift] = none := by
        rw [descend, descend, d3, Option.bind_some, h2, Option.bind_none]
      rw [hd, Option.bind_none, if_pos (Nat.zero_and _)]
    | some t2 =>
      have d2 : descend (child D m) r [ix v pml3Shift, ix v pml4Shift] = some t2 := by
        rw [descend, d3, Option.bind_some, h2]
      rw [Option.bind_some, effective_open hi hr (p := [ix v pml3Shift, ix v pml4Shift])
        (by simp) d2,
        descend, d2, Option.bind_some]
      cases h1 : child D m t2 (ix v pml2Shift) with
      | none => rw [Option.bind_none, if_pos (Nat.zero_and _)]
      | some t1 =>
        rw [Option.bind_some, pageWalk_leaf]
        dsimp only
        split_ifs
        · rfl
        · rw [Option.map_some, effective_singleton]

/-- A mapped page carries the flags of its last mapping in its leaf entry. -/
structure Inv (C : Contract D A) (pm : ℕ) (w : World σ) : Prop where
  forest : Forest C {pm} ∅ w.phys
  inner : Inner D {pm} w.phys.mem
  leaf : ∀ v, (w.flags (pageNumber v) = none ∧ leafEntry D w.phys.mem pm v = 0) ∨
    ∃ phys flags, w.flags (pageNumber v) = some flags ∧ Proper (.vmap v phys flags) ∧
      leafEntry D w.phys.mem pm v = phys ||| flags

theorem step_inv {pm : ℕ} (w : World σ) (o : Op) (h : Inv C pm w) (hp : Mapping o) :
    Inv C pm (step D A pm w o) := by
  cases o with
  | vmap virt phys flags =>
    have hinner := vmap_inner h.forest h.inner rfl virt phys flags
    have hlt := Proper.entry_lt (show Proper (.vmap virt phys flags) from hp)
    rcases vmap_effect h.forest rfl virt phys flags hlt with ⟨hret, -, hq⟩ | ⟨hret, hw⟩
    · refine ⟨hq.forest, hinner, fun v => ?_⟩
      simp only [step, hret, show ¬(-1 : Int) = 0 by decide, if_false]
      rw [hq.leaf pm rfl v]
      exact h.leaf v
    · refine ⟨hw.forest, hinner, fun v => ?_⟩
      simp only [step, hret, if_true]
      by_cases hv : pageNumber v = pageNumber virt
      · right
        refine ⟨phys, flags, by rw [hv, Function.update_self], hp, ?_⟩
        rw [leafEntry_page hv, hw.here]
      · rw [hw.elsewhere pm rfl v hv, Function.update_of_ne hv]
        exact h.leaf v
  | vunmap virt =>
    by_cases ha : virt % 4096 = 0
    · obtain ⟨hret, hw⟩ := vunmap_effect h.forest rfl virt ha
      refine ⟨hw.forest, vunmap_inner h.forest h.inner rfl virt, fun v => ?_⟩
      simp only [step, hret, if_true]
      by_cases hv : pageNumber v = pageNumber virt
      · left
        rw [hv, Function.update_self, leafEntry_page hv, hw.here]
        exact ⟨rfl, rfl⟩
      · rw [hw.elsewhere pm rfl v hv, Function.update_of_ne hv]
        exact h.leaf v
    · simp only [step, vunmap_unaligned pm ha, show ¬(-1 : Int) = 0 by decide, if_false]
      exact h

theorem start_inv (C : Contract D A) {s : Phys σ} (hv : C.Valid s) {f : ℕ} (hf : f ∈ C.owned s)
    (hz : ∀ a ∈ frame D f, s.mem a = 0) : Inv C (D.hhdmOffset+f) ⟨s, fun _ => none⟩ := by
  obtain ⟨hforest, hleaf⟩ := forest_zeroed C ∅ hv hf hz
  refine ⟨hforest, ?_, fun v => .inl ⟨rfl, hleaf v⟩⟩
  rintro r rfl p t hp ht i
  obtain ⟨-, rfl⟩ := descend_zeroed hz p t ht
  dsimp only
  rw [load_zeroed hz i]
  exact open_of_absent rfl

theorem requested_entry {virt phys flags : ℕ} (h : Proper (.vmap virt phys flags)) :
    requested (phys ||| flags) = requested flags := by
  have hbit : ∀ b, pageMask &&& b = 0 → (phys ||| flags) &&& b = flags &&& b :=
    fun b hb => frame_or_and flags h.1 h.2.1 hb
  rw [requested, requested, hbit _ (by decide), hbit _ (by decide), hbit _ (by decide)]

theorem Inv.permissions {pm : ℕ} {w : World σ} (h : Inv C pm w) (v : ℕ) :
    (pageWalk D.hhdmOffset w.phys.mem v walkShifts pm).map effective =
      (w.flags (pageNumber v)).map requested := by
  rw [effective_walk h.inner rfl]
  rcases h.leaf v with ⟨hf, hl⟩ | ⟨phys, flags, hf, hp, hl⟩
  · rw [hf, hl, if_pos (Nat.zero_and _), Option.map_none]
  · rw [hf, hl, if_neg hp.entry_present, requested_entry hp, Option.map_some]

/-- After every sequence of calls on a page map that started as a zeroed page
a walk grants exactly what the last mapping of the page asked for, and finds
nothing where no mapping is in force. -/
theorem effective_permissions (C : Contract D A) (s : Phys σ) (hv : C.Valid s) (f : ℕ)
    (hf : f ∈ C.owned s) (hz : ∀ a ∈ frame D f, s.mem a = 0) (ops : List Op)
    (hops : ∀ o ∈ ops, Mapping o) (v : ℕ) :
    let w := run (step D A (D.hhdmOffset+f)) ⟨s, fun _ => none⟩ ops
    (pageWalk D.hhdmOffset w.phys.mem v walkShifts (D.hhdmOffset+f)).map effective =
      (w.flags (pageNumber v)).map requested := by
  have hinv := run_invariant (C := fun _ o => Mapping o) (fun w o hw ho => step_inv w o hw ho)
    (start_inv C hv hf hz) (along_of_forall hops)
  exact hinv.permissions v

theorem effective_permissions_small :
    (pageWalk smallLayout.hhdmOffset
      (run (step smallLayout smallOps smallLayout.hhdmOffset) ⟨smallPhys, fun _ => none⟩
        [.vmap 0x1000 0x5000 0b111, .vmap 0x2000 0x6000 (1 <<< 63 ||| 0b1),
          .vunmap 0x1000]).phys.mem
      0x2000 walkShifts smallLayout.hhdmOffset).map effective = some ⟨false, false, true⟩ := by
  have h := effective_permissions smallContract.toContract smallPhys smallPhys_valid 0
    smallPhys_owned (fun _ _ => rfl)
    [.vmap 0x1000 0x5000 0b111, .vmap 0x2000 0x6000 (1 <<< 63 ||| 0b1), .vunmap 0x1000]
    (by simp [Mapping, Proper, FlagSet]; decide) 0x2000
  rw [Nat.add_zero] at h
  refine h.trans ?_
  decide +kernel

end Emk.PagingPermissions
