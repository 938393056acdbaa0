import Emk.Paging
import Emk.RadixForest

/-!
# Page tables as a forest of frames

Page maps that share some top-level slots form a forest of tables. Each table
is an owned frame, found along one index path only. What a walk reads at the
end of a path is the leaf entry of an address; allocating tables on the way
and or-ing flags into the entries that lead to them changes no leaf entry
of any page map.
-/

set_option autoImplicit false

namespace Emk.PagingForest
open Emk.ByteMemory Emk.MachineWord Emk.DirectMap Emk.PageAllocator Emk.Paging Emk.RadixForest

theorem pageMask_field : pageMask = fieldMask 12 40 := by decide

theorem low_flags_mask (flags : ℕ) : (flags &&& 0xFF) &&& pageMask = 0 := by
  rw [Nat.and_assoc, show 0xFF &&& pageMask = 0 by decide, Nat.and_zero]

theorem or_low_flags_mask (x flags : ℕ) : (x ||| (flags &&& 0xFF)) &&& pageMask = x &&& pageMask :=
  or_and_fieldMask _ _ _ (low_flags_mask flags)

theorem frame_mask (f g : ℕ) (ha : f % 4096 = 0) (hb : f < 2^52) (hg : g &&& pageMask = 0) :
    (f ||| g) &&& pageMask = f := by
  rw [or_and_fieldMask _ _ _ hg, pageMask_field]
  exact and_fieldMask_self f 12 40 ha hb

/-- Bits outside the address field of an entry are those of its flags. -/
theorem frame_or_and {p b : ℕ} (flags : ℕ) (ha : p % 4096 = 0) (hlt : p < 2^52)
    (hb : pageMask &&& b = 0) : (p ||| flags) &&& b = flags &&& b := by
  have hself : p &&& pageMask = p := by
    rw [pageMask_field]
    exact and_fieldMask_self p 12 40 ha hlt
  rw [Nat.and_or_distrib_right, ← hself, Nat.and_assoc, hb, Nat.and_zero, Nat.zero_or]

theorem or_present (x g : ℕ) (h : x &&& vmmPresent ≠ 0) : (x ||| g) &&& vmmPresent ≠ 0 := by
  rw [Nat.or_comm]
  exact or_one_bit g x vmmPresent h

theorem pageIndex_eq (v k : ℕ) : pageIndex v k = v / 2^k % 512 := by
  rw [pageIndex, pageIndexMask, show 0x1FF = 2^9-1 by rfl, Nat.and_two_pow_sub_one_eq_mod,
    Nat.shiftRight_eq_div_pow]

def ix (v k : ℕ) : Fin 512 :=
  ⟨pageIndex v k, by rw [pageIndex_eq]; exact Nat.mod_lt _ (by decide)⟩

/-- The 36-bit number of the page that holds an address. -/
def pageNumber (v : ℕ) : ℕ := v / 4096 % 2^36

/-- The indices that lead to the last-level table, the deepest first. -/
def tablePath (v : ℕ) : List (Fin 512) := [ix v pml2Shift, ix v pml3Shift, ix v pml4Shift]

theorem page_eq_iff (v w : ℕ) :
    pageNumber v = pageNumber w ↔
      tablePath v = tablePath w ∧ ix v pml1Shift = ix w pml1Shift := by
  simp only [tablePath, ix, Fin.mk.injEq, List.cons.injEq, and_true, pageIndex_eq, pageNumber,
    pml1Shift, pml2Shift, pml3Shift, pml4Shift]
  omega

theorem ix_of_page {v w : ℕ} (h : pageNumber v = pageNumber w) :
    ix v pml4Shift = ix w pml4Shift := by
  simpa [tablePath] using congrArg List.getLast? ((page_eq_iff v w).mp h).1

/-- Index paths through a top-level slot that page maps may share. -/
def Under (shared : Set (Fin 512)) (p : List (Fin 512)) : Prop := ∃ i, p.getLast? = some i ∧
    i ∈ shared

theorem Under.cons {shared : Set (Fin 512)} (j : Fin 512) (p : List (Fin 512))
    (h : Under shared p) :
    Under shared (j::p) := by
  obtain ⟨i, hi, hh⟩ := h
  refine ⟨i, ?_, hh⟩
  cases p with
  | nil => simp at hi
  | cons a p => simpa [List.getLast?_cons_cons] using hi

theorem under_tablePath (shared : Set (Fin 512)) (v : ℕ) :
    Under shared (tablePath v) ↔ ix v pml4Shift ∈ shared := by
  simp [Under, tablePath]

def child (D : Layout) (m : Mem) (t : ℕ) (i : Fin 512) : Option ℕ :=
  if load64 m (t+8*i) &&& vmmPresent = 0 then none
  else some (higherHalf D.hhdmOffset (load64 m (t+8*i) &&& pageMask))

/-- The entry that maps `v`, zero when a table on the way is missing. -/
def leafEntry (D : Layout) (m : Mem) (r v : ℕ) : ℕ :=
  match descend (child D m) r (tablePath v) with
  | none => 0
  | some t => load64 m (t+8*pageIndex v pml1Shift)

def tableFrames (D : Layout) (m : Mem) (roots : Set ℕ) : Set ℕ :=
  {f | D.hhdmOffset+f ∈ Nodes (child D m) roots 3}

variable {σ : Type} {D : Layout} {A : Ops σ}

structure Forest (C : Contract D A) (roots : Set ℕ) (shared : Set (Fin 512)) (s : Phys σ) :
    Prop where
  valid : C.Valid s
  tables : ∀ t ∈ Nodes (child D s.mem) roots 3, ∃ f ∈ C.owned s, t = D.hhdmOffset+f
  separate : Separate (child D s.mem) roots 3 (Under shared)

/-- From `s` to `s'` only page tables and frames that nobody owned changed,
and no table was unlinked. -/
structure Extends (C : Contract D A) (roots : Set ℕ) (shared : Set (Fin 512)) (s s' : Phys σ) :
    Prop where
  forest : Forest C roots shared s'
  owned : C.owned s ⊆ C.owned s'
  keeps : Set.EqOn s'.mem s.mem (frames D (C.owned s \ tableFrames D s.mem roots))
  tables : ∀ f ∈ tableFrames D s'.mem roots, f ∈ C.owned s → f ∈ tableFrames D s.mem roots
  grows : ∀ r ∈ roots, ∀ (p : List (Fin 512)) (t : ℕ), p.length ≤ 3 →
    descend (child D s.mem) r p = some t → descend (child D s'.mem) r p = some t

/-- Moreover no leaf entry changed. -/
structure Quiet (C : Contract D A) (roots : Set ℕ) (shared : Set (Fin 512)) (s s' : Phys σ) : Prop
    extends Extends C roots shared s s' where
  leaf : ∀ r ∈ roots, ∀ v, leafEntry D s'.mem r v = leafEntry D s.mem r v

variable {C : Contract D A} {roots : Set ℕ} {shared : Set (Fin 512)} {s s' s'' : Phys σ}

theorem Extends.trans (h : Extends C roots shared s s') (h' : Extends C roots shared s' s'') :
    Extends C roots shared s s'' where
  forest := h'.forest
  owned := h.owned.trans h'.owned
  keeps := by
    intro a ha
    have hsub : C.owned s \ tableFrames D s.mem roots ⊆ C.owned s' \ tableFrames D s'.mem roots :=
      fun f hf => ⟨h.owned hf.1, fun ht => hf.2 (h.tables f ht hf.1)⟩
    rw [h'.keeps (frames_mono D hsub ha), h.keeps ha]
  tables := fun f hf ho => h.tables f (h'.tables f hf (h.owned ho)) ho
  grows := fun r hr p t hp ht => h'.grows r hr p t hp (h.grows r hr p t hp ht)

theorem Quiet.trans (h : Quiet C roots shared s s') (h' : Quiet C roots shared s' s'') :
    Quiet C roots shared s s'' where
  toExtends := h.toExtends.trans h'.toExtends
  leaf := fun r hr v => (h'.leaf r hr v).trans (h.leaf r hr v)

theorem Forest.node (hf : Forest C roots shared s) {r : ℕ} (hr : r ∈ roots) {p : List (Fin 512)}
    (hp : p.length ≤ 3) {t : ℕ} (ht : descend (child D s.mem) r p = some t) :
    ∃ f ∈ C.owned s, t = D.hhdmOffset+f ∧ f % 4096 = 0 ∧ f+4096 ≤ D.top := by
  obtain ⟨f, ho, he⟩ := hf.tables t ⟨r, hr, p, hp, ht⟩
  exact ⟨f, ho, he, C.owned_frame hf.valid f ho⟩

/-- A table pointer is never `NULL`. -/
theorem pointer_ne_zero (f : ℕ) (h : f+4096 ≤ D.top) : D.hhdmOffset+f ≠ 0 := by
  have := D.top_le_offset
  omega

theorem Forest.node_ne_zero (hf : Forest C roots shared s) {r : ℕ} (hr : r ∈ roots)
    {p : List (Fin 512)} (hp : p.length ≤ 3) {t : ℕ} (ht : descend (child D s.mem) r p = some t) :
    t ≠ 0 := by
  obtain ⟨f, -, rfl, -, hft⟩ := hf.node hr hp ht
  exact pointer_ne_zero f hft

theorem Forest.root_ne_zero (hf : Forest C roots shared s) {r : ℕ} (hr : r ∈ roots) : r ≠ 0 :=
  hf.node_ne_zero hr (p := []) (Nat.zero_le 3) rfl

theorem entry_range (f : ℕ) (i : Fin 512) :
    Range (D.hhdmOffset+f+8*i) 8 ⊆ frame D f := by
  intro a ha
  simp only [frame, mem_range] at *
  omega

theorem load_entry_congr {m m' : Mem} {f : ℕ} (h : Set.EqOn m' m (frame D f)) (i : Fin 512) :
    load64 m' (D.hhdmOffset+f+8*i) = load64 m (D.hhdmOffset+f+8*i) :=
  load_congr _ _ _ _ (fun _ ha => h (entry_range f i ha))

theorem load_entry_store (m : Mem) {f g : ℕ} (hf : f % 4096 = 0) (hg : g % 4096 = 0)
    (i j : Fin 512) (e : ℕ) (h : g ≠ f ∨ j ≠ i) :
    load64 (store64 m (D.hhdmOffset+f+8*i) e) (D.hhdmOffset+g+8*j) =
      load64 m (D.hhdmOffset+g+8*j) := by
  apply load_store_apart
  rcases h with h | h
  · omega
  · have : j.val ≠ i.val := fun hv => h (Fin.ext hv)
    omega

theorem child_congr {m m' : Mem} {t : ℕ} {i : Fin 512}
    (h : load64 m' (t+8*i) = load64 m (t+8*i)) : child D m' t i = child D m t i := by
  rw [child, child, h]

/-- Memory that agrees on every table gives the same forest. -/
theorem descend_agree (hf : Forest C roots shared s) {m' : Mem}
    (h : Set.EqOn m' s.mem (frames D (tableFrames D s.mem roots)))
    {r : ℕ} (hr : r ∈ roots) (p : List (Fin 512)) (hp : p.length ≤ 3) :
    descend (child D m') r p = descend (child D s.mem) r p := by
  apply descend_congr _ hr p (show p.length ≤ 3+1 by omega)
  intro t ht i
  obtain ⟨f, -, rfl⟩ := hf.tables t ht
  exact child_congr (load_entry_congr (fun a ha => h ⟨f, ht, ha⟩) i)

theorem leaf_agree (hf : Forest C roots shared s) {m' : Mem}
    (h : Set.EqOn m' s.mem (frames D (tableFrames D s.mem roots)))
    {r : ℕ} (hr : r ∈ roots) (v : ℕ) : leafEntry D m' r v = leafEntry D s.mem r v := by
  have hd := descend_agree hf h hr (tablePath v) (le_refl _)
  rw [leafEntry, leafEntry, hd]
  cases ht : descend (child D s.mem) r (tablePath v) with
  | none => rfl
  | some t =>
    obtain ⟨f, -, rfl, -, -⟩ := hf.node hr (le_refl _) ht
    exact load_entry_congr
      (fun a ha => h ⟨f, ⟨r, hr, tablePath v, le_refl _, ht⟩, ha⟩) (ix v pml1Shift)

theorem tableFrames_agree (hf : Forest C roots shared s) {m' : Mem}
    (h : Set.EqOn m' s.mem (frames D (tableFrames D s.mem roots))) :
    tableFrames D m' roots = tableFrames D s.mem roots := by
  ext f
  rw [tableFrames, tableFrames, Set.mem_ofPred_eq, Set.mem_ofPred_eq,
    Nodes_congr (fun r hr p hp => descend_agree hf h hr p hp)]

theorem Forest.agree (hf : Forest C roots shared s) (hv : C.Valid s')
    (ho : ∀ f ∈ tableFrames D s.mem roots, f ∈ C.owned s')
    (h : Set.EqOn s'.mem s.mem (frames D (tableFrames D s.mem roots))) :
      Forest C roots shared s' where
  valid := hv
  tables := by
    intro t ht
    rw [Nodes_congr (fun r hr p hp => descend_agree hf h hr p hp)] at ht
    obtain ⟨f, -, rfl⟩ := hf.tables t ht
    exact ⟨f, ho f ht, rfl⟩
  separate := hf.separate.congr (fun r hr p hp => descend_agree hf h hr p hp)

theorem tableFrames_owned (hf : Forest C roots shared s) :
    tableFrames D s.mem roots ⊆ C.owned s := by
  intro f h
  obtain ⟨g, hg, he⟩ := hf.tables _ h
  obtain rfl : f = g := by omega
  exact hg

/-- A change outside the frames in use leaves the whole forest quiet. -/
theorem Quiet.of_agree (hf : Forest C roots shared s) (hv : C.Valid s')
    (ho : C.owned s ⊆ C.owned s')
    (h : Set.EqOn s'.mem s.mem (frames D (C.owned s))) : Quiet C roots shared s s' where
  forest := hf.agree hv (fun _ hg => ho (tableFrames_owned hf hg))
    (h.mono (frames_mono D (tableFrames_owned hf)))
  owned := ho
  keeps := h.mono (frames_mono D Set.sdiff_subset)
  tables := fun f ht _ => by
    rwa [tableFrames_agree hf (h.mono (frames_mono D (tableFrames_owned hf)))] at ht
  grows := fun r hr p t hp ht =>
    (descend_agree hf (h.mono (frames_mono D (tableFrames_owned hf))) hr p hp).trans ht
  leaf := fun _ hr v => leaf_agree hf (h.mono (frames_mono D (tableFrames_owned hf))) hr v

/-- Writing to frames that hold no table. -/
theorem Forest.write (hf : Forest C roots shared s) {ps : Set ℕ} (hps : ps ⊆ C.owned s)
    (hno : Disjoint ps (tableFrames D s.mem roots)) {m : Mem}
    (hm : Set.EqOn m s.mem (frames D ps)ᶜ) :
    Forest C roots shared ⟨m, s.pmm⟩ ∧ C.owned ⟨m, s.pmm⟩ = C.owned s ∧
      tableFrames D m roots = tableFrames D s.mem roots ∧
      ∀ r ∈ roots, ∀ v, leafEntry D m r v = leafEntry D s.mem r v := by
  have hw : Set.EqOn m s.mem (frames D (C.owned s))ᶜ :=
    fun a ha => hm (fun hin => ha (frames_mono D hps hin))
  have ht : Set.EqOn m s.mem (frames D (tableFrames D s.mem roots)) := by
    rintro a ⟨f, hft, ha⟩
    apply hm
    rintro ⟨g, hg, hga⟩
    have hfa := (C.owned_frame hf.valid f (tableFrames_owned hf hft)).1
    obtain rfl := frame_unique D hfa (C.owned_frame hf.valid g (hps hg)).1 ha hga
    exact Set.disjoint_left.mp hno hg hft
  have ho := C.write_owned hf.valid m hw
  refine ⟨hf.agree (C.write_valid hf.valid m hw) (fun f hft => ?_) ht, ho,
    tableFrames_agree hf ht, fun r hr v => leaf_agree hf ht hr v⟩
  rw [ho]
  exact tableFrames_owned hf hft

/-- Frames that hold no table are given back. -/
theorem Forest.freed (hf : Forest C roots shared s) {ps : Set ℕ}
    (hno : Disjoint ps (tableFrames D s.mem roots)) (hv : C.Valid s')
    (ho : C.owned s \ ps ⊆ C.owned s')
    (hk : Set.EqOn s'.mem s.mem (frames D (C.owned s \ ps))) :
    Forest C roots shared s' ∧ tableFrames D s'.mem roots = tableFrames D s.mem roots ∧
      ∀ r ∈ roots, ∀ v, leafEntry D s'.mem r v = leafEntry D s.mem r v := by
  have hsub : tableFrames D s.mem roots ⊆ C.owned s \ ps := fun f hft =>
    ⟨tableFrames_owned hf hft, fun hr => Set.disjoint_left.mp hno hr hft⟩
  have ht := hk.mono (frames_mono D hsub)
  exact ⟨hf.agree hv (fun f hft => ho (hsub hft)) ht, tableFrames_agree hf ht,
    fun r hr v => leaf_agree hf ht hr v⟩

end Emk.PagingForest
