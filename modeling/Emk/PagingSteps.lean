import Emk.PagingForest

/-!
# Single writes into page tables

Each write of the paging code hits one entry of one table. Rewriting an
entry that keeps leading to the same table, or linking a fresh zeroed table
at an absent entry, changes no leaf entry of any page map, and so
`get_or_alloc_table` is invisible to every translation.
-/

set_option autoImplicit false

namespace Emk.PagingForest
open Emk.ByteMemory Emk.MachineWord Emk.DirectMap Emk.PageAllocator Emk.Paging Emk.RadixForest

variable {σ : Type} {D : Layout} {A : Ops σ} {C : Contract D A} {roots : Set ℕ}
  {shared : Set (Fin 512)} {s : Phys σ}

section StoreEntry
variable (hf : Forest C roots shared s) {r : ℕ} (hr : r ∈ roots) {p : List (Fin 512)}
  (hp : p.length ≤ 3) {f : ℕ} (ht : descend (child D s.mem) r p = some (D.hhdmOffset+f))
  (i : Fin 512) (e : ℕ)
include hf hr hp ht

theorem table_owned : f ∈ C.owned s := by
  obtain ⟨g, hg, he, -⟩ := hf.node hr hp ht
  obtain rfl : f = g := by omega
  exact hg

theorem store_valid :
    C.Valid ⟨store64 s.mem (D.hhdmOffset+f+8*i) e, s.pmm⟩ ∧
      C.owned ⟨store64 s.mem (D.hhdmOffset+f+8*i) e, s.pmm⟩ = C.owned s := by
  have hw : Set.EqOn (store64 s.mem (D.hhdmOffset+f+8*i) e) s.mem (frames D (C.owned s))ᶜ :=
    fun a ha => store_outside _ _ _ _ _ (fun hin =>
      ha ⟨f, table_owned hf hr hp ht, entry_range f i hin⟩)
  exact ⟨C.write_valid hf.valid _ hw, C.write_owned hf.valid _ hw⟩

theorem load_node_store {g : ℕ} (hg : D.hhdmOffset+g ∈ Nodes (child D s.mem) roots 3)
    (j : Fin 512) (hne : D.hhdmOffset+g ≠ D.hhdmOffset+f ∨ j ≠ i) :
    load64 (store64 s.mem (D.hhdmOffset+f+8*i) e) (D.hhdmOffset+g+8*j) =
      load64 s.mem (D.hhdmOffset+g+8*j) := by
  have hfa := (C.owned_frame hf.valid f (table_owned hf hr hp ht)).1
  have hga := (C.owned_frame hf.valid g (tableFrames_owned hf hg)).1
  exact load_entry_store s.mem hfa hga i j e (hne.imp_left (fun h he => h (by rw [he])))

theorem child_node_store (u : ℕ) (hu : u ∈ Nodes (child D s.mem) roots 3) (j : Fin 512)
    (hne : u ≠ D.hhdmOffset+f ∨ j ≠ i) :
    child D (store64 s.mem (D.hhdmOffset+f+8*i) e) u j = child D s.mem u j := by
  obtain ⟨g, -, rfl⟩ := hf.tables u hu
  exact child_congr (load_node_store hf hr hp ht i e hu j hne)

theorem store_keeps :
    Set.EqOn (store64 s.mem (D.hhdmOffset+f+8*i) e) s.mem
      (frames D (C.owned s \ tableFrames D s.mem roots)) := by
  rintro a ⟨g, ⟨ho, hn⟩, ha⟩
  apply store_outside
  intro hin
  have hfa := (C.owned_frame hf.valid f (table_owned hf hr hp ht)).1
  have hga := (C.owned_frame hf.valid g ho).1
  obtain rfl := frame_unique D hfa hga (entry_range f i hin) ha
  exact hn ⟨r, hr, p, hp, ht⟩

/-- A rewritten entry that still leads to the same table moves no table. -/
theorem descend_store_same
    (hsame : child D (store64 s.mem (D.hhdmOffset+f+8*i) e) (D.hhdmOffset+f) i =
      child D s.mem (D.hhdmOffset+f) i) (r' : ℕ) (hr' : r' ∈ roots) (q : List (Fin 512))
    (hq : q.length ≤ 3) :
    descend (child D (store64 s.mem (D.hhdmOffset+f+8*i) e)) r' q =
      descend (child D s.mem) r' q := by
  refine descend_congr (fun u hu j => ?_) hr' q (show q.length ≤ 3+1 by omega)
  by_cases hne : u ≠ D.hhdmOffset+f ∨ j ≠ i
  · exact child_node_store hf hr hp ht i e u hu j hne
  · push Not at hne
    obtain ⟨rfl, rfl⟩ := hne
    exact hsame

/-- Neither does a write into a last-level table. -/
theorem descend_store_leaf (hlen : p.length = 3) (r' : ℕ) (hr' : r' ∈ roots)
    (q : List (Fin 512)) (hq : q.length ≤ 3) :
    descend (child D (store64 s.mem (D.hhdmOffset+f+8*i) e)) r' q =
      descend (child D s.mem) r' q := by
  apply descend_update hf.separate hr hp ht (child_node_store hf hr hp ht i e) hr' q (by omega)
  intro hsuf
  have := hsuf.length_le
  simp only [List.length_cons] at this
  omega

/-- An entry above the leaves may be rewritten if it still leads to the same table. -/
theorem store_quiet (hlt : p.length < 3)
    (hsame : child D (store64 s.mem (D.hhdmOffset+f+8*i) e) (D.hhdmOffset+f) i =
      child D s.mem (D.hhdmOffset+f) i) :
    Quiet C roots shared s ⟨store64 s.mem (D.hhdmOffset+f+8*i) e, s.pmm⟩ := by
  have hdesc := descend_store_same hf hr hp ht i e hsame
  obtain ⟨hvalid, howned⟩ := store_valid hf hr hp ht i e
  refine ⟨⟨⟨hvalid, ?_, hf.separate.congr hdesc⟩, by rw [howned],
    store_keeps hf hr hp ht i e, ?_, fun r' hr' q t hq hd => (hdesc r' hr' q hq).trans hd⟩, ?_⟩
  · intro t h
    rw [Nodes_congr hdesc] at h
    rw [howned]
    exact hf.tables t h
  · intro g h _
    rwa [tableFrames, Set.mem_ofPred_eq, Nodes_congr hdesc] at h
  · intro r' hr' v
    rw [leafEntry, leafEntry, hdesc r' hr' _ (le_refl _)]
    cases hu : descend (child D s.mem) r' (tablePath v) with
    | none => rfl
    | some u =>
      obtain ⟨g, -, rfl, -, -⟩ := hf.node hr' (le_refl _) hu
      apply load_node_store hf hr hp ht i e ⟨r', hr', _, le_refl _, hu⟩ (ix v pml1Shift)
      left
      intro he
      rw [he] at hu
      have hpath := (hf.separate r hr r' hr' p (tablePath v) _ hp (le_refl _) ht hu).1
      rw [hpath] at hlt
      simp [tablePath] at hlt

/-- Writing a last-level entry changes no table and no other leaf entry. -/
theorem store_leaf (hlen : p.length = 3) (hlt : e < 2^64) :
    Extends C roots shared s ⟨store64 s.mem (D.hhdmOffset+f+8*i) e, s.pmm⟩ ∧
    ∀ r' ∈ roots, ∀ v, leafEntry D (store64 s.mem (D.hhdmOffset+f+8*i) e) r' v =
      if descend (child D s.mem) r' p = some (D.hhdmOffset+f) ∧
        tablePath v = p ∧ ix v pml1Shift = i then e else leafEntry D s.mem r' v := by
  have hdesc := descend_store_leaf hf hr hp ht i e hlen
  obtain ⟨hvalid, howned⟩ := store_valid hf hr hp ht i e
  refine ⟨⟨⟨hvalid, ?_, hf.separate.congr hdesc⟩, by rw [howned],
    store_keeps hf hr hp ht i e, ?_, fun r' hr' q t hq hd => (hdesc r' hr' q hq).trans hd⟩, ?_⟩
  · intro t h
    rw [Nodes_congr hdesc] at h
    rw [howned]
    exact hf.tables t h
  · intro g h _
    rwa [tableFrames, Set.mem_ofPred_eq, Nodes_congr hdesc] at h
  · intro r' hr' v
    rw [leafEntry, leafEntry, hdesc r' hr' _ (le_refl _)]
    cases hu : descend (child D s.mem) r' (tablePath v) with
    | none =>
      rw [if_neg]
      rintro ⟨h1, h2, -⟩
      rw [← h2, hu] at h1
      simp at h1
    | some u =>
      obtain ⟨g, -, rfl, -, -⟩ := hf.node hr' (le_refl _) hu
      split_ifs with hhit
      · obtain ⟨h1, h2, h3⟩ := hhit
        rw [h2, h1] at hu
        obtain rfl : f = g := by simpa using hu
        have hi : pageIndex v pml1Shift = i.val := congrArg Fin.val h3
        simp only [hi]
        exact load_store64 _ _ _ hlt
      · apply load_node_store hf hr hp ht i e ⟨r', hr', _, le_refl _, hu⟩ (ix v pml1Shift)
        by_contra hboth
        push Not at hboth
        obtain ⟨hg, hi⟩ := hboth
        rw [hg] at hu
        have hpath := (hf.separate r hr r' hr' p (tablePath v) _ hp (le_refl _) ht hu).1
        exact hhit ⟨by rw [hpath]; exact hu, hpath.symm, hi⟩

/-- Linking an owned zeroed frame that is not a table yet. -/
theorem store_attach (hlt : p.length < 3) {g : ℕ} (hg : g ∈ C.owned s)
    (hnot : g ∉ tableFrames D s.mem roots) (hzero : ∀ a ∈ frame D g, s.mem a = 0)
    (habsent : load64 s.mem (D.hhdmOffset+f+8*i) &&& vmmPresent = 0)
    (he : e < 2^64) (hpresent : e &&& vmmPresent ≠ 0) (hmask : e &&& pageMask = g) :
    Forest C roots shared ⟨store64 s.mem (D.hhdmOffset+f+8*i) e, s.pmm⟩ ∧
    (∀ h ∈ tableFrames D (store64 s.mem (D.hhdmOffset+f+8*i) e) roots,
      h = g ∨ h ∈ tableFrames D s.mem roots) ∧
    (∀ r' ∈ roots, ∀ v, leafEntry D (store64 s.mem (D.hhdmOffset+f+8*i) e) r' v =
      leafEntry D s.mem r' v) ∧
    (∀ r' ∈ roots, ∀ (q : List (Fin 512)) (t : ℕ), q.length ≤ 3 →
      descend (child D s.mem) r' q = some t →
      descend (child D (store64 s.mem (D.hhdmOffset+f+8*i) e)) r' q = some t) ∧
    ∀ r' ∈ roots, ∀ (q : List (Fin 512)) (t : ℕ), q.length ≤ 3 →
      descend (child D (store64 s.mem (D.hhdmOffset+f+8*i) e)) r' q = some t →
      descend (child D s.mem) r' q = some t ∨ ∀ j : Fin 512,
        load64 (store64 s.mem (D.hhdmOffset+f+8*i) e) (t+8*j) = 0 := by
  obtain ⟨hga, hgt⟩ := C.owned_frame hf.valid g hg
  have hfa := (C.owned_frame hf.valid f (table_owned hf hr hp ht)).1
  have hfg : g ≠ f := fun h => hnot (h ▸ ⟨r, hr, p, hp, ht⟩)
  have hempty : child D s.mem (D.hhdmOffset+f) i = none := if_pos habsent
  have hnew : child D (store64 s.mem (D.hhdmOffset+f+8*i) e) (D.hhdmOffset+f) i =
      some (D.hhdmOffset+g) := by
    rw [child, load_store64 _ _ _ he, if_neg hpresent, hmask, higherHalf_frame D g (by omega)]
  have hgload : ∀ j : Fin 512,
      load64 (store64 s.mem (D.hhdmOffset+f+8*i) e) (D.hhdmOffset+g+8*j) = 0 := by
    intro j
    rw [load_entry_store s.mem hfa hga i j e (.inl hfg)]
    exact load_zero _ _ _ (fun a ha => hzero a (entry_range g j ha))
  have hgnone : ∀ j, child D (store64 s.mem (D.hhdmOffset+f+8*i) e) (D.hhdmOffset+g) j = none := by
    intro j
    rw [child, hgload j, Nat.zero_and, if_pos rfl]
  have hother := child_node_store hf hr hp ht i e
  have hdesc := fun r' hr' q hq =>
    descend_attach hf.separate hr hlt ht hempty hnew hgnone hother (r := r') hr' q hq
  have hnodes := Nodes_attach hf.separate hr hlt ht hempty hnew hgnone hother
  obtain ⟨hvalid, howned⟩ := store_valid hf hr hp ht i e
  refine ⟨⟨hvalid, ?_, ?_⟩, ?_, ?_, ?_, ?_⟩
  · intro t h
    rw [howned]
    rcases hnodes h with rfl | h
    · exact ⟨g, hg, rfl⟩
    · exact hf.tables t h
  · exact hf.separate.attach hr hlt ht hempty hnew hgnone hother hnot Under.cons
  · intro h hh
    rcases hnodes hh with he | hin
    · exact .inl (by omega)
    · exact .inr hin
  · intro r' hr' v
    rcases hdesc r' hr' (tablePath v) (le_refl _) with hsame | ⟨-, -, hold, hnow⟩
    · rw [leafEntry, leafEntry, hsame]
      cases hu : descend (child D s.mem) r' (tablePath v) with
      | none => rfl
      | some u =>
        obtain ⟨k, -, rfl, -, -⟩ := hf.node hr' (le_refl _) hu
        apply load_node_store hf hr hp ht i e ⟨r', hr', _, le_refl _, hu⟩ (ix v pml1Shift)
        left
        intro hk
        rw [hk] at hu
        have hpath := (hf.separate r hr r' hr' p (tablePath v) _ hp (le_refl _) ht hu).1
        rw [hpath] at hlt
        simp [tablePath] at hlt
    · rw [leafEntry, leafEntry, hold, hnow]
      exact hgload (ix v pml1Shift)
  · intro r' hr' q t hq hd
    rcases hdesc r' hr' q hq with h | ⟨-, -, hold, -⟩
    · rw [h, hd]
    · rw [hold] at hd
      exact absurd hd (by simp)
  · intro r' hr' q t hq hd
    rcases hdesc r' hr' q hq with h | ⟨-, -, -, hnow⟩
    · exact .inl (h.symm.trans hd)
    · right
      obtain rfl := Option.some.inj (hnow.symm.trans hd)
      exact hgload

end StoreEntry

theorem orFlags_quiet (hf : Forest C roots shared s) {r : ℕ} (hr : r ∈ roots) {p : List (Fin 512)}
    (hp : p.length < 3) {f : ℕ} (ht : descend (child D s.mem) r p = some (D.hhdmOffset+f))
    (i : Fin 512) (flags : ℕ)
    (hpresent : load64 s.mem (D.hhdmOffset+f+8*i) &&& vmmPresent ≠ 0) :
    Quiet C roots shared s (orFlags D.hhdmOffset (D.hhdmOffset+f) i flags s).2 ∧
    descend (child D (orFlags D.hhdmOffset (D.hhdmOffset+f) i flags s).2.mem) r (i::p) =
      some (orFlags D.hhdmOffset (D.hhdmOffset+f) i flags s).1 := by
  have he : load64 s.mem (D.hhdmOffset+f+8*i) ||| (flags &&& 0xFF) < 2^64 :=
    Nat.or_lt_two_pow (load64_lt _ _)
      (lt_of_le_of_lt Nat.and_le_right (by decide))
  have hchild : child D s.mem (D.hhdmOffset+f) i =
      some (orFlags D.hhdmOffset (D.hhdmOffset+f) i flags s).1 := by
    rw [child, if_neg hpresent, orFlags, or_low_flags_mask]
  have hsame : child D (orFlags D.hhdmOffset (D.hhdmOffset+f) i flags s).2.mem
      (D.hhdmOffset+f) i = child D s.mem (D.hhdmOffset+f) i := by
    rw [hchild]
    simp only [orFlags]
    rw [child, load_store64 _ _ _ he, if_neg (or_present _ _ hpresent)]
  have hq := store_quiet hf hr (le_of_lt hp) ht i _ hp hsame
  refine ⟨hq, ?_⟩
  have hup : descend (child D (orFlags D.hhdmOffset (D.hhdmOffset+f) i flags s).2.mem) r p =
      some (D.hhdmOffset+f) := by
    rw [← ht]
    apply descend_update hf.separate hr (le_of_lt hp) ht
      (child_node_store hf hr (le_of_lt hp) ht i _) hr p (by omega)
    intro hsuf
    have := hsuf.length_le
    simp at this
  rw [descend, hup]
  exact hsame.trans hchild

/-- A granted page, zeroed, before anything refers to it. -/
theorem grant_zeroed (hv : C.Valid s) (hne : (A.palloc 1 true s).1 ≠ 0) :
    ∃ g, (A.palloc 1 true s).1 = D.hhdmOffset+g ∧ g % 4096 = 0 ∧ g+4096 ≤ D.top ∧
      g ∉ C.owned s ∧
      C.Valid ⟨fill (A.palloc 1 true s).2.mem (D.hhdmOffset+g) 0 4096, (A.palloc 1 true s).2.pmm⟩ ∧
      C.owned ⟨fill (A.palloc 1 true s).2.mem (D.hhdmOffset+g) 0 4096,
        (A.palloc 1 true s).2.pmm⟩ = insert g (C.owned s) ∧
      Set.EqOn (fill (A.palloc 1 true s).2.mem (D.hhdmOffset+g) 0 4096) s.mem
        (frames D (C.owned s)) := by
  obtain ⟨g, hg, hga, hgt, hgo, howned⟩ := C.palloc_grant hv true hne
  have hkeeps := C.palloc_keeps hv true
  have hpv := C.palloc_valid hv true
  have hout : Set.EqOn (fill (A.palloc 1 true s).2.mem (D.hhdmOffset+g) 0 4096)
      (A.palloc 1 true s).2.mem (frames D (C.owned (A.palloc 1 true s).2))ᶜ :=
    fun a ha => fill_outside _ _ _ _ _ (fun hin => ha ⟨g, by simp [howned], hin⟩)
  refine ⟨g, hg, hga, hgt, hgo, C.write_valid hpv _ hout, ?_, ?_⟩
  · rw [C.write_owned hpv _ hout, howned]
  · rintro a ⟨h, ho, ha⟩
    rw [fill_outside, hkeeps ⟨h, ho, ha⟩]
    intro hin
    obtain rfl := frame_unique D hga (C.owned_frame hv h ho).1 hin ha
    exact hgo ho

/-- Allocating a table below an absent entry, before its flags are set. -/
theorem attach_quiet (hf : Forest C roots shared s) {r : ℕ} (hr : r ∈ roots) {p : List (Fin 512)}
    (hp : p.length < 3) {f : ℕ} (ht : descend (child D s.mem) r p = some (D.hhdmOffset+f))
    (i : Fin 512) (habsent : load64 s.mem (D.hhdmOffset+f+8*i) &&& vmmPresent = 0)
    {z : Phys σ} {g : ℕ} (hgo : g ∉ C.owned s) (hz : C.Valid z)
    (howned : C.owned z = insert g (C.owned s))
    (hkeep : Set.EqOn z.mem s.mem (frames D (C.owned s)))
    (hzero : ∀ a ∈ frame D g, z.mem a = 0) :
    Quiet C roots shared s ⟨store64 z.mem (D.hhdmOffset+f+8*i) (g ||| 0b111), z.pmm⟩ ∧
    descend (child D (store64 z.mem (D.hhdmOffset+f+8*i) (g ||| 0b111))) r p =
      some (D.hhdmOffset+f) ∧
    load64 (store64 z.mem (D.hhdmOffset+f+8*i) (g ||| 0b111)) (D.hhdmOffset+f+8*i) &&&
      vmmPresent ≠ 0 ∧
    ∀ r' ∈ roots, ∀ (q : List (Fin 512)) (t : ℕ), q.length ≤ 3 →
      descend (child D (store64 z.mem (D.hhdmOffset+f+8*i) (g ||| 0b111))) r' q = some t →
      descend (child D z.mem) r' q = some t ∨ ∀ j : Fin 512,
        load64 (store64 z.mem (D.hhdmOffset+f+8*i) (g ||| 0b111)) (t+8*j) = 0 := by
  have hfo := table_owned hf hr (le_of_lt hp) ht
  have hgin : g ∈ C.owned z := by simp [howned]
  obtain ⟨hga, hgt⟩ := C.owned_frame hz g hgin
  have htop := D.top_le_address
  have hq : Quiet C roots shared s z :=
    Quiet.of_agree hf hz (by rw [howned]; exact Set.subset_insert _ _) hkeep
  have hagree := hkeep.mono (frames_mono D (tableFrames_owned hf))
  have htabs := tableFrames_agree hf hagree
  have hdesc := (descend_agree hf hagree hr p (le_of_lt hp)).trans ht
  have hload : load64 z.mem (D.hhdmOffset+f+8*i) = load64 s.mem (D.hhdmOffset+f+8*i) :=
    load_entry_congr (fun a ha => hkeep ⟨f, hfo, ha⟩) i
  have hbound : g ||| 0b111 < 2^64 := Nat.or_lt_two_pow (by omega) (by decide)
  have hpres : (g ||| 0b111) &&& vmmPresent ≠ 0 := or_one_bit g 0b111 vmmPresent (by decide)
  obtain ⟨hforest, htables, hleaf, hgrows, horigin⟩ :=
    store_attach hq.forest hr (le_of_lt hp) hdesc i
    (g ||| 0b111) hp hgin (by rw [htabs]; exact fun h => hgo (tableFrames_owned hf h)) hzero
    (by rw [hload]; exact habsent) hbound hpres (frame_mask g 0b111 hga (by omega) (by decide))
  have hkeep2 := store_keeps hq.forest hr (le_of_lt hp) hdesc i (g ||| 0b111)
  have howned2 := (store_valid hq.forest hr (le_of_lt hp) hdesc i (g ||| 0b111)).2
  refine ⟨⟨⟨hforest, by rw [howned2]; exact hq.owned, ?_, ?_, ?_⟩, ?_⟩,
    hgrows r hr p _ (le_of_lt hp) hdesc, ?_, horigin⟩
  · intro a ha
    have hsub : C.owned s \ tableFrames D s.mem roots ⊆ C.owned z \ tableFrames D z.mem roots := by
      rw [htabs]
      exact fun h hh => ⟨hq.owned hh.1, hh.2⟩
    rw [← hq.keeps ha]
    exact hkeep2 (frames_mono D hsub ha)
  · intro h hh ho
    rcases htables h hh with rfl | hin
    · exact absurd ho hgo
    · rwa [htabs] at hin
  · exact fun r' hr' q t hqlen hd => hgrows r' hr' q t hqlen (hq.grows r' hr' q t hqlen hd)
  · exact fun r' hr' v => (hleaf r' hr' v).trans (hq.leaf r' hr' v)
  · rw [load_store64 _ _ _ hbound]
    exact hpres

/-- `get_or_alloc_table` never changes what any page map translates. -/
theorem getOrAllocTable_quiet (hf : Forest C roots shared s) {r : ℕ} (hr : r ∈ roots)
    {p : List (Fin 512)} (hp : p.length < 3) {t : ℕ} (ht : descend (child D s.mem) r p = some t)
    (i : Fin 512) (flags : ℕ) :
    Quiet C roots shared s (getOrAllocTable A D.hhdmOffset t i flags s).2 ∧
    ((getOrAllocTable A D.hhdmOffset t i flags s).1 ≠ 0 →
      descend (child D (getOrAllocTable A D.hhdmOffset t i flags s).2.mem) r (i::p) =
        some (getOrAllocTable A D.hhdmOffset t i flags s).1) := by
  obtain ⟨f, hfo, rfl, hfa, hft⟩ := hf.node hr (le_of_lt hp) ht
  rw [getOrAllocTable, if_neg (pointer_ne_zero f hft)]
  dsimp only
  split_ifs with habsent hnull
  · exact ⟨Quiet.of_agree hf (C.palloc_valid hf.valid true) (C.palloc_owned hf.valid true)
      (C.palloc_keeps hf.valid true), fun h => absurd rfl h⟩
  · push Not at hnull
    obtain ⟨g, hg, hga, hgt, hgo, hv, ho, hk⟩ := grant_zeroed hf.valid hnull.1
    obtain ⟨hquiet, hroot, hpres, -⟩ := attach_quiet hf hr hp ht i habsent hgo hv ho hk
      (fun a ha => fill_inside _ _ _ _ _ ha)
    rw [hg, physical_pointer]
    have hflag := orFlags_quiet hquiet.forest hr hp hroot i flags hpres
    exact ⟨hquiet.trans hflag.1, fun _ => hflag.2⟩
  · have hflag := orFlags_quiet hf hr hp ht i flags habsent
    exact ⟨hflag.1, fun _ => hflag.2⟩

/-- `get_or_alloc_table` fails only below an absent entry. -/
theorem getOrAllocTable_null (hf : Forest C roots shared s) {r : ℕ} (hr : r ∈ roots)
    {p : List (Fin 512)} (hp : p.length < 3) {t : ℕ} (ht : descend (child D s.mem) r p = some t)
    (i : Fin 512) (flags : ℕ) (h0 : (getOrAllocTable A D.hhdmOffset t i flags s).1 = 0) :
    descend (child D s.mem) r (i::p) = none := by
  obtain ⟨f, hfo, rfl, hfa, hft⟩ := hf.node hr (le_of_lt hp) ht
  by_cases habsent : load64 s.mem (D.hhdmOffset+f+8*i) &&& vmmPresent = 0
  · rw [descend, ht]
    exact if_pos habsent
  · rw [getOrAllocTable, if_neg (pointer_ne_zero f hft), if_neg habsent] at h0
    obtain ⟨hq, hd⟩ := orFlags_quiet hf hr hp ht i flags habsent
    exact absurd h0 (hq.forest.node_ne_zero hr (by simp; omega) hd)

end Emk.PagingForest
