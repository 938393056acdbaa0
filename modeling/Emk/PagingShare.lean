import Emk.PagingRange

/-!
# New page maps

`pmnew` copies the upper half of the kernel's top-level table. The new page
map joins the forest: below the slots that were present it shares the
kernel's tables, everywhere else it has none.
-/

set_option autoImplicit false

namespace Emk.PagingForest
open Emk.ByteMemory Emk.MachineWord Emk.DirectMap Emk.PageAllocator Emk.Paging Emk.RadixForest

variable {σ : Type} {D : Layout} {A : Ops σ} {C : Contract D A} {roots : Set ℕ}
  {shared : Set (Fin 512)} {s : Phys σ}

/-- The upper-half slots of a page map that lead to a table. -/
def upperSlots (D : Layout) (m : Mem) (pagemap : ℕ) : Set (Fin 512) :=
  {i | 256 ≤ i.val ∧ child D m pagemap i ≠ none}

theorem Under.mono {shared shared' : Set (Fin 512)} (h : shared ⊆ shared') {p : List (Fin 512)}
    (hp : Under shared p) : Under shared' p := by
  obtain ⟨i, hi, hs⟩ := hp
  exact ⟨i, hi, h hs⟩

section Copied
variable {m : Mem} {K P : ℕ} (hlow : ∀ i : Fin 512, i.val < 256 → child D m P i = none)
  (hhigh : ∀ i : Fin 512, 256 ≤ i.val → child D m P i = child D m K i)
include hlow hhigh

/-- Below its root the new page map is the kernel's, as far as it goes. -/
theorem descend_copied {p : List (Fin 512)} {t : ℕ} (h : descend (child D m) P p = some t) :
    p = [] ∧ t = P ∨ descend (child D m) K p = some t ∧ Under (upperSlots D m K) p := by
  induction p generalizing t with
  | nil => exact .inl ⟨rfl, (Option.some.inj h).symm⟩
  | cons i p ih =>
    obtain ⟨u, hu, hc⟩ := descend_cons h
    right
    rcases ih hu with ⟨rfl, rfl⟩ | ⟨hk, hun⟩
    · by_cases hi : i.val < 256
      · rw [hlow i hi] at hc
        exact absurd hc (by simp)
      · have hi' : 256 ≤ i.val := by omega
        rw [hhigh i hi'] at hc
        refine ⟨by simpa [descend] using hc, i, rfl, hi', ?_⟩
        rw [hc]
        exact Option.some_ne_none t
    · exact ⟨by rw [descend, hk]; exact hc, Under.cons i p hun⟩

end Copied

/-- The top-level table that `pmnew` builds in a zeroed frame. -/
theorem copied_children {z : Mem} {g k : ℕ} (hg : g % 4096 = 0) (hk : k % 4096 = 0) (hne : k ≠ g)
    (hz : ∀ a ∈ frame D g, z a = 0) :
    let m := copy z (D.hhdmOffset+g+8*256) (fun j => z (D.hhdmOffset+k+8*256+j)) (256*8)
    Set.EqOn m z (frame D g)ᶜ ∧
    (∀ i : Fin 512, i.val < 256 → child D m (D.hhdmOffset+g) i = none) ∧
    ∀ i : Fin 512, 256 ≤ i.val → child D m (D.hhdmOffset+g) i = child D m (D.hhdmOffset+k) i := by
  intro m
  have hout : Set.EqOn m z (frame D g)ᶜ := by
    intro a ha
    apply copy_outside
    simp only [frame, Set.mem_compl_iff, mem_range] at *
    omega
  refine ⟨hout, fun i hi => ?_, fun i hi => ?_⟩
  · have hzero : load64 m (D.hhdmOffset+g+8*i) = 0 := by
      apply load_zero
      intro a ha
      have hin := entry_range g i ha
      rw [mem_range] at ha
      exact (copy_outside _ _ _ _ _ (by rw [mem_range]; omega)).trans (hz a hin)
    rw [child, hzero, Nat.zero_and, if_pos rfl]
  · have hsame : load64 m (D.hhdmOffset+g+8*i) = load64 m (D.hhdmOffset+k+8*i) := by
      apply load_move
      intro j hj
      have hi2 := i.isLt
      have hkeep : m (D.hhdmOffset+k+8*i+j) = z (D.hhdmOffset+k+8*i+j) := by
        apply hout
        simp only [frame, Set.mem_compl_iff, mem_range]
        omega
      rw [hkeep]
      refine (copy_inside _ _ _ _ _ (by rw [mem_range]; omega)).trans (congrArg z ?_)
      omega
    rw [child, child, hsame]

theorem pmnew_eq {K P : ℕ} {s' : Phys σ} (hK : K ≠ 0) (h : pmnew A K s = some (P, s')) :
    (A.palloc 1 true s).1 = P ∧ P ≠ 0 ∧
      s' = ⟨copy (fill (A.palloc 1 true s).2.mem P 0 4096) (P+8*256)
        (fun j => fill (A.palloc 1 true s).2.mem P 0 4096 (K+8*256+j)) (256*8),
        (A.palloc 1 true s).2.pmm⟩ := by
  rw [pmnew] at h
  dsimp only at h
  by_cases h0 : (A.palloc 1 true s).1 = 0
  · rw [if_pos h0] at h
    exact absurd h (by simp)
  · rw [if_neg h0, if_neg hK] at h
    obtain ⟨rfl, rfl⟩ := Prod.mk.inj (Option.some.inj h)
    exact ⟨rfl, h0, rfl⟩

/-- The table that `pmnew` returns: fresh, empty in its lower half, and in its
upper half the kernel's. -/
theorem pmnew_built {K P : ℕ} {s' : Phys σ} (hf : Forest C roots shared s) (hK : K ∈ roots)
    (h : pmnew A K s = some (P, s')) :
    ∃ g, P = D.hhdmOffset+g ∧ g % 4096 = 0 ∧ g ∉ C.owned s ∧
      (∃ z : Phys σ, C.Valid z ∧ C.owned z = insert g (C.owned s) ∧
        Set.EqOn z.mem s.mem (frames D (C.owned s)) ∧ s' = ⟨s'.mem, z.pmm⟩ ∧
        Set.EqOn s'.mem z.mem (frame D g)ᶜ) ∧
      (∀ i : Fin 512, i.val < 256 → child D s'.mem P i = none) ∧
      ∀ i : Fin 512, 256 ≤ i.val → child D s'.mem P i = child D s'.mem K i := by
  obtain ⟨k, hko, rfl, hka, hkt⟩ := hf.node hK (Nat.zero_le 3) (p := []) rfl
  obtain ⟨hP, hP0, hs'⟩ := pmnew_eq (pointer_ne_zero k hkt) h
  obtain ⟨g, hg, hga, hgt, hgo, hzv, hzo, hzk⟩ := grant_zeroed hf.valid (hP ▸ hP0)
  obtain rfl : P = D.hhdmOffset+g := hP.symm.trans hg
  have hne : k ≠ g := fun he => hgo (he ▸ hko)
  obtain ⟨hout, hlow, hhigh⟩ := copied_children (D := D)
    (z := fill (A.palloc 1 true s).2.mem (D.hhdmOffset+g) 0 4096) hga hka hne
    (fun a ha => fill_inside _ _ _ _ _ ha)
  have hmem : s'.mem = copy (fill (A.palloc 1 true s).2.mem (D.hhdmOffset+g) 0 4096)
      (D.hhdmOffset+g+8*256) (fun j => fill (A.palloc 1 true s).2.mem (D.hhdmOffset+g) 0 4096
        (D.hhdmOffset+k+8*256+j)) (256*8) := by rw [hs']
  rw [← hmem] at hout hlow hhigh
  exact ⟨g, rfl, hga, hgo, ⟨_, hzv, hzo, hzk, by rw [hs'], hout⟩, hlow, hhigh⟩

/-- A new page map has nothing in the lower half. -/
theorem pmnew_low {K P : ℕ} {s' : Phys σ} (hf : Forest C roots shared s) (hK : K ∈ roots)
    (h : pmnew A K s = some (P, s')) {v : ℕ} (hv : v < 2^47) : leafEntry D s'.mem P v = 0 := by
  obtain ⟨-, -, -, -, -, hlow, -⟩ := pmnew_built hf hK h
  have hix : (ix v pml4Shift).val < 256 := by
    have hshift : v >>> 39 < 256 := by
      rw [Nat.shiftRight_eq_div_pow]
      omega
    exact lt_of_le_of_lt Nat.and_le_left hshift
  exact leafEntry_absent (p := []) (q := [ix v pml2Shift, ix v pml3Shift])
    (by rw [descend, descend, Option.bind_some, hlow _ hix]) rfl

/-- A new page map joins the forest, no translation changes, and its upper
slots lead where the kernel's do. -/
theorem pmnew_forest {K P : ℕ} {s' : Phys σ} (hf : Forest C roots shared s) (hK : K ∈ roots)
    (h : pmnew A K s = some (P, s')) :
    Forest C (insert P roots) (shared ∪ upperSlots D s.mem K) s' ∧ P ∉ roots ∧
      C.owned s ⊆ C.owned s' ∧
      (∀ r ∈ roots, ∀ v, leafEntry D s'.mem r v = leafEntry D s.mem r v) ∧
      (∀ r ∈ roots, ∀ p : List (Fin 512), p.length ≤ 3 →
        descend (child D s'.mem) r p = descend (child D s.mem) r p) ∧
      ∀ i : Fin 512, 256 ≤ i.val → child D s'.mem P i = child D s'.mem K i := by
  obtain ⟨g, rfl, hga, hgo, ⟨z, hzv, hzo, hzk, hs', hout⟩, hlow, hhigh⟩ := pmnew_built hf hK h
  have hw : Set.EqOn s'.mem z.mem (frames D (C.owned z))ᶜ :=
    fun a ha => hout (fun hin => ha ⟨g, by simp [hzo], hin⟩)
  have hv' := C.write_valid hzv _ hw
  have ho' := (C.write_owned hzv _ hw).trans hzo
  rw [← hs'] at hv' ho'
  have hagree : Set.EqOn s'.mem s.mem (frames D (C.owned s)) := by
    rintro a ⟨f, hfo, ha⟩
    rw [hout, hzk ⟨f, hfo, ha⟩]
    intro hin
    obtain rfl := frame_unique D hga (C.owned_frame hf.valid f hfo).1 hin ha
    exact hgo hfo
  have htab := hagree.mono (frames_mono D (tableFrames_owned hf))
  have hdesc : ∀ r ∈ roots, ∀ p : List (Fin 512), p.length ≤ 3 →
      descend (child D s'.mem) r p = descend (child D s.mem) r p :=
    fun r hr p hp => descend_agree hf htab hr p hp
  have hslots : upperSlots D s'.mem K = upperSlots D s.mem K := by
    ext i
    have := hdesc _ hK [i] (by simp)
    simp only [descend, Option.bind_some] at this
    simp [upperSlots, this]
  have hnode : ∀ r ∈ roots, ∀ p : List (Fin 512), p.length ≤ 3 →
      descend (child D s'.mem) r p ≠ some (D.hhdmOffset+g) := by
    intro r hr p hp ht
    rw [hdesc r hr p hp] at ht
    obtain ⟨f, hfo, he, -⟩ := hf.node hr hp ht
    obtain rfl : f = g := by omega
    exact hgo hfo
  have hcases := fun p t => descend_copied (D := D) (p := p) (t := t) hlow hhigh
  have hnoP : D.hhdmOffset+g ∉ roots := fun hr => hnode _ hr [] (by simp) rfl
  refine ⟨⟨hv', ?_, ?_⟩, hnoP, ?_, fun r hr v => leaf_agree hf htab hr v, hdesc, hhigh⟩
  · rintro t ⟨r, hr, p, hp, ht⟩
    have hold : ∀ r ∈ roots, descend (child D s'.mem) r p = some t →
        ∃ f ∈ C.owned s', t = D.hhdmOffset+f := by
      intro r hr ht
      rw [hdesc r hr p hp] at ht
      obtain ⟨f, hfo, he, -⟩ := hf.node hr hp ht
      exact ⟨f, ho' ▸ Set.mem_insert_of_mem g hfo, he⟩
    rcases hr with rfl | hr
    · rcases hcases p t ht with ⟨-, rfl⟩ | ⟨hk, -⟩
      · exact ⟨g, ho' ▸ Set.mem_insert g _, rfl⟩
      · exact hold _ hK hk
    · exact hold r hr ht
  · have horigin : ∀ r ∈ insert (D.hhdmOffset+g) roots, ∀ (p : List (Fin 512)) (t : ℕ),
        p.length ≤ 3 → descend (child D s'.mem) r p = some t →
        (r = D.hhdmOffset+g ∧ p = [] ∧ t = D.hhdmOffset+g) ∨
          ∃ r₀ ∈ roots, descend (child D s'.mem) r₀ p = some t ∧
            (r = r₀ ∨ Under (upperSlots D s.mem K) p) := by
      rintro r (rfl | hr) p t hp ht
      · rcases hcases p t ht with ⟨hp0, ht0⟩ | ⟨hk, hun⟩
        · exact .inl ⟨rfl, hp0, ht0⟩
        · exact .inr ⟨_, hK, hk, .inr (hslots ▸ hun)⟩
      · exact .inr ⟨r, hr, ht, .inl rfl⟩
    intro r hr r' hr' p q t hp hq h1 h2
    rcases horigin r hr p t hp h1 with ⟨rfl, rfl, rfl⟩ | ⟨r₀, hr₀, hd, hrel⟩ <;>
      rcases horigin r' hr' q _ hq h2 with ⟨rfl, rfl, ht⟩ | ⟨r₁, hr₁, hd', hrel'⟩
    · exact ⟨rfl, .inl rfl⟩
    · exact absurd hd' (hnode r₁ hr₁ q hq)
    · exact absurd (ht ▸ hd) (hnode r₀ hr₀ p hp)
    · have hd₀ := (hdesc r₀ hr₀ p hp).symm.trans hd
      have hd₁ := (hdesc r₁ hr₁ q hq).symm.trans hd'
      obtain ⟨rfl, hsame⟩ := hf.separate r₀ hr₀ r₁ hr₁ p q t hp hq hd₀ hd₁
      refine ⟨rfl, ?_⟩
      rcases hsame with rfl | hun
      · rcases hrel with rfl | hun
        · rcases hrel' with rfl | hun
          · exact .inl rfl
          · exact .inr (hun.mono Set.subset_union_right)
        · exact .inr (hun.mono Set.subset_union_right)
      · exact .inr (hun.mono Set.subset_union_left)
  · rw [show C.owned s' = insert g (C.owned s) from ho']
    exact Set.subset_insert g _

end Emk.PagingForest
