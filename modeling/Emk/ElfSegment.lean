import Emk.Elf
import Emk.VmmContext

/-!
# One segment

What loading a segment does to the region list, the page tables and the
frames. A segment that is in place is a run of frames that nobody else uses,
mapped page by page and holding the bytes of the file; later mappings of
other pages and writes to other frames leave it in place.
-/

set_option autoImplicit false

namespace Emk.Elf
open Emk.ByteMemory Emk.MachineWord Emk.DirectMap Emk.PageAllocator Emk.Paging Emk.Vmm
open Emk.PagingForest Emk.LinkedPath

theorem alignDown_idem (x : ℕ) : alignDown (alignDown x 4096) 4096 = alignDown x 4096 := by
  rw [alignDown, alignDown]
  omega

theorem alignDown_of_aligned {x : ℕ} (h : x % 4096 = 0) : alignDown x 4096 = x := by
  rw [alignDown]
  omega

def pflags (user : Bool) (ph : ElfPheader) : ℕ := vflagsToPflags (segmentFlags user ph)

theorem segmentFlags_bits (user : Bool) (ph : ElfPheader) :
    ∃ w x : Bool, (w = true ↔ ph.pFlags &&& pfW ≠ 0) ∧ (x = true ↔ ph.pFlags &&& pfX ≠ 0) ∧
      pflags user ph = vmmPresent ||| (if w then vmmWrite else 0) |||
        (if user then vmmUser else 0) |||
        (if x then 0 else vmmNx) := by
  obtain ⟨w, hw⟩ : ∃ w : Bool, w = true ↔ ph.pFlags &&& pfW ≠ 0 := ⟨decide _, decide_eq_true_iff⟩
  obtain ⟨x, hx⟩ : ∃ x : Bool, x = true ↔ ph.pFlags &&& pfX ≠ 0 := ⟨decide _, decide_eq_true_iff⟩
  refine ⟨w, x, hw, hx, ?_⟩
  simp only [pflags, segmentFlags, ← hw, ← hx]
  cases w <;> cases x <;> cases user <;> decide

theorem pflags_lt (user : Bool) (ph : ElfPheader) : pflags user ph < 2^64 := by
  obtain ⟨w, x, -, -, h⟩ := segmentFlags_bits user ph
  rw [h]
  cases w <;> cases x <;> cases user <;> decide

theorem pflags_mask (user : Bool) (ph : ElfPheader) : pflags user ph &&& pageMask = 0 := by
  obtain ⟨w, x, -, -, h⟩ := segmentFlags_bits user ph
  rw [h]
  cases w <;> cases x <;> cases user <;> decide

variable {σ : Type} {A : Ops σ} {hhdmOffset : ℕ} {user : Bool} {data : Image} {ctx : ℕ}

/-- The state in which `vadd` maps the pages of a segment. -/
def mappedPhys (A : Ops σ) (hhdmOffset : ℕ) (user : Bool) (ctx : ℕ) (ph : ElfPheader)
    (s : State σ) :
    Phys σ :=
  let r := A.palloc (segmentPages ph) false s.phys
  mapPages A hhdmOffset (s.ctxs ctx).pagemap (segmentStart ph) (alignDown r.1 4096) (pflags user ph)
    (segmentPages ph) 0 (A.palloc 1 true r.2).2

variable (hhdmOffset user data) in
/-- The five ways `elf_load` deals with a loadable segment. -/
theorem loadSegment_cases {s : State σ} {nodes : List ℕ} (hl : Listed s ctx nodes) (hctx : ctx ≠ 0)
    {ph : ElfPheader} (hload : ph.pType = ptLoad)
    (hroot : (A.palloc 1 true (A.palloc (segmentPages ph) false s.phys).2).1 ∉ nodes) :
    let pages := segmentPages ph
    let r := A.palloc pages false s.phys
    let n := A.palloc 1 true r.2
    let s' := pushRegion ctx (segmentStart ph) pages (segmentFlags user ph) n.1 s
    let m := mappedPhys A hhdmOffset user ctx ph s
    let out := loadSegment A hhdmOffset user data ctx ph s
    r.1 = 0 ∧ out = some (.error .outOfMemory, { s with phys := r.2 }) ∨
    r.1 ≠ 0 ∧ (nodes = [] ∨ (s.ctxs ctx).pagemap = 0 ∨ ∃ x ∈ nodes,
        Overlaps (segmentStart ph) (wrap (segmentStart ph+4096*pages)) (s.regions x)) ∧
      out = some (.error .mappingFailed, { s with phys := A.pfree r.1 pages r.2 }) ∨
    r.1 ≠ 0 ∧ n.1 = 0 ∧
      out = some (.error .mappingFailed, { s with phys := A.pfree r.1 pages n.2 }) ∨
    r.1 ≠ 0 ∧ n.1 ≠ 0 ∧ nodes ≠ [] ∧ (s.ctxs ctx).pagemap ≠ 0 ∧ segmentStart ph = 0 ∧
      (∀ x ∈ nodes, ¬ Overlaps (segmentStart ph) (wrap (segmentStart ph+4096*pages))
        (s.regions x)) ∧
      out = some (.error .mappingFailed, { s' with phys := A.pfree r.1 pages m }) ∨
    r.1 ≠ 0 ∧ n.1 ≠ 0 ∧ nodes ≠ [] ∧ (s.ctxs ctx).pagemap ≠ 0 ∧
      (∀ x ∈ nodes, ¬ Overlaps (segmentStart ph) (wrap (segmentStart ph+4096*pages))
        (s.regions x)) ∧
      out = some (.ok (), { s' with phys := ⟨fillSegment hhdmOffset r.1 data ph m.mem,
        m.pmm⟩ }) := by
  dsimp only
  rw [loadSegment, if_neg (not_not.mpr hload)]
  dsimp only
  by_cases hr0 : (A.palloc (segmentPages ph) false s.phys).1 = 0
  · exact .inl ⟨hr0, if_pos hr0⟩
  rw [if_neg hr0]
  by_cases hskip : nodes = [] ∨ (s.ctxs ctx).pagemap = 0
  · refine .inr (.inl ⟨hr0, hskip.imp_right .inl, ?_⟩)
    rw [vadd, if_pos (hl.guard hskip), Option.map_some, if_pos rfl]
  push Not at hskip
  obtain ⟨hne, hpm⟩ := hskip
  rcases vadd_eq A hhdmOffset (hl.phys (A.palloc (segmentPages ph) false s.phys).2) hctx hpm hne
    (segmentStart ph) (A.palloc (segmentPages ph) false s.phys).1 (segmentPages ph)
    (segmentFlags user ph) with ⟨htaken, heq⟩ | ⟨hfree, heq⟩
  all_goals
    have hidem : alignDown (segmentStart ph) 4096 = segmentStart ph := alignDown_idem ph.pVaddr
  · rw [hidem] at htaken
    refine .inr (.inl ⟨hr0, .inr (.inr htaken), ?_⟩)
    rw [heq, Option.map_some, if_pos rfl]
  rw [hidem] at hfree heq
  rw [heq]
  dsimp only
  by_cases hn0 : (A.palloc 1 true (A.palloc (segmentPages ph) false s.phys).2).1 = 0
  · refine .inr (.inr (.inl ⟨hr0, hn0, ?_⟩))
    rw [if_pos hn0, Option.map_some, if_pos rfl]
  rw [if_neg hn0, Option.map_some]
  dsimp only
  have hnew : (A.palloc 1 true (A.palloc (segmentPages ph) false s.phys).2).1 ≠ (s.ctxs ctx).root :=
    fun h => hroot (h ▸ hl.root_mem hne)
  rw [pushRegion_phys, pushRegion_ctx]
  dsimp only
  rw [pushRegion_region _ _ _ _ hnew, if_pos rfl]
  dsimp only
  by_cases hs0 : segmentStart ph = 0
  · rw [if_pos hs0]
    exact .inr (.inr (.inr (.inl ⟨hr0, hn0, hne, hpm, hs0, hfree, rfl⟩)))
  · rw [if_neg hs0]
    exact .inr (.inr (.inr (.inr ⟨hr0, hn0, hne, hpm, hfree, rfl⟩)))

section Frames
variable {D : Layout} {R : RunContract D A} {roots : Set ℕ} {shared : Set (Fin 512)} {s : Phys σ}

theorem pallocRun_quiet (hf : Forest R.toContract roots shared s) (n : ℕ) (hh : Bool) :
    Quiet R.toContract roots shared s (A.palloc n hh s).2 :=
  Quiet.of_agree hf (R.pallocRun_valid hf.valid n hh) (R.pallocRun_owned hf.valid n hh)
    (R.pallocRun_keeps hf.valid n hh)

/-- A run of frames in use that holds no page table. -/
structure PrivateRun (R : RunContract D A) (roots : Set ℕ) (s : Phys σ) (p n : ℕ) : Prop where
  aligned : p % 4096 = 0
  below : p+4096*n ≤ D.top
  owned : run p n ⊆ R.owned s
  no_table : Disjoint (run p n) (tableFrames D s.mem roots)

theorem palloc_privateRun (hf : Forest R.toContract roots shared s) (n : ℕ)
    (h0 : (A.palloc n false s).1 ≠ 0) :
    PrivateRun R roots (A.palloc n false s).2 (A.palloc n false s).1 n ∧
      Disjoint (run (A.palloc n false s).1 n) (R.owned s) := by
  obtain ⟨p, hp, ha, hb, hd, ho⟩ := R.pallocRun_grant hf.valid n false h0
  rw [if_neg (by decide)] at hp
  have hq := pallocRun_quiet (R := R) hf n false
  rw [hp]
  refine ⟨⟨ha, hb, by rw [ho]; exact Set.subset_union_right, ?_⟩, hd⟩
  rw [tableFrames_agree hf ((R.pallocRun_keeps hf.valid n false).mono
    (frames_mono D (tableFrames_owned hf)))]
  exact hd.mono_right (tableFrames_owned hf)

theorem PrivateRun.extends {p n : ℕ} {s' : Phys σ} (hp : PrivateRun R roots s p n)
    (he : Extends R.toContract roots shared s s') : PrivateRun R roots s' p n where
  aligned := hp.aligned
  below := hp.below
  owned := hp.owned.trans he.owned
  no_table := Set.disjoint_left.mpr (fun q hq ht =>
    Set.disjoint_left.mp hp.no_table hq (he.tables q ht (hp.owned hq)))

/-- The file bytes of a segment end inside its pages. -/
def FileFits (ph : ElfPheader) : Prop :=
  ph.pVaddr-segmentStart ph+ph.pFilesz ≤ 4096*segmentPages ph

instance decidableFileFits (ph : ElfPheader) : Decidable (FileFits ph) :=
  inferInstanceAs (Decidable (_ ≤ _))

theorem segment_offset (ph : ElfPheader) : ph.pVaddr-segmentStart ph < 4096 := by
  rw [segmentStart, alignDown]
  omega

/-- The bytes that `memset` and `memcpy` write for a segment. -/
def segmentWrites (hhdmOffset phys : ℕ) (ph : ElfPheader) : Set ℕ :=
  Range (higherHalf hhdmOffset phys) (wrap (4096*segmentPages ph)) ∪
    Range (wrap (higherHalf hhdmOffset phys+(ph.pVaddr-segmentStart ph))) ph.pFilesz

theorem fillSegment_footprint (hhdmOffset phys : ℕ) (data : Image) (ph : ElfPheader) (m : Mem) :
    Set.EqOn (fillSegment hhdmOffset phys data ph m) m (segmentWrites hhdmOffset phys ph)ᶜ := by
  intro a ha
  rw [segmentWrites, Set.compl_union] at ha
  rw [fillSegment, copy_outside _ _ _ _ _ ha.2, fill_outside _ _ _ _ _ ha.1]

/-- What is written for a segment stays inside its frames exactly when the
file bytes, if there are any, end there. -/
theorem segmentWrites_inside {p : ℕ} {ph : ElfPheader} (hbelow : p+4096*segmentPages ph ≤ D.top) :
    segmentWrites D.hhdmOffset p ph ⊆ frames D (run p (segmentPages ph)) ↔
      ph.pFilesz = 0 ∨ FileFits ph := by
  have hptr := D.pointer_fits
  have htop := D.top_le_address
  have hoff := segment_offset ph
  have hframes : frames D (run p (segmentPages ph)) =
      Range (D.hhdmOffset+p) (4096*segmentPages ph) := Set.ext (fun _ => mem_frames_run D)
  rw [segmentWrites, hframes, Set.union_subset_iff, wrap_of_lt (by omega), FileFits]
  constructor
  · rintro ⟨-, hcopy⟩
    by_contra hno
    rw [not_or] at hno
    obtain ⟨hsize, hfits⟩ := hno
    by_cases h0 : segmentPages ph = 0
    · have hfirst := @hcopy (wrap (higherHalf D.hhdmOffset p+(ph.pVaddr-segmentStart ph)))
        (by rw [mem_range]; omega)
      rw [mem_range] at hfirst
      omega
    rw [higherHalf_frame D p (by omega)] at hcopy
    by_cases hwrap : D.hhdmOffset+p+(ph.pVaddr-segmentStart ph) < 2^64
    · rw [wrap_of_lt hwrap] at hcopy
      have hlast := @hcopy (D.hhdmOffset+p+(ph.pVaddr-segmentStart ph)+(ph.pFilesz-1))
        (by rw [mem_range]; omega)
      rw [mem_range] at hlast
      omega
    · have hfirst := @hcopy (wrap (D.hhdmOffset+p+(ph.pVaddr-segmentStart ph)))
        (by rw [mem_range]; omega)
      rw [mem_range, wrap] at hfirst
      omega
  · intro h
    by_cases h0 : segmentPages ph = 0
    · have hz : ph.pFilesz = 0 := h.elim id (fun hfits => by omega)
      refine ⟨fun a ha => ?_, fun a ha => ?_⟩
      all_goals
        rw [mem_range] at ha
        omega
    rw [higherHalf_frame D p (by omega)]
    refine ⟨subset_rfl, fun a ha => ?_⟩
    rw [mem_range] at ha ⊢
    rcases h with hz | hfits
    · omega
    · by_cases hz : ph.pFilesz = 0
      · omega
      · rw [wrap_of_lt (by omega)] at ha
        omega

variable (data) in
theorem fillSegment_outside {p : ℕ} {ph : ElfPheader} (hfit : ph.pFilesz = 0 ∨ FileFits ph)
    (hbelow : p+4096*segmentPages ph ≤ D.top) (m : Mem) :
    Set.EqOn (fillSegment D.hhdmOffset p data ph m) m (frames D (run p (segmentPages ph)))ᶜ :=
  (fillSegment_footprint D.hhdmOffset p data ph m).mono
    (Set.compl_subset_compl.mpr ((segmentWrites_inside hbelow).mpr hfit))

/-- The bytes of a segment in its frames. -/
def content (data : Image) (ph : ElfPheader) (b : ℕ) : UInt8 :=
  if ph.pVaddr-segmentStart ph ≤ b ∧ b < ph.pVaddr-segmentStart ph+ph.pFilesz then
    data (wrap (ph.pOffset+(b-(ph.pVaddr-segmentStart ph)))) else 0

theorem fillSegment_inside {p : ℕ} {ph : ElfPheader}
    (hbelow : p+4096*segmentPages ph ≤ D.top) (m : Mem) {b : ℕ} (hb : b < 4096*segmentPages ph) :
    fillSegment D.hhdmOffset p data ph m (D.hhdmOffset+p+b) = content data ph b := by
  have hptr := D.pointer_fits
  have htop := D.top_le_address
  have hoff := segment_offset ph
  rw [fillSegment, higherHalf_frame D p (by omega), wrap_of_lt (by omega), wrap_of_lt (by omega),
    content]
  split_ifs with hin
  · rw [copy_inside _ _ _ _ _ (by rw [mem_range]; omega)]
    congr 2
    omega
  · rw [copy_outside _ _ _ _ _ (by rw [mem_range]; omega),
      fill_inside _ _ _ _ _ (by rw [mem_range]; omega)]

variable (user) in
theorem mappedPhys_after {s : State σ} (hf : Forest R.toContract roots shared s.phys)
    (hpm : (s.ctxs ctx).pagemap ∈ roots) (ph : ElfPheader) :
    RangeWrite R.toContract roots shared (s.ctxs ctx).pagemap
      (pagesOf (segmentStart ph) 0 (segmentPages ph))
      (A.palloc (segmentPages ph) false s.phys).2 (mappedPhys A D.hhdmOffset user ctx ph s) := by
  have hq := pallocRun_quiet (R := R) hf (segmentPages ph) false
  have hn := palloc_quiet hq.forest true
  exact (hn.range _).trans (mapPages_range hn.forest hpm (pflags_lt user ph) _ _ _ 0)

variable (user) in
theorem mappedPhys_range {s : State σ} (hf : Forest R.toContract roots shared s.phys)
    (hpm : (s.ctxs ctx).pagemap ∈ roots) (ph : ElfPheader) :
    RangeWrite R.toContract roots shared (s.ctxs ctx).pagemap
      (pagesOf (segmentStart ph) 0 (segmentPages ph)) s.phys
      (mappedPhys A D.hhdmOffset user ctx ph s) :=
  ((pallocRun_quiet hf (segmentPages ph) false).range _).trans (mappedPhys_after user hf hpm ph)

variable (user) in
theorem mappedPhys_private {s : State σ} (hf : Forest R.toContract roots shared s.phys)
    (hpm : (s.ctxs ctx).pagemap ∈ roots) {ph : ElfPheader}
    (h0 : (A.palloc (segmentPages ph) false s.phys).1 ≠ 0) :
    PrivateRun R roots (mappedPhys A D.hhdmOffset user ctx ph s)
      (A.palloc (segmentPages ph) false s.phys).1 (segmentPages ph) :=
  (palloc_privateRun hf _ h0).1.extends (mappedPhys_after user hf hpm ph).toExtends

/-- A segment whose region is pushed and whose frames are filled. -/
theorem segment_pushed (user : Bool) (data : Image) {pm : ℕ} {s : State σ} {nodes : List ℕ}
    (hc : CtxOwned R.toContract roots shared ctx pm s nodes) (hpm : pm ∈ roots) {ph : ElfPheader}
    (hfit : ph.pFilesz = 0 ∨ FileFits ph) (hr0 : (A.palloc (segmentPages ph) false s.phys).1 ≠ 0)
    (hn0 : (A.palloc 1 true (A.palloc (segmentPages ph) false s.phys).2).1 ≠ 0) (hne : nodes ≠ [])
    {p : Phys σ} (hp : p = ⟨fillSegment D.hhdmOffset
      (A.palloc (segmentPages ph) false s.phys).1 data
      ph (mappedPhys A D.hhdmOffset user ctx ph s).mem,
      (mappedPhys A D.hhdmOffset user ctx ph s).pmm⟩) :
    CtxOwned R.toContract roots shared ctx pm
        { pushRegion ctx (segmentStart ph) (segmentPages ph) (segmentFlags user ph)
            (A.palloc 1 true (A.palloc (segmentPages ph) false s.phys).2).1 s with phys := p }
        ((A.palloc 1 true (A.palloc (segmentPages ph) false s.phys).2).1::nodes) ∧
      SameRange s (pushRegion ctx (segmentStart ph) (segmentPages ph) (segmentFlags user ph)
        (A.palloc 1 true (A.palloc (segmentPages ph) false s.phys).2).1 s) nodes ∧
      R.owned p = R.owned (mappedPhys A D.hhdmOffset user ctx ph s) ∧
      tableFrames D p.mem roots =
        tableFrames D (mappedPhys A D.hhdmOffset user ctx ph s).mem roots ∧
      ∀ r ∈ roots, ∀ v, leafEntry D p.mem r v =
        leafEntry D (mappedPhys A D.hhdmOffset user ctx ph s).mem r v := by
  have hf := hc.forest
  have hpm' : (s.ctxs ctx).pagemap ∈ roots := hc.pagemap ▸ hpm
  have hq := pallocRun_quiet (R := R) hf (segmentPages ph) false
  have hc1 := hc.phys hq.forest hq.owned
  have hn := palloc_quiet hq.forest true
  have hrange := mappedPhys_range (A := A) user hf hpm' ph
  have hpriv := mappedPhys_private (A := A) user hf hpm' hr0
  obtain ⟨hforest, howned, htables, hleaf⟩ := hrange.forest.write hpriv.owned hpriv.no_table
    (fillSegment_outside data hfit hpriv.below (mappedPhys A D.hhdmOffset user ctx ph s).mem)
  rw [← hp] at hforest howned
  have hmap := mapPages_range (A := A) hn.forest hpm' (pflags_lt user ph) (segmentStart ph)
    (alignDown (A.palloc (segmentPages ph) false s.phys).1 4096) (segmentPages ph) 0
  obtain ⟨hpush, hsame⟩ := hc1.push hn0 hne (segmentStart ph) (segmentPages ph)
    (segmentFlags user ph) hforest (by rw [howned]; exact hmap.owned)
  rw [pushRegion_phys] at hpush hsame
  refine ⟨hpush, hsame, howned, ?_, ?_⟩
  · rw [hp, htables]
  · intro r hr v
    rw [hp, hleaf r hr v]

end Frames

end Emk.Elf
