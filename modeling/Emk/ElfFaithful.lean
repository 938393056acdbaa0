import Emk.ElfSegment
import Emk.ReferenceAllocator

/-!
# Loading is faithful

Every loadable segment of a well-formed image ends up where its header says,
with the bytes of the file, zeros behind them and the access its flags ask
for. The invariant of the loop keeps each segment loaded so far in place: the
overlap check of `vadd` separates the pages, fresh frames separate the bytes.
-/

set_option autoImplicit false

namespace Emk.Elf
open Emk.ByteMemory Emk.MachineWord Emk.DirectMap Emk.PageAllocator Emk.Paging Emk.Vmm
open Emk.PagingForest Emk.LinkedPath Emk.ReferenceAllocator

/-- The file bytes of the segment end before its memory does and the segment
lies in the lower half. -/
structure WellFormedSegment (ph : ElfPheader) : Prop where
  filesz_le : ph.pFilesz ≤ ph.pMemsz
  below : ph.pVaddr+ph.pMemsz < 2^47

structure WellFormed (data : Image) (size : ℕ) : Prop where
  size_le : size ≤ 2^64
  headers : ePhoff data+56*ePhnum data ≤ size
  segment : ∀ ph ∈ pheaders data, ph.pType = ptLoad → WellFormedSegment ph
  file : ∀ ph ∈ pheaders data, ph.pType = ptLoad → ph.pOffset+ph.pFilesz ≤ size

theorem segment_end {ph : ElfPheader} (h : WellFormedSegment ph) :
    segmentStart ph ≤ ph.pVaddr ∧ ph.pVaddr+ph.pMemsz ≤ segmentStart ph+4096*segmentPages ph ∧
      segmentStart ph+4096*segmentPages ph ≤ 2^47 ∧ segmentStart ph % 4096 = 0 := by
  have hb := h.below
  have hend : segmentEnd ph = (ph.pVaddr+ph.pMemsz+4095)/4096*4096 := by
    rw [segmentEnd, alignUp, divRoundUp, wrap, wrap, wrap]
    omega
  rw [segmentPages, hend, segmentStart, alignDown, wrap]
  omega

theorem WellFormedSegment.fits {ph : ElfPheader} (h : WellFormedSegment ph) : FileFits ph := by
  have h1 := h.filesz_le
  have h2 := segment_end h
  unfold FileFits
  omega

variable {σ : Type} {D : Layout} {A : Ops σ} {R : RunContract D A} {roots : Set ℕ}
  {shared : Set (Fin 512)} {user : Bool} {data : Image} {ctx pm : ℕ}

/-- The segment is mapped to the run at `p`, which holds its bytes. -/
structure Placed (R : RunContract D A) (roots : Set ℕ) (pm : ℕ) (user : Bool) (data : Image)
    (ph : ElfPheader) (s : Phys σ) (p : ℕ) : Prop
    extends PrivateRun R roots s p (segmentPages ph) where
  nonzero : p ≠ 0
  entry : ∀ j < segmentPages ph, leafEntry D s.mem pm (segmentStart ph+4096*j) =
    (p+4096*j) ||| pflags user ph
  bytes : ∀ b < 4096*segmentPages ph, s.mem (D.hhdmOffset+p+b) = content data ph b

theorem Placed.range {ph : ElfPheader} {s s' : Phys σ} {p : ℕ} {pages : Set ℕ} {r : ℕ}
    (h : Placed R roots pm user data ph s p) (hpm : pm ∈ roots)
    (hw : RangeWrite R.toContract roots shared r pages s s')
    (hd : ∀ j < segmentPages ph, pageNumber (segmentStart ph+4096*j) ∉ pages) :
    Placed R roots pm user data ph s' p where
  toPrivateRun := h.toPrivateRun.extends hw.toExtends
  nonzero := h.nonzero
  entry := fun j hj => (hw.elsewhere pm hpm _ (hd j hj)).trans (h.entry j hj)
  bytes := by
    intro b hb
    rw [← h.bytes b hb]
    apply hw.keeps
    have hin : D.hhdmOffset+p+b ∈ frames D (run p (segmentPages ph)) := by
      rw [mem_frames_run, mem_range]
      omega
    have hsub : run p (segmentPages ph) ⊆ R.owned s \ tableFrames D s.mem roots :=
      fun q hq => ⟨h.owned hq, fun ht => Set.disjoint_left.mp h.no_table hq ht⟩
    exact frames_mono D hsub hin

theorem Placed.write {ph : ElfPheader} {s : Phys σ} {p : ℕ} {ps : Set ℕ} {m : Mem}
    (h : Placed R roots pm user data ph s p) (hpm : pm ∈ roots)
    (hf : Forest R.toContract roots shared s) (hps : ps ⊆ R.owned s)
    (hno : Disjoint ps (tableFrames D s.mem roots)) (hm : Set.EqOn m s.mem (frames D ps)ᶜ)
    (hd : Disjoint ps (run p (segmentPages ph))) : Placed R roots pm user data ph ⟨m, s.pmm⟩ p := by
  obtain ⟨-, ho, ht, hleaf⟩ := hf.write hps hno hm
  refine ⟨⟨h.aligned, h.below, by rw [ho]; exact h.owned, by rw [ht]; exact h.no_table⟩, h.nonzero,
    fun j hj => (hleaf pm hpm _).trans (h.entry j hj), fun b hb => ?_⟩
  rw [← h.bytes b hb]
  apply hm
  rintro ⟨q, hq, ha⟩
  have hin : D.hhdmOffset+p+b ∈ frames D (run p (segmentPages ph)) := by
    rw [mem_frames_run, mem_range]
    omega
  obtain ⟨q', hq', ha'⟩ := hin
  have hqa := (R.owned_frame hf.valid q (hps hq)).1
  obtain rfl := frame_unique D hqa (R.owned_frame hf.valid q' (h.owned hq')).1 ha ha'
  exact Set.disjoint_left.mp hd hq hq'

structure Loaded (R : RunContract D A) (roots : Set ℕ) (shared : Set (Fin 512)) (ctx pm : ℕ)
    (user : Bool) (data : Image) (done : List ElfPheader) (s : State σ) (nodes : List ℕ) : Prop
    extends CtxOwned R.toContract roots shared ctx pm s nodes where
  placed : ∀ ph ∈ done, ph.pType = ptLoad → (∃ p, Placed R roots pm user data ph s.phys p) ∧
    ∃ x ∈ nodes, (s.regions x).start = segmentStart ph ∧ (s.regions x).pages = segmentPages ph

/-- No `vmap` call made while loading these headers fails. -/
def LoadMaps (A : Ops σ) (hhdmOffset : ℕ) (user : Bool) (data : Image) (ctx : ℕ) :
    List ElfPheader → State σ → Prop
  | [], _ => True
  | ph::phs, s =>
    (ph.pType = ptLoad →
      let r := A.palloc (segmentPages ph) false s.phys
      MapsAll A hhdmOffset (s.ctxs ctx).pagemap (segmentStart ph) (alignDown r.1 4096)
        (pflags user ph) (segmentPages ph) 0 (A.palloc 1 true r.2).2) ∧
    match loadSegment A hhdmOffset user data ctx ph s with
    | some (.ok (), s') => LoadMaps A hhdmOffset user data ctx phs s'
    | _ => True

instance decidableLoadMaps (A : Ops σ) (hhdmOffset : ℕ) (user : Bool) (data : Image) (ctx : ℕ) :
    ∀ (phs : List ElfPheader) (s : State σ),
      Decidable (LoadMaps A hhdmOffset user data ctx phs s)
  | [], _ => .isTrue trivial
  | ph::phs, s =>
    have : Decidable (match loadSegment A hhdmOffset user data ctx ph s with
        | some (.ok (), s') => LoadMaps A hhdmOffset user data ctx phs s'
        | _ => True) :=
      match loadSegment A hhdmOffset user data ctx ph s with
      | some (.ok (), s') => decidableLoadMaps A hhdmOffset user data ctx phs s'
      | some (.error _, _) => .isTrue trivial
      | none => .isTrue trivial
    inferInstanceAs (Decidable ((_ → _) ∧ _))

/-- Pages of two segments that the overlap check accepted are different. -/
theorem pages_apart {ph ph' : ElfPheader} (h : WellFormedSegment ph) (h' : WellFormedSegment ph')
    {q : Vregion} (hs : q.start = segmentStart ph) (hp : q.pages = segmentPages ph)
    (hno : ¬ Overlaps (segmentStart ph') (wrap (segmentStart ph'+4096*segmentPages ph')) q)
    {j : ℕ} (hj : j < segmentPages ph) :
    pageNumber (segmentStart ph+4096*j) ∉ pagesOf (segmentStart ph') 0 (segmentPages ph') := by
  rintro ⟨i, -, hi, he⟩
  obtain ⟨h1, h2, h3, h4⟩ := segment_end h
  obtain ⟨h1', h2', h3', h4'⟩ := segment_end h'
  rw [Overlaps, regionEnd, hs, hp, wrap_of_lt (by omega), wrap_of_lt (by omega)] at hno
  rw [wrap_of_lt (by omega), pageNumber, pageNumber] at he
  omega

theorem Loaded.step {done : List ElfPheader} {s s' : State σ} {nodes : List ℕ} {ph : ElfPheader}
    (h : Loaded R roots shared ctx pm user data done s nodes) (hctx : ctx ≠ 0) (hpm : pm ∈ roots)
    (hdone : ∀ ph ∈ done, ph.pType = ptLoad → WellFormedSegment ph)
    (hwf : ph.pType = ptLoad → WellFormedSegment ph) {phs : List ElfPheader}
    (hmaps : LoadMaps A D.hhdmOffset user data ctx (ph::phs) s)
    (hok : loadSegment A D.hhdmOffset user data ctx ph s = some (.ok (), s')) :
    ∃ nodes', Loaded R roots shared ctx pm user data (ph::done) s' nodes' := by
  by_cases hload : ph.pType = ptLoad
  swap
  · rw [loadSegment, if_pos hload] at hok
    obtain rfl := (Prod.mk.inj (Option.some.inj hok)).2
    refine ⟨nodes, h.toCtxOwned, fun q hq hl => ?_⟩
    rcases List.mem_cons.mp hq with rfl | hq
    · exact absurd hl hload
    · exact h.placed q hq hl
  have hf := h.forest
  have hpm' : (s.ctxs ctx).pagemap ∈ roots := h.pagemap ▸ hpm
  have hq1 := pallocRun_quiet (R := R) hf (segmentPages ph) false
  have hc1 := h.toCtxOwned.phys hq1.forest hq1.owned
  rcases loadSegment_cases D.hhdmOffset user data h.listed hctx
    hload hc1.fresh with ⟨-, ho⟩ | ⟨-, -, ho⟩ | ⟨-, -, ho⟩ | ⟨-, -, -, -, -, -, ho⟩ |
    ⟨hr0, hn0, hne, -, hfree, ho⟩
  all_goals rw [ho] at hok
  iterate 4 exact absurd (Prod.mk.inj (Option.some.inj hok)).1 (by simp)
  obtain rfl := (Prod.mk.inj (Option.some.inj hok)).2
  have hend := segment_end (hwf hload)
  have hrange := mappedPhys_range (A := A) user hf hpm' ph
  have hpriv := mappedPhys_private (A := A) user hf hpm' hr0
  have hapart := (palloc_privateRun (R := R) hf _ hr0).2
  have hout := fillSegment_outside data (.inr (hwf hload).fits) hpriv.below
    (mappedPhys A D.hhdmOffset user ctx ph s).mem
  obtain ⟨hc, hsame, howned, htables, hleaf⟩ :=
    segment_pushed user data h.toCtxOwned hpm (.inr (hwf hload).fits) hr0 hn0 hne rfl
  have hn := palloc_quiet hq1.forest true
  refine ⟨_, hc, fun q hq hl => ?_⟩
  rcases List.mem_cons.mp hq with rfl | hq
  · refine ⟨⟨_, ⟨hpriv.aligned, hpriv.below, by rw [howned]; exact hpriv.owned,
      by rw [htables]; exact hpriv.no_table⟩, hr0, ?_, ?_⟩, ?_⟩
    · intro j hj
      have he := mapPages_entry (A := A) hn.forest hpm' (pflags_lt user q) _ _ (segmentPages q) 0
        (by omega) (hmaps.1 hload) (j := j) (by omega) (by omega)
      have hb := hpriv.below
      have ht := D.top_le_address
      rw [alignDown_of_aligned hpriv.aligned, wrap_of_lt (by omega), wrap_of_lt (by omega),
        h.pagemap] at he
      rw [hleaf pm hpm, ← he, mappedPhys, alignDown_of_aligned hpriv.aligned, h.pagemap]
    · intro b hb
      exact fillSegment_inside hpriv.below _ hb
    · refine ⟨_, List.mem_cons_self, ?_⟩
      have hnew : (A.palloc 1 true (A.palloc (segmentPages q) false s.phys).2).1 ≠
          (s.ctxs ctx).root := by
        intro he
        refine hc1.fresh ?_
        rw [he]
        exact h.listed.root_mem hne
      dsimp only
      rw [pushRegion_region _ _ _ _ hnew, if_pos rfl]
      exact ⟨rfl, rfl⟩
  · obtain ⟨⟨p, hp⟩, x, hx, hxs, hxp⟩ := h.placed q hq hl
    refine ⟨⟨p, ?_⟩, x, List.mem_cons_of_mem _ hx, ?_, ?_⟩
    · refine (hp.range hpm hrange (fun j hj => ?_)).write hpm hrange.forest hpriv.owned
        hpriv.no_table
        hout (hapart.mono_right hp.owned)
      exact pages_apart (hdone q hq hl) (hwf hload) hxs hxp (hfree x hx) hj
    · exact (hsame x hx).1.trans hxs
    · exact (hsame x hx).2.trans hxp

theorem loadSegments_cons {s s' : State σ} {ph : ElfPheader} {phs : List ElfPheader}
    (h : loadSegments A D.hhdmOffset user data ctx (ph::phs) s = some (.ok (), s')) :
    ∃ s₁, loadSegment A D.hhdmOffset user data ctx ph s = some (.ok (), s₁) ∧
      loadSegments A D.hhdmOffset user data ctx phs s₁ = some (.ok (), s') := by
  rw [loadSegments] at h
  obtain ⟨⟨out, s₁⟩, h1, h2⟩ := Option.bind_eq_some_iff.mp h
  cases out with
  | ok u => exact ⟨s₁, h1, h2⟩
  | error e => exact absurd (Prod.mk.inj (Option.some.inj h2)).1 (by simp)

theorem Loaded.run {done phs : List ElfPheader} {s s' : State σ} {nodes : List ℕ}
    (h : Loaded R roots shared ctx pm user data done s nodes) (hctx : ctx ≠ 0) (hpm : pm ∈ roots)
    (hwf : ∀ ph ∈ done ++ phs, ph.pType = ptLoad → WellFormedSegment ph)
    (hmaps : LoadMaps A D.hhdmOffset user data ctx phs s)
    (hok : loadSegments A D.hhdmOffset user data ctx phs s = some (.ok (), s')) :
    ∃ nodes', Loaded R roots shared ctx pm user data (phs.reverse ++ done) s' nodes' := by
  induction phs generalizing done s nodes with
  | nil =>
    obtain rfl := (Prod.mk.inj (Option.some.inj hok)).2
    exact ⟨nodes, h⟩
  | cons ph phs ih =>
    obtain ⟨s₁, h1, h2⟩ := loadSegments_cons hok
    obtain ⟨nodes₁, hl⟩ := h.step hctx hpm (fun q hq => hwf q (by simp [hq]))
      (hwf ph (by simp)) hmaps h1
    have hrest := hmaps.2
    rw [h1] at hrest
    obtain ⟨nodes', hl'⟩ := ih hl (fun q hq => hwf q (by
      simp only [List.mem_append, List.mem_cons] at *
      tauto)) hrest h2
    exact ⟨nodes', by simpa using hl'⟩

/-- A byte of virtual memory, found through a page map and the direct map. -/
def readVirtual (hhdmOffset : ℕ) (m : Mem) (pagemap v : ℕ) : Option UInt8 :=
  let p := virtToPhys hhdmOffset m pagemap v
  if p = 0 then none else some (m (higherHalf hhdmOffset (p+v%4096)))

theorem pflags_or_bits {p : ℕ} (hp : p % 4096 = 0) (hlt : p < 2^52) (user : Bool)
    (ph : ElfPheader) :
    (p ||| pflags user ph) &&& vmmPresent ≠ 0 ∧
    ((p ||| pflags user ph) &&& vmmWrite ≠ 0 ↔ ph.pFlags &&& pfW ≠ 0) ∧
    ((p ||| pflags user ph) &&& vmmNx ≠ 0 ↔ ph.pFlags &&& pfX = 0) ∧
    ((p ||| pflags user ph) &&& vmmUser ≠ 0 ↔ user = true) := by
  obtain ⟨w, x, hw, hx, heq⟩ := segmentFlags_bits user ph
  have hx' : ph.pFlags &&& pfX = 0 ↔ x = false := by
    rw [← not_iff_not, ← ne_eq, ← hx, Bool.not_eq_false]
  rw [frame_or_and _ hp hlt (by decide), frame_or_and _ hp hlt (by decide),
    frame_or_and _ hp hlt (by decide), frame_or_and _ hp hlt (by decide), heq, ← hw, hx']
  cases w <;> cases x <;> cases user <;> decide

theorem Placed.read {ph : ElfPheader} {s : Phys σ} {p k : ℕ}
    (h : Placed R roots pm user data ph s p) (hf : Forest R.toContract roots shared s)
    (hpm : pm ∈ roots) (hwf : WellFormedSegment ph) (hfile : ph.pOffset+ph.pFilesz ≤ 2^64)
    (hk : k < ph.pMemsz) :
    readVirtual D.hhdmOffset s.mem pm (ph.pVaddr+k) =
        some (if k < ph.pFilesz then data (ph.pOffset+k) else 0) ∧
      ∃ q, leafEntry D s.mem pm (ph.pVaddr+k) = q ||| pflags user ph ∧ q % 4096 = 0 ∧ q < 2^52 := by
  obtain ⟨h1, h2, h3, h4⟩ := segment_end hwf
  have ha := h.aligned
  have hb := h.below
  have hn := h.nonzero
  have htop := D.top_le_address
  obtain ⟨b, hbk⟩ : ∃ b, b = ph.pVaddr+k-segmentStart ph := ⟨_, rfl⟩
  have hj : b/4096 < segmentPages ph := by omega
  have hpage : pageNumber (ph.pVaddr+k) = pageNumber (segmentStart ph+4096*(b/4096)) := by
    rw [pageNumber, pageNumber]
    omega
  have hleaf : leafEntry D s.mem pm (ph.pVaddr+k) = (p+4096*(b/4096)) ||| pflags user ph := by
    rw [leafEntry_page hpage, h.entry _ hj]
  have hqa : (p+4096*(b/4096)) % 4096 = 0 := by omega
  have hqt : p+4096*(b/4096) < 2^52 := by omega
  refine ⟨?_, p+4096*(b/4096), hleaf, hqa, hqt⟩
  have htrans : virtToPhys D.hhdmOffset s.mem pm (ph.pVaddr+k) = p+4096*(b/4096) := by
    rw [virtToPhys_leaf hf hpm, hleaf, if_neg (pflags_or_bits hqa hqt user ph).1,
      frame_mask _ _ hqa hqt (pflags_mask user ph)]
  have hoff : p+4096*(b/4096)+(ph.pVaddr+k)%4096 = p+b := by omega
  have hbyte := h.bytes b (by omega)
  rw [readVirtual, htrans, if_neg (by omega), hoff, higherHalf_frame D _ (by omega),
    ← Nat.add_assoc, hbyte, content]
  by_cases hkf : k < ph.pFilesz
  · rw [if_pos (by omega), if_pos hkf, wrap_of_lt (by omega)]
    congr 2
    omega
  · rw [if_neg (by omega), if_neg hkf]

/-- After `elf_load` ran to its final return, every byte of every loadable
segment reads as the file says and its page has the access of its flags. -/
theorem elf_load_faithful (R : RunContract D A) (s s' : State σ) (nodes : List ℕ) (entry size : ℕ)
    (hc : CtxOwned R.toContract roots shared ctx pm s nodes) (hpm : pm ∈ roots)
    (hwf : WellFormed data size)
    (hmaps : LoadMaps A D.hhdmOffset user data ctx (pheaders data) s)
    (hrun : elfLoad A D.hhdmOffset user data ctx s = some (.ok entry, s')) :
    ∀ ph ∈ pheaders data, ph.pType = ptLoad → ∀ k < ph.pMemsz,
      readVirtual D.hhdmOffset s'.phys.mem pm (ph.pVaddr+k) =
        some (if k < ph.pFilesz then data (ph.pOffset+k) else 0) ∧
      let e := leafEntry D s'.phys.mem pm (ph.pVaddr+k)
      (e &&& vmmWrite ≠ 0 ↔ ph.pFlags &&& pfW ≠ 0) ∧
      (e &&& vmmNx ≠ 0 ↔ ph.pFlags &&& pfX = 0) ∧ (e &&& vmmUser ≠ 0 ↔ user = true) := by
  obtain ⟨hctx, hsegs⟩ : ctx ≠ 0 ∧
      loadSegments A D.hhdmOffset user data ctx (pheaders data) s = some (.ok (), s') := by
    rw [elfLoad] at hrun
    split_ifs at hrun with h0 h1 h2 h3
    · exact absurd (Prod.mk.inj (Option.some.inj hrun)).1 (by simp)
    · exact absurd (Prod.mk.inj (Option.some.inj hrun)).1 (by simp)
    · exact absurd (Prod.mk.inj (Option.some.inj hrun)).1 (by simp)
    · obtain ⟨⟨out, s₁⟩, h4, h5⟩ := Option.map_eq_some_iff.mp hrun
      obtain ⟨h6, rfl⟩ := Prod.mk.inj h5
      cases out with
      | ok u => exact ⟨h0, h4⟩
      | error e => exact absurd h6 (by simp [Except.map])
  have hstart : Loaded R roots shared ctx pm user data [] s nodes :=
    ⟨hc, fun q hq => absurd hq (List.not_mem_nil)⟩
  obtain ⟨nodes', hl⟩ := hstart.run hctx hpm (by simpa using hwf.segment) hmaps hsegs
  intro ph hph hload k hk
  obtain ⟨⟨p, hp⟩, -⟩ := hl.placed ph (by simpa using hph) hload
  have hfile := hwf.file ph hph hload
  have hsize := hwf.size_le
  obtain ⟨hread, q, hleaf, hqa, hqt⟩ := hp.read hl.forest hpm (hwf.segment ph hph hload)
    (by omega) hk
  refine ⟨hread, ?_⟩
  dsimp only
  rw [hleaf]
  exact (pflags_or_bits hqa hqt user ph).2

/-- One segment of four file bytes that crosses a page boundary. -/
def crossingImage : Image :=
  let header := store (store (store (fun _ => 0) 0 4 elfMagic) 4 1 2) 16 2 2
  let header := store (store (store header 24 8 0x400FF8) 32 8 64) 56 2 1
  let ph := store (store (store header 64 4 ptLoad) 68 4 5) 72 8 120
  let ph := store (store (store ph 80 8 0x400FF8) 96 8 4) 104 8 16
  store ph 120 4 0xDDCCBBAA

def crossingHeader : ElfPheader := ⟨1, 5, 120, 0x400FF8, 4, 16⟩

theorem crossing_headers : pheaders crossingImage = [crossingHeader] := by decide +kernel

theorem crossing_wellFormed : WellFormed crossingImage 124 := by
  refine ⟨by decide, by decide +kernel, ?_, ?_⟩
  all_goals
    intro ph hph _
    rw [crossing_headers] at hph
    rw [List.mem_singleton.mp hph]
  · exact ⟨by decide, by decide⟩
  · decide

def crossingState : State (List ℕ) := ⟨smallPhys, fun _ => ⟨0, 0, 0, 0, 0⟩, fun _ => ⟨0, 0, 0⟩⟩

/-- The context at which the image is loaded. -/
def crossingCtx : ℕ × State (List ℕ) := vinit smallOps smallLayout.hhdmOffset 0x10000 crossingState

theorem elf_load_faithful_crossing :
    ∃ s', elfLoad smallOps smallLayout.hhdmOffset true crossingImage crossingCtx.1 crossingCtx.2 =
        some (.ok 0x400FF8, s') ∧
      readVirtual smallLayout.hhdmOffset s'.phys.mem smallLayout.hhdmOffset 0x400FFA =
        some 0xCC := by
  have hout : (elfLoad smallOps smallLayout.hhdmOffset true crossingImage crossingCtx.1
      crossingCtx.2).map (fun r => r.1.toOption) = some (some 0x400FF8) := by decide +kernel
  obtain ⟨⟨out, s'⟩, hrun, ho⟩ := Option.map_eq_some_iff.mp hout
  cases out with
  | error e => exact absurd ho (by simp [Except.toOption])
  | ok entry =>
    obtain rfl : entry = 0x400FF8 := by simpa [Except.toOption] using ho
    have hforest := (forest_zeroed smallContract.toContract ∅ smallPhys_valid smallPhys_owned
      (fun _ _ => rfl)).1
    obtain ⟨root, hc, -⟩ := vinit_ctxOwned (s := crossingState) hforest
      smallLayout.hhdmOffset 0x10000
      (by decide +kernel)
    have h := elf_load_faithful smallContract crossingCtx.2 s' [root] 0x400FF8 124 hc rfl
      crossing_wellFormed (by decide +kernel) hrun crossingHeader (by simp [crossing_headers]) rfl 2
      (by decide)
    exact ⟨s', hrun, h.1.trans (by decide +kernel)⟩

end Emk.Elf
