import Emk.HeapSteps
import Mathlib.Data.List.Chain

/-!
# The heap operations on the block sequence

The search loops stop at the free blocks the sequence predicts, so `kmalloc`
and `kfree` return, keep the sequence in step with memory and leave no two
free neighbours.
-/

set_option autoImplicit false

namespace Emk.HeapBlocks
open Emk.ByteMemory Emk.MachineWord Emk.DirectMap Emk.FirstFitHeap Emk.LinkedPath

variable {h : Heap} {lo hi : ℕ} {pre post : List Blk} {b : Blk}

def Calm (bs : List Blk) : Prop := bs.IsChain (fun x y => ¬ (x.free = true ∧ y.free = true))

theorem calm_split : Calm (pre ++ b::post) ↔ Calm (pre ++ [b]) ∧ Calm (b::post) :=
    List.isChain_split

theorem calm_live (hb : b.free = false) : Calm (pre ++ b::post) ↔ Calm pre ∧ Calm post := by
  rw [Calm, List.isChain_append, List.isChain_cons]
  simp [Calm, hb]

theorem calm_cons {b' : Blk} (hb : b.free = b'.free) (hc : Calm (b::post)) : Calm (b'::post) := by
  rw [Calm, List.isChain_cons] at hc ⊢
  rwa [← hb]

theorem calm_concat {b' : Blk} (hb : b.free = b'.free) (hc : Calm (pre ++ [b])) :
    Calm (pre ++ [b']) := by
  rw [Calm, List.isChain_append] at hc ⊢
  simpa [hb] using hc

@[simp] theorem used_nil : used [] = [] := rfl

theorem used_append (xs ys : List Blk) : used (xs ++ ys) = used xs ++ used ys :=
  List.filter_append xs ys

theorem used_cons (b : Blk) (bs : List Blk) :
    used (b::bs) = if b.free then used bs else b::used bs := by
  cases hb : b.free <;> simp [used, hb]

theorem Rep.length_lt {bs : List Blk} (hr : Rep h lo hi bs) : bs.length < rounds := by
  have := tiles_length hr.tiles
  have := hr.high
  rw [rounds]
  omega

theorem Rep.tip_concat (hb : b.free = true) : tip 0 (frees (pre ++ [b])) = b.addr := by
  rw [frees_append, frees_cons, if_pos hb]
  exact tip_append 0 b.addr (frees pre) []

theorem Rep.slot_tip_free (hr : Rep h lo hi (pre ++ b::post)) (hb : b.free = true) :
    slot h (tip 0 (frees pre)) = b.addr := by
  have hlinks := hr.links
  rw [frees_append, frees_cons, if_pos hb] at hlinks
  exact path_tip (path_append.mp hlinks).1

/-- The search reaches the end of the list or the first free block that is
large enough. -/
theorem kmallocLoop_cases (n : ℕ) (hr : Rep h lo hi (pre ++ post))
    (hsmall : ∀ x ∈ pre, x.free = true → x.size < n) (fuel : ℕ) (hfuel : post.length < fuel) :
    ((∀ x ∈ pre ++ post, x.free = true → x.size < n) ∧
      kmallocLoop n h fuel (tip 0 (frees pre)) (slot h (tip 0 (frees pre))) = some (0, h)) ∨
      ∃ pre' b post', pre ++ post = pre' ++ b::post' ∧ b.free = true ∧ n ≤ b.size ∧
        (∀ x ∈ pre', x.free = true → x.size < n) ∧
        kmallocLoop n h fuel (tip 0 (frees pre)) (slot h (tip 0 (frees pre))) =
          some (takeBlock n h (tip 0 (frees pre')) b.addr) := by
  induction post generalizing pre fuel with
  | nil =>
    obtain ⟨fuel, rfl⟩ := Nat.exists_eq_add_of_lt hfuel
    have hlinks := hr.links
    rw [List.append_nil] at hlinks ⊢
    left
    rw [kmallocLoop, if_pos (path_tip hlinks)]
    exact ⟨hsmall, rfl⟩
  | cons c post ih =>
    rw [List.length_cons] at hfuel
    have hr' : Rep h lo hi ((pre ++ [c]) ++ post) := by simpa using hr
    have hassoc : (pre ++ [c]) ++ post = pre ++ c::post := by simp
    have hnext : (c.free = true → c.size < n) →
        ∀ x ∈ pre ++ [c], x.free = true → x.size < n := by
      intro hc x hx
      rcases List.mem_append.mp hx with hx | hx
      · exact hsmall x hx
      · rwa [List.mem_singleton.mp hx]
    cases hc : c.free with
    | false =>
      have hsame : frees (pre ++ [c]) = frees pre := by
        rw [frees_append, frees_cons, if_neg (by simp [hc])]
        exact List.append_nil _
      have := ih hr' (hnext fun hf => absurd (hc.symm.trans hf) Bool.false_ne_true) fuel (by omega)
      rwa [hsame, hassoc] at this
    | true =>
      obtain ⟨fuel, rfl⟩ : ∃ k, fuel = k+1 := ⟨fuel-1, by omega⟩
      have hlow := hr.around.low
      have hsize := hr.size_eq c (by simp)
      rw [hr.slot_tip_free hc, kmallocLoop, if_neg (by omega)]
      by_cases hfit : blockSize h c.addr ≥ n
      · right
        refine ⟨pre, c, post, rfl, hc, ?_, hsmall, if_pos hfit⟩
        rwa [hsize] at hfit
      · rw [if_neg hfit]
        have := ih hr' (hnext fun _ => by omega) fuel (by omega)
        rwa [Rep.tip_concat hc, hassoc, ← blockNext_slot (by omega)] at this

theorem alignUp_mod (n : ℕ) : alignUp n 8 % 8 = 0 := by
  rw [alignUp, divRoundUp, wrap]
  omega

/-- A free block is split when the rest can hold another header and payload. -/
theorem Rep.takeBlock_eq (hr : Rep h lo hi (pre ++ b::post)) {n : ℕ} (hn : n % 8 = 0)
    (hfit : n ≤ b.size) (prev : ℕ) :
    takeBlock n h prev b.addr = (b.addr+16,
      if n+32 ≤ b.size then
        setSlot (setSize (setNext (setSize h (b.addr+16+n) (b.size-16-n)) (b.addr+16+n)
          (blockNext (setSize h (b.addr+16+n) (b.size-16-n)) b.addr)) b.addr n) prev (b.addr+16+n)
      else setSlot h prev (blockNext h b.addr)) := by
  have ha := hr.around
  have hlow := ha.low
  have hfin : b.addr+16+b.size < 2^64 := lt_of_le_of_lt (tiles_le ha.post_tiles) hr.high
  have hsize := hr.size_eq b (by simp)
  have htot : wrap (16+n) = 16+n := wrap_of_lt (by omega)
  have hround : alignUp (wrap (16+n+16)) 8 = n+32 := by
    rw [alignUp, divRoundUp, wrap, wrap, wrap]
    omega
  have hptr : wrap (b.addr+16) = b.addr+16 := wrap_of_lt (by omega)
  rw [takeBlock]
  dsimp only
  rw [htot, hround, hptr, hsize]
  split_ifs with hsplit
  · rw [wrap_of_lt (by omega), ← Nat.add_assoc,
      show wrap (b.size+2^64-(16+n)) = b.size-16-n by rw [wrap]; omega]
  · rfl

theorem Rep.take (hr : Rep h lo hi (pre ++ b::post)) (hb : b.free = true) {n : ℕ} (hn : n % 8 = 0)
    (hfit : n ≤ b.size) (hc : Calm (pre ++ b::post)) :
    ∃ h' bs', takeBlock n h (tip 0 (frees pre)) b.addr = (b.addr+16, h') ∧ Rep h' lo hi bs' ∧
      Calm bs' ∧ ∃ s, n ≤ s ∧ used bs' = used pre ++ ⟨b.addr, s, false⟩::used post := by
  obtain ⟨h1, h2⟩ := calm_split.mp hc
  rw [hr.takeBlock_eq hn hfit]
  split_ifs with hsplit
  · refine ⟨_, _, rfl, hr.take_split hb n hn hsplit, ?_, ?_⟩
    · refine (calm_live rfl).mpr ⟨?_, calm_cons hb h2⟩
      exact (List.isChain_append.mp hc).1
    · exact ⟨n, le_refl n, by
        rw [used_append, used_cons, if_neg (by simp), used_cons, if_pos rfl]⟩
  · refine ⟨_, _, rfl, hr.take_whole hb, ?_, ?_⟩
    · refine (calm_live rfl).mpr ⟨(List.isChain_append.mp hc).1, ?_⟩
      exact (List.isChain_cons.mp h2).2
    · exact ⟨b.size, hfit, by rw [used_append, used_cons, if_neg (by simp)]⟩

/-- `kmalloc` turns the first free block that is large enough into a used one,
or finds none. -/
theorem Rep.kmalloc_first {bs : List Blk} (hr : Rep h lo hi bs) (hc : Calm bs) {n : ℕ}
    (hn : n ≠ 0) :
    ((∀ x ∈ bs, x.free = true → x.size < alignUp n 8) ∧ kmalloc n h = some (0, h)) ∨
      ∃ pre b post h' bs' s, bs = pre ++ b::post ∧ b.free = true ∧
        (∀ x ∈ pre, x.free = true → x.size < alignUp n 8) ∧ alignUp n 8 ≤ b.size ∧
        kmalloc n h = some (takeBlock (alignUp n 8) h (tip 0 (frees pre)) b.addr) ∧
        kmalloc n h = some (b.addr+16, h') ∧ Rep h' lo hi bs' ∧ Calm bs' ∧ alignUp n 8 ≤ s ∧
        (used bs').Perm (⟨b.addr, s, false⟩::used bs) := by
  rw [FirstFitHeap.kmalloc, if_neg hn]
  have hr' : Rep h lo hi ([] ++ bs) := hr
  rcases kmallocLoop_cases (alignUp n 8) hr' (fun x hx => absurd hx List.not_mem_nil) rounds
    hr.length_lt with hnone | ⟨pre, b, post, rfl, hb, hfit, hsmall, heq⟩
  · exact .inl hnone
  · obtain ⟨h', bs', ht, hr'', hc', s, hs, hl⟩ := hr.take hb (alignUp_mod n) hfit hc
    refine .inr ⟨pre, b, post, h', bs', s, rfl, hb, hsmall, hfit, heq,
      heq.trans (congrArg some ht), hr'', hc', hs, ?_⟩
    rw [hl, used_append, used_cons, if_pos hb]
    exact List.perm_middle

/-- `kmalloc` finds nothing or turns one block into a used one. -/
theorem Rep.kmalloc {bs : List Blk} (hr : Rep h lo hi bs) (hc : Calm bs) (n : ℕ) :
    kmalloc n h = some (0, h) ∨
      ∃ a h' bs', kmalloc n h = some (a+16, h') ∧ Rep h' lo hi bs' ∧ Calm bs' ∧
        (∃ s, (used bs').Perm (⟨a, s, false⟩::used bs)) ∧ lo ≤ a ∧ a+16+alignUp n 8 ≤ hi := by
  by_cases h0 : n = 0
  · exact .inl (if_pos h0)
  rcases hr.kmalloc_first hc h0 with
    ⟨-, hnone⟩ | ⟨pre, b, post, h', bs', s, rfl, -, -, hfit, -, heq, hr', hc', -, hl⟩
  · exact .inl hnone
  · obtain ⟨hlow, hfin⟩ := tiles_mem hr.tiles (b := b) (by simp)
    rw [Blk.fin] at hfin
    exact .inr ⟨b.addr, h', bs', heq, hr', hc', ⟨s, hl⟩, hlow, by omega⟩

theorem findSlot_eq {a block : ℕ} {fs gs : List ℕ} (hp : Path (slot h) a (fs ++ gs) 0)
    (hfs : ∀ x ∈ fs, x ≠ 0 ∧ x < block) (hgs : ∀ x ∈ gs, block ≤ x) (fuel : ℕ)
    (hfuel : fs.length < fuel) : findSlot h block fuel a = some (tip a fs) := by
  induction fs generalizing a fuel with
  | nil =>
    obtain ⟨fuel, rfl⟩ := Nat.exists_eq_add_of_lt hfuel
    rw [findSlot, if_neg, tip]
    rintro ⟨h0, hlt⟩
    cases gs with
    | nil => exact h0 hp
    | cons g gs =>
      rw [hp.1] at hlt
      have := hgs g (by simp)
      omega
  | cons f fs ih =>
    rw [List.length_cons] at hfuel
    obtain ⟨fuel, rfl⟩ : ∃ k, fuel = k+1 := ⟨fuel-1, by omega⟩
    have hf := hfs f (by simp)
    rw [findSlot, hp.1, if_pos hf]
    exact ih hp.2 (fun x hx => hfs x (by simp [hx])) fuel (by omega)

theorem findPrev_eq {f block : ℕ} {fs gs : List ℕ} (hp : Path (slot h) f (fs ++ block::gs) 0)
    (hfs : ∀ x ∈ f::fs, x ≠ 0) (hb : block ∉ fs) (fuel : ℕ) (hfuel : fs.length < fuel) :
    findPrev h block fuel f = some (tip f fs) := by
  induction fs generalizing f fuel with
  | nil =>
    obtain ⟨fuel, rfl⟩ := Nat.exists_eq_add_of_lt hfuel
    rw [findPrev, if_neg, tip]
    rw [blockNext_slot (hfs f (by simp))]
    exact not_not.mpr hp.1
  | cons g fs ih =>
    rw [List.length_cons] at hfuel
    obtain ⟨fuel, rfl⟩ : ∃ k, fuel = k+1 := ⟨fuel-1, by omega⟩
    have hg : g ≠ block := fun he => hb (by simp [he])
    rw [findPrev, blockNext_slot (hfs f (by simp)), hp.1, if_pos hg]
    refine ih hp.2 (fun x hx => hfs x (List.mem_cons_of_mem f hx)) (fun hm => hb ?_) fuel (by omega)
    exact List.mem_cons_of_mem g hm

/-- Forward coalescing happens exactly when the neighbour behind is free. -/
theorem Rep.coalesceNext (hr : Rep h lo hi (pre ++ b::post)) (hb : b.free = true)
    (hc : Calm post) :
    ∃ b' post', Rep (coalesceNext h b.addr) lo hi (pre ++ b'::post') ∧ b'.free = true ∧
      b'.addr = b.addr ∧ Calm (b'::post') ∧ used post' = used post := by
  have ha := hr.around
  have hlow := ha.low
  have hfin : b.addr+16+b.size < 2^64 := lt_of_le_of_lt (tiles_le ha.post_tiles) hr.high
  have hsize := hr.size_eq b (by simp)
  have hlinks := hr.links
  rw [frees_append, frees_cons, if_pos hb] at hlinks
  have hrest := (path_append.mp hlinks).2
  rw [FirstFitHeap.coalesceNext, hsize, wrap_of_lt hfin, blockNext_slot (by omega)]
  cases post with
  | nil =>
    rw [if_neg (fun hn => hn.1 hrest)]
    exact ⟨b, [], hr, hb, rfl, List.IsChain.singleton b, rfl⟩
  | cons c post =>
    have hadj : c.addr = b.addr+16+b.size := ha.post_tiles.1
    cases hcf : c.free with
    | true =>
      have hnext : slot h b.addr = c.addr := by
        rw [frees_cons, if_pos hcf] at hrest
        exact hrest.1
      rw [hnext, if_pos ⟨by omega, hadj.symm⟩]
      refine ⟨⟨b.addr, b.size+16+c.size, true⟩, post, hr.join hb hcf, rfl, rfl,
        calm_cons hcf hc, ?_⟩
      rw [used_cons, if_pos hcf]
    | false =>
      have hne : ¬ (slot h b.addr ≠ 0 ∧ b.addr+16+b.size = slot h b.addr) := by
        rintro ⟨h0, heq⟩
        rw [frees_cons, if_neg (by simp [hcf])] at hrest
        cases hfp : frees post with
        | nil => exact h0 (by rwa [hfp] at hrest)
        | cons g gs =>
          rw [hfp] at hrest
          obtain ⟨d, hd, -, hda⟩ := mem_frees (show g ∈ frees post by simp [hfp])
          have hle : c.addr+16+c.size ≤ d.addr := (tiles_mem ha.post_tiles.2 hd).1
          rw [hrest.1] at heq
          omega
      rw [if_neg hne]
      refine ⟨b, c::post, hr, hb, rfl, ?_, rfl⟩
      exact List.isChain_cons.mpr ⟨by simp [hcf], hc⟩

/-- Backward coalescing happens exactly when the neighbour before is free. -/
theorem Rep.coalescePrev (hr : Rep h lo hi (pre ++ b::post)) (hb : b.free = true)
    (hpre : Calm pre) (hc : Calm (b::post)) (hne : frees pre ≠ []) :
    ∃ bs', Rep (coalescePrev h (tip 0 (frees pre)) b.addr) lo hi bs' ∧ Calm bs' ∧
      used bs' = used pre ++ used post := by
  have ha := hr.around
  have hfin : b.addr+16+b.size < 2^64 := lt_of_le_of_lt (tiles_le ha.post_tiles) hr.high
  obtain ⟨xs, x, rfl⟩ : ∃ xs x, pre = xs ++ [x] := by
    rcases List.eq_nil_or_concat pre with rfl | ⟨xs, x, rfl⟩
    · exact absurd rfl hne
    · exact ⟨xs, x, by simp⟩
  have hxfin : x.addr+16+x.size = b.addr := ((tiles_append _ _ _ _ _).mp ha.pre_tiles).2
  have hassoc : (xs ++ [x]) ++ b::post = xs ++ x::b::post := by simp
  rw [hassoc] at hr
  rw [FirstFitHeap.coalescePrev]
  cases hx : x.free with
  | true =>
    rw [Rep.tip_concat hx, hr.size_eq x (by simp), hxfin, wrap_of_lt (by omega), if_pos rfl]
    refine ⟨_, hr.join hx hb, ?_, ?_⟩
    · exact calm_split.mpr ⟨calm_concat hx hpre, calm_cons hb hc⟩
    · simp [used_append, used_cons, hx]
  | false =>
    have hsame : frees (xs ++ [x]) = frees xs := by
      rw [frees_append, frees_cons, if_neg (by simp [hx])]
      exact List.append_nil _
    rw [hsame] at hne ⊢
    obtain ⟨y, hy, hyx⟩ : ∃ y ∈ xs, y.addr = tip 0 (frees xs) := by
      cases hfx : frees xs with
      | nil => exact absurd hfx hne
      | cons f fs =>
        obtain ⟨y, hy, -, hya⟩ := mem_frees (hfx ▸ tip_mem f fs)
        exact ⟨y, hy, hya⟩
    have hyfin : y.addr+16+y.size ≤ x.addr := (hr.around.before y hy).2.2
    have hys : blockSize h y.addr = y.size := hr.size_eq y (by simp [hy])
    rw [← hyx, hys, wrap_of_lt (by omega), if_neg (by omega)]
    refine ⟨_, hr, (calm_live hx).mpr ⟨?_, hc⟩, ?_⟩
    · exact (List.isChain_append.mp hpre).1
    · simp [used_append, used_cons, hx, hb]

/-- The backward search meets the last free block before the released one. -/
theorem Rep.findPrev (hr : Rep h lo hi (pre ++ b::post)) (hb : b.free = true)
    (hne : frees pre ≠ []) :
    findPrev h b.addr rounds h.freelist = some (tip 0 (frees pre)) := by
  have ha := hr.around
  have hlinks := hr.links
  rw [frees_append, frees_cons, if_pos hb] at hlinks
  have hlen : (frees pre).length < rounds := by
    have h1 := frees_length pre
    have h2 := hr.length_lt
    rw [List.length_append] at h2
    omega
  have hbefore : ∀ x ∈ frees pre, x ≠ 0 ∧ x < b.addr := by
    intro x hx
    obtain ⟨c, hc, -, rfl⟩ := mem_frees hx
    have := ha.before c hc
    omega
  cases hf : frees pre with
  | nil => exact absurd hf hne
  | cons f fs =>
    rw [hf] at hlinks hlen hbefore
    have hhead : h.freelist = f := hlinks.1
    rw [List.length_cons] at hlen
    rw [hhead, tip]
    apply findPrev_eq hlinks.2 (fun x hx => (hbefore x hx).1)
    · intro hm
      have := (hbefore b.addr (List.mem_cons_of_mem f hm)).2
      omega
    · omega

theorem calm_of_no_free (hpre : frees pre = []) (hc : Calm (b::post)) : Calm (pre ++ b::post) := by
  have hall : ∀ x ∈ pre, x.free = false := by
    intro x hx
    cases hxf : x.free with
    | false => rfl
    | true =>
      have hm : x.addr ∈ frees pre := List.mem_map.mpr ⟨x, List.mem_filter.mpr ⟨hx, hxf⟩, rfl⟩
      rw [hpre] at hm
      exact absurd hm (List.not_mem_nil)
  induction pre with
  | nil => exact hc
  | cons x xs ih =>
    have hxf := hall x (by simp)
    rw [frees_cons, if_neg (by simp [hxf])] at hpre
    refine List.isChain_cons.mpr ⟨by simp [hxf], ?_⟩
    exact ih hpre (fun y hy => hall y (List.mem_cons_of_mem x hy))

/-- The block linked in behind `cur` and joined with the free block after it. -/
def relink (h : Heap) (cur block : ℕ) : Heap :=
  coalesceNext (setSlot (setNext h block (slot h cur)) cur block) block

theorem Rep.relinked (hr : Rep h lo hi (pre ++ b::post)) (hb : b.free = false)
    (hc : Calm (pre ++ b::post)) :
    ∃ b' post', Rep (relink h (tip 0 (frees pre)) b.addr) lo hi (pre ++ b'::post') ∧
      b'.free = true ∧ b'.addr = b.addr ∧ Calm (b'::post') ∧ used post' = used post :=
  (hr.link hb).coalesceNext rfl ((calm_live hb).mp hc).2

theorem Rep.tip_null (hr : Rep h lo hi (pre ++ b::post)) :
    tip 0 (frees pre) = 0 ↔ frees pre = [] := by
  constructor
  · intro hzero
    have hnodup := hr.nodup_front
    cases hf : frees pre with
    | nil => rfl
    | cons f fs =>
      have hm := tip_mem f fs
      rw [hf, tip] at hzero
      rw [hzero] at hm
      rw [hf] at hnodup
      exact absurd hm (List.nodup_cons.mp hnodup).1
  · intro hnil
    rw [hnil]
    rfl

/-- Both searches of `kfree` stop at the last free block before the one released. -/
theorem Rep.kfree_eq (hr : Rep h lo hi (pre ++ b::post)) (hb : b.free = false)
    (hc : Calm (pre ++ b::post)) :
    FirstFitHeap.kfree (b.addr+16) h = some
      (if tip 0 (frees pre) ≠ 0 then
        FirstFitHeap.coalescePrev (relink h (tip 0 (frees pre)) b.addr) (tip 0 (frees pre)) b.addr
      else relink h (tip 0 (frees pre)) b.addr) := by
  have ha := hr.around
  have hfin : b.addr+16+b.size < 2^64 := lt_of_le_of_lt (tiles_le ha.post_tiles) hr.high
  have hblock : wrap (b.addr+16+2^64-16) = b.addr := by rw [wrap]; omega
  have hlinks := hr.links
  rw [frees_append, frees_cons, if_neg (by simp [hb])] at hlinks
  have hslot : findSlot h b.addr rounds 0 = some (tip 0 (frees pre)) := by
    apply findSlot_eq hlinks
    · intro x hx
      obtain ⟨c, hc, -, rfl⟩ := mem_frees hx
      have := ha.before c hc
      omega
    · intro x hx
      have : b.addr+16+b.size ≤ x := (ha.free_after hx).1
      omega
    · have h1 := frees_length pre
      have h2 := hr.length_lt
      rw [List.length_append] at h2
      omega
  obtain ⟨b', post', hr', hb', haddr, -, -⟩ := hr.relinked hb hc
  rw [FirstFitHeap.kfree, if_neg (by omega)]
  dsimp only
  rw [hblock, hslot, Option.bind_some]
  by_cases hcur : tip 0 (frees pre) ≠ 0
  · have hprev := hr'.findPrev hb' (fun hnil => hcur (hr.tip_null.mpr hnil))
    rw [haddr, relink] at hprev
    rw [if_pos hcur, if_pos hcur, hprev, Option.map_some, relink]
  · rw [if_neg hcur, if_neg hcur, relink]

/-- `kfree` returns a used block to the free ones and merges its free neighbours. -/
theorem Rep.kfree (hr : Rep h lo hi (pre ++ b::post)) (hb : b.free = false)
    (hc : Calm (pre ++ b::post)) :
    ∃ h' bs', kfree (b.addr+16) h = some h' ∧ Rep h' lo hi bs' ∧ Calm bs' ∧
      used bs' = used pre ++ used post := by
  obtain ⟨b', post', hr', hb', haddr, hc', hl⟩ := hr.relinked hb hc
  have hpre := ((calm_live hb).mp hc).1
  rw [hr.kfree_eq hb hc]
  split_ifs with hcur
  · obtain ⟨bs', hr'', hc'', hl'⟩ := hr'.coalescePrev hb' hpre hc'
      (fun hnil => hcur (hr.tip_null.mpr hnil))
    rw [haddr] at hr''
    exact ⟨_, bs', rfl, hr'', hc'', by rw [hl', hl]⟩
  · refine ⟨_, _, rfl, hr', calm_of_no_free (hr.tip_null.mp (not_not.mp hcur)) hc', ?_⟩
    rw [used_append, used_cons, if_pos hb', hl]

end Emk.HeapBlocks
