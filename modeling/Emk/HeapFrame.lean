import Emk.HeapGaps

/-!
# What the heap writes

Headers and payloads share one memory. `kmalloc` writes inside the block it
takes and to the link before it, `kfree` to the header released and to the
free one before it. None of these bytes belongs to a block that stays live.
-/

set_option autoImplicit false

namespace Emk.HeapRuns
open Emk.ByteMemory Emk.MachineWord Emk.DirectMap Emk.FirstFitHeap Emk.LinkedPath Emk.HeapBlocks
open Emk.Transition

section Writes
variable {h : Heap} {b v x : ℕ}

theorem setSize_mem (hx : x ∉ Range b 16) : (setSize h b v).mem x = h.mem x := by
  apply store_outside
  rw [mem_range] at hx ⊢
  omega

theorem setNext_mem (hx : x ∉ Range b 16) : (setNext h b v).mem x = h.mem x := by
  apply store_outside
  rw [mem_range] at hx ⊢
  omega

theorem setSlot_mem (hx : b = 0 ∨ x ∉ Range b 16) : (setSlot h b v).mem x = h.mem x := by
  rw [setSlot]
  split_ifs with h0
  · rfl
  · exact setNext_mem (hx.resolve_left h0)

theorem absorb_mem {next : ℕ} (hx : x ∉ Range b 16) : (absorb h b next).mem x = h.mem x := by
  rw [absorb]
  exact (setNext_mem hx).trans (setSize_mem hx)

theorem coalesceNext_mem (hx : x ∉ Range b 16) : (coalesceNext h b).mem x = h.mem x := by
  rw [coalesceNext]
  split_ifs
  · exact absorb_mem hx
  · rfl

theorem coalescePrev_mem {prev : ℕ} (hx : x ∉ Range prev 16) :
    (coalescePrev h prev b).mem x = h.mem x := by
  rw [coalescePrev]
  split_ifs
  · exact absorb_mem hx
  · rfl

theorem relink_mem {cur : ℕ} (hx : x ∉ Range b 16) (hcur : cur = 0 ∨ x ∉ Range cur 16) :
    (relink h cur b).mem x = h.mem x := by
  rw [relink, coalesceNext_mem hx, setSlot_mem hcur, setNext_mem hx]

end Writes

section Frames
variable {h : Heap} {lo hi x : ℕ} {pre post : List Blk} {b : Blk}

/-- The slot before a block is the list head or lies in a free block. -/
theorem tip_apart (hr : Rep h lo hi (pre ++ b::post))
    (hx : ∀ c ∈ pre, c.free = true → x ∉ Range c.addr (16+c.size)) :
    tip 0 (frees pre) = 0 ∨ x ∉ Range (tip 0 (frees pre)) 16 := by
  rcases hr.around.slot_before (tip_mem 0 (frees pre)) with hzero | ⟨-, -, c, hc, hf, hca⟩
  · exact .inl hzero
  · have hout := hx c hc hf
    rw [← hca]
    rw [mem_range] at hout ⊢
    exact .inr (by omega)

/-- Taking a block writes inside free blocks only. -/
theorem take_frame (hr : Rep h lo hi (pre ++ b::post)) (hb : b.free = true) {n : ℕ}
    (hn : n % 8 = 0) (hfit : n ≤ b.size)
    (hx : ∀ c ∈ pre ++ b::post, c.free = true → x ∉ Range c.addr (16+c.size)) :
    (takeBlock n h (tip 0 (frees pre)) b.addr).2.mem x = h.mem x := by
  have htip := tip_apart hr fun c hc => hx c (List.mem_append_left _ hc)
  have hself := hx b (by simp) hb
  rw [mem_range] at hself
  rw [hr.takeBlock_eq hn hfit]
  dsimp only
  split_ifs with hsplit
  · have hhead : x ∉ Range b.addr 16 := by rw [mem_range]; omega
    have hrest : x ∉ Range (b.addr+16+n) 16 := by rw [mem_range]; omega
    rw [setSlot_mem htip, setSize_mem hhead, setNext_mem hrest, setSize_mem hrest]
  · exact setSlot_mem htip

/-- Releasing a block writes to its header and inside free blocks only. -/
theorem kfree_frame (hr : Rep h lo hi (pre ++ b::post)) (hb : b.free = false)
    (hc : Calm (pre ++ b::post)) (hself : x ∉ Range b.addr 16)
    (hx : ∀ c ∈ pre ++ b::post, c.free = true → x ∉ Range c.addr (16+c.size)) :
    ∃ h', kfree (b.addr+16) h = some h' ∧ h'.mem x = h.mem x := by
  have htip := tip_apart hr fun c hc => hx c (List.mem_append_left _ hc)
  refine ⟨_, hr.kfree_eq hb hc, ?_⟩
  split_ifs with hcur
  · rw [coalescePrev_mem (htip.resolve_left hcur), relink_mem hself htip]
  · exact relink_mem hself htip

end Frames

variable {w : World} {lo hi : ℕ} {bs : List Blk}

/-- The size field and the payload of the live block `q` are as they were. -/
structure Kept (w : World) (h' : Heap) (q : ℕ) : Prop where
  size : Set.EqOn h'.mem w.heap.mem (Range (q-16) 8)
  payload : Set.EqOn h'.mem w.heap.mem (Range q (blockSize w.heap (q-16)))

/-- A block that no write reaches is kept. -/
theorem Inv.kept (hi' : Inv lo hi w bs) {q : ℕ} (hq : q ∈ w.live) {h' : Heap}
    (hsame : ∀ c ∈ bs, c.free = false → c.addr+16 = q → ∀ x, c.addr ≤ x → x < c.fin →
      h'.mem x = w.heap.mem x) : Kept w h' q := by
  obtain ⟨pre, c, post, hbs, hf, rfl⟩ := hi'.live_block hq
  have hc : c ∈ bs := by simp [hbs]
  have hkeep := hsame c hc hf rfl
  refine ⟨fun x hx => ?_, fun x hx => ?_⟩
  · rw [Nat.add_sub_cancel, mem_range] at hx
    exact hkeep x hx.1 (by rw [Blk.fin]; omega)
  · rw [Nat.add_sub_cancel, hi'.rep.size_eq c hc, mem_range] at hx
    exact hkeep x (by omega) (by rw [Blk.fin]; omega)

theorem Inv.outside_free (hi' : Inv lo hi w bs) {c : Blk} (hc : c ∈ bs) (hf : c.free = false)
    {x : ℕ} (hlo : c.addr ≤ x) (hhi : x < c.fin) :
    ∀ d ∈ bs, d.free = true → x ∉ Range d.addr (16+d.size) := by
  intro d hd hdf hx
  rw [mem_range] at hx
  have hsame := tiles_overlap hi'.rep.tiles hc hd ⟨hlo, hhi⟩ ⟨hx.1, by rw [Blk.fin]; omega⟩
  rw [← hsame, hf] at hdf
  exact Bool.false_ne_true hdf

/-- A request leaves the bytes outside the free blocks as they are. -/
theorem Inv.kmalloc_mem (hi' : Inv lo hi w bs) {n p x : ℕ} {h' : Heap}
    (heq : FirstFitHeap.kmalloc n w.heap = some (p, h'))
    (hx : ∀ d ∈ bs, d.free = true → x ∉ Range d.addr (16+d.size)) : h'.mem x = w.heap.mem x := by
  by_cases h0 : n = 0
  · rw [FirstFitHeap.kmalloc, if_pos h0] at heq
    rw [(Prod.mk.inj (Option.some.inj heq)).2]
  rcases hi'.rep.kmalloc_first hi'.calm h0 with
    ⟨-, hnone⟩ | ⟨pre, b, post, -, -, -, rfl, hb, -, hfit, hsome, -⟩
  · rw [hnone] at heq
    rw [(Prod.mk.inj (Option.some.inj heq)).2]
  · rw [hsome] at heq
    have hsnd : _ = h' := congrArg Prod.snd (Option.some.inj heq)
    rw [← hsnd]
    exact take_frame hi'.rep hb (alignUp_mod n) hfit hx

theorem Inv.kmalloc_keeps (hi' : Inv lo hi w bs) (n : ℕ) :
    ∃ p h', FirstFitHeap.kmalloc n w.heap = some (p, h') ∧ ∀ q ∈ w.live, Kept w h' q := by
  have hgrant : ∃ p h', FirstFitHeap.kmalloc n w.heap = some (p, h') := by
    obtain ⟨w', bs', heq, -⟩ := hi'.kmalloc n
    obtain ⟨r, hr, -⟩ := Option.map_eq_some_iff.mp heq
    exact ⟨r.1, r.2, hr⟩
  obtain ⟨p, h', heq⟩ := hgrant
  refine ⟨p, h', heq, fun q hq => hi'.kept hq fun c hc hf _ x hlo hhi => ?_⟩
  exact hi'.kmalloc_mem heq (hi'.outside_free hc hf hlo hhi)

theorem Inv.kfree_keeps (hi' : Inv lo hi w bs) {p : ℕ} (hp : p = 0 ∨ p ∈ w.live) :
    ∃ h', FirstFitHeap.kfree p w.heap = some h' ∧ ∀ q ∈ w.live, q ≠ p → Kept w h' q := by
  by_cases h0 : p = 0
  · exact ⟨w.heap, if_pos h0, fun _ _ _ => ⟨fun _ _ => rfl, fun _ _ => rfl⟩⟩
  obtain ⟨pre, b, post, rfl, hb, rfl⟩ := hi'.live_block (hp.resolve_left h0)
  refine ⟨_, hi'.rep.kfree_eq hb hi'.calm, fun q hq hne => ?_⟩
  refine hi'.kept hq fun c hc hf hcq x hlo hhi => ?_
  have hself : x ∉ Range b.addr 16 := by
    intro hin
    rw [mem_range] at hin
    have hsame := tiles_overlap (b := c) (c := b) hi'.rep.tiles hc (by simp) ⟨hlo, hhi⟩
      ⟨hin.1, by rw [Blk.fin]; omega⟩
    exact hne (by rw [← hcq, hsame])
  obtain ⟨h', heq, hmem⟩ := kfree_frame hi'.rep hb hi'.calm hself
    (hi'.outside_free hc hf hlo hhi)
  rw [hi'.rep.kfree_eq hb hi'.calm] at heq
  rw [Option.some.inj heq, hmem]

/-- After any run, neither a request nor a release changes the size field or
a payload byte of a live block other than the one released. -/
theorem live_data_kept (poolPages pool : ℕ) (m : Mem) (ops : List Op) (hpages : 0 < poolPages)
    (hpool : 4096 ≤ pool) (hfits : pool+4096*poolPages < 2^64)
    (hops : Along (lift step) (Issued Permitted) (some (start poolPages pool m)) ops) :
    ∃ w, run (lift step) (some (start poolPages pool m)) ops = some w ∧
      (∀ n, ∃ p h', kmalloc n w.heap = some (p, h') ∧ ∀ q ∈ w.live, Kept w h' q) ∧
      (∀ p, p = 0 ∨ p ∈ w.live →
        ∃ h', kfree p w.heap = some h' ∧ ∀ q ∈ w.live, q ≠ p → Kept w h' q) := by
  obtain ⟨w, heq, bs, hinv⟩ := reached poolPages pool m ops hpages hpool hfits hops
  exact ⟨w, heq, hinv.kmalloc_keeps, fun p hp => hinv.kfree_keeps hp⟩

theorem live_data_kept_small :
    ∃ w, run (lift step) (some (start 1 8192 (fun _ => 0)))
        [.kmalloc 24, .kmalloc 8, .kmalloc 16, .kfree 8248] = some w ∧
      (∀ n, ∃ p h', kmalloc n w.heap = some (p, h') ∧ ∀ q ∈ w.live, Kept w h' q) ∧
      (∀ p, p = 0 ∨ p ∈ w.live →
        ∃ h', kfree p w.heap = some h' ∧ ∀ q ∈ w.live, q ≠ p → Kept w h' q) :=
  live_data_kept 1 8192 (fun _ => 0) _ (by decide) (by decide) (by decide) (by decide +kernel)

end Emk.HeapRuns
