import Emk.HeapRuns

/-!
# The heap looks at its pool only

Two heaps that agree on the pool and on the head of the free list answer every
call alike and still agree afterwards, whatever lies outside the pool.
-/

set_option autoImplicit false

namespace Emk.HeapRuns
open Emk.ByteMemory Emk.MachineWord Emk.DirectMap Emk.FirstFitHeap Emk.LinkedPath Emk.HeapBlocks

structure Alike (lo hi : ℕ) (g h : Heap) : Prop where
  mem : Set.EqOn g.mem h.mem {x | lo ≤ x ∧ x < hi}
  freelist : g.freelist = h.freelist

/-- A header inside the pool. -/
def Header (lo hi b : ℕ) : Prop := lo ≤ b ∧ b+16 ≤ hi

/-- The same answer and heaps that agree. -/
def AlikeReturn (lo hi : ℕ) : Option (ℕ × Heap) → Option (ℕ × Heap) → Prop :=
  Option.Rel fun p q => p.1 = q.1 ∧ Alike lo hi p.2 q.2

variable {lo hi : ℕ} {g h : Heap} {b v : ℕ}

theorem Alike.refl (h : Heap) : Alike lo hi h h := ⟨fun _ _ => rfl, rfl⟩

section Setters
variable (ha : Alike lo hi g h)
include ha

theorem Alike.store (a n v : ℕ) : Alike lo hi { g with mem := store g.mem a n v }
    { h with mem := store h.mem a n v } := by
  refine ⟨fun x hx => ?_, ha.freelist⟩
  simp only [ByteMemory.store]
  split_ifs
  · rfl
  · exact ha.mem hx

theorem Alike.fill (a : ℕ) (c : UInt8) (n : ℕ) : Alike lo hi { g with mem := fill g.mem a c n }
    { h with mem := fill h.mem a c n } := by
  refine ⟨fun x hx => ?_, ha.freelist⟩
  simp only [ByteMemory.fill]
  split_ifs
  · rfl
  · exact ha.mem hx

theorem Alike.setSize (b v : ℕ) : Alike lo hi (setSize g b v) (setSize h b v) := ha.store b 8 v

theorem Alike.setNext (b v : ℕ) : Alike lo hi (setNext g b v) (setNext h b v) :=
  ha.store (b+8) 8 v

theorem Alike.setSlot (b v : ℕ) : Alike lo hi (setSlot g b v) (setSlot h b v) := by
  rw [FirstFitHeap.setSlot, FirstFitHeap.setSlot]
  split_ifs
  · exact ⟨ha.mem, rfl⟩
  · exact ha.setNext b v

theorem Alike.blockSize (hb : Header lo hi b) : blockSize g b = blockSize h b := by
  apply load_congr
  intro x hx
  obtain ⟨h1, h2⟩ := hb
  apply ha.mem
  rw [mem_range] at hx
  exact ⟨by omega, by omega⟩

theorem Alike.blockNext (hb : Header lo hi b) : blockNext g b = blockNext h b := by
  apply load_congr
  intro x hx
  obtain ⟨h1, h2⟩ := hb
  apply ha.mem
  rw [mem_range] at hx
  exact ⟨by omega, by omega⟩

theorem Alike.slot (hb : b = 0 ∨ Header lo hi b) : slot g b = slot h b := by
  rw [FirstFitHeap.slot, FirstFitHeap.slot]
  split_ifs with h0
  · exact ha.freelist
  · exact ha.blockNext (hb.resolve_left h0)

theorem Alike.takeBlock (n prev : ℕ) (hb : Header lo hi b) :
    (takeBlock n g prev b).1 = (takeBlock n h prev b).1 ∧
      Alike lo hi (takeBlock n g prev b).2 (takeBlock n h prev b).2 := by
  rw [FirstFitHeap.takeBlock, FirstFitHeap.takeBlock, ha.blockSize hb]
  have hrest := ha.setSize (wrap (b+wrap (16+n)))
    (wrap (FirstFitHeap.blockSize h b+2^64-wrap (16+n)))
  dsimp only
  split_ifs
  · rw [hrest.blockNext hb]
    exact ⟨rfl, ((hrest.setNext _ _).setSize _ _).setSlot _ _⟩
  · rw [ha.blockNext hb]
    exact ⟨rfl, ha.setSlot _ _⟩

theorem Alike.absorb (hb : Header lo hi b) {next : ℕ} (hn : Header lo hi next) :
    Alike lo hi (absorb g b next) (absorb h b next) := by
  rw [FirstFitHeap.absorb, FirstFitHeap.absorb, ha.blockSize hb, ha.blockSize hn]
  have hsize := ha.setSize b
    (wrap (FirstFitHeap.blockSize h b+(16+FirstFitHeap.blockSize h next)))
  rw [hsize.blockNext hn]
  exact hsize.setNext _ _

theorem Alike.coalesceNext (hb : Header lo hi b)
    (hn : FirstFitHeap.blockNext h b = 0 ∨ Header lo hi (FirstFitHeap.blockNext h b)) :
    Alike lo hi (coalesceNext g b) (coalesceNext h b) := by
  rw [FirstFitHeap.coalesceNext, FirstFitHeap.coalesceNext, ha.blockNext hb, ha.blockSize hb]
  split_ifs with hjoin
  · exact ha.absorb hb (hn.resolve_left hjoin.1)
  · exact ha

theorem Alike.coalescePrev {prev : ℕ} (hp : Header lo hi prev) (hb : Header lo hi b) :
    Alike lo hi (coalescePrev g prev b) (coalescePrev h prev b) := by
  rw [FirstFitHeap.coalescePrev, FirstFitHeap.coalescePrev, ha.blockSize hp]
  split_ifs
  · exact ha.absorb hp hb
  · exact ha

end Setters

section Calls
variable {bs pre post : List Blk}

theorem tiles_header (ht : Tiles lo bs hi) {c : Blk} (hc : c ∈ bs) : Header lo hi c.addr := by
  obtain ⟨h1, h2⟩ := tiles_mem ht hc
  rw [Blk.fin] at h2
  exact ⟨h1, by omega⟩

theorem free_header (ht : Tiles lo bs hi) {x : ℕ} (hx : x ∈ frees bs) : Header lo hi x := by
  obtain ⟨c, hc, -, rfl⟩ := mem_frees hx
  exact tiles_header ht hc

/-- What the blocks are can be read off the pool. -/
theorem Alike.rep (ha : Alike lo hi g h) (hr : Rep h lo hi bs) : Rep g lo hi bs := by
  refine ⟨hr.low, hr.high, hr.tiles, ?_, hr.size_mul, ?_⟩
  · intro c hc
    rw [ha.blockSize (tiles_header hr.tiles hc)]
    exact hr.size_eq c hc
  · apply path_congr _ hr.links
    intro x hx
    apply ha.slot
    rcases List.mem_cons.mp hx with hzero | hfree
    · exact .inl hzero
    · exact .inr (free_header hr.tiles hfree)

theorem Alike.kmallocLoop (ha : Alike lo hi g h) (n : ℕ) {prev : ℕ} {fs : List ℕ}
    (hp : Path (FirstFitHeap.slot h) prev fs 0) (hfs : ∀ x ∈ fs, x ≠ 0 ∧ Header lo hi x)
    (fuel : ℕ) : AlikeReturn lo hi (kmallocLoop n g fuel prev (FirstFitHeap.slot h prev))
      (kmallocLoop n h fuel prev (FirstFitHeap.slot h prev)) := by
  induction fs generalizing prev fuel with
  | nil =>
    rw [show FirstFitHeap.slot h prev = 0 from hp]
    cases fuel with
    | zero => exact .none
    | succ fuel =>
      rw [FirstFitHeap.kmallocLoop, FirstFitHeap.kmallocLoop, if_pos rfl, if_pos rfl]
      exact .some ⟨rfl, ha⟩
  | cons x xs ih =>
    obtain ⟨hx0, hx⟩ := hfs x List.mem_cons_self
    rw [hp.1]
    cases fuel with
    | zero => exact .none
    | succ fuel =>
      rw [FirstFitHeap.kmallocLoop, FirstFitHeap.kmallocLoop, if_neg hx0, if_neg hx0,
        ha.blockSize hx]
      split_ifs
      · exact .some (ha.takeBlock n prev hx)
      · rw [ha.blockNext hx, blockNext_slot hx0]
        exact ih hp.2 (fun y hy => hfs y (List.mem_cons_of_mem x hy)) fuel

theorem Alike.kmalloc (ha : Alike lo hi g h) (hr : Rep h lo hi bs) (n : ℕ) :
    AlikeReturn lo hi (kmalloc n g) (kmalloc n h) := by
  rw [FirstFitHeap.kmalloc, FirstFitHeap.kmalloc]
  split_ifs
  · exact .some ⟨rfl, ha⟩
  · rw [ha.freelist]
    have hnodup := List.nodup_cons.mp hr.nodup
    have hfs : ∀ x ∈ frees bs, x ≠ 0 ∧ Header lo hi x := by
      intro x hx
      refine ⟨?_, free_header hr.tiles hx⟩
      rintro rfl
      exact hnodup.1 hx
    exact ha.kmallocLoop _ hr.links hfs rounds

theorem tip_header {c : Blk} (hr : Rep h lo hi (pre ++ c::post)) :
    tip 0 (frees pre) = 0 ∨ Header lo hi (tip 0 (frees pre)) := by
  rcases List.mem_cons.mp (tip_mem 0 (frees pre)) with hzero | hfree
  · exact .inl hzero
  · refine .inr (free_header hr.tiles ?_)
    rw [frees_append]
    exact List.mem_append_left _ hfree

/-- The link of a free block leads to a free block or nowhere. -/
theorem next_header {c : Blk} (hr : Rep h lo hi (pre ++ c::post)) (hc : c.free = true) :
    FirstFitHeap.blockNext h c.addr = 0 ∨ Header lo hi (FirstFitHeap.blockNext h c.addr) := by
  have hlow := hr.around.low
  have hlinks := hr.links
  rw [frees_append, frees_cons, if_pos hc] at hlinks
  have hrest := (path_append.mp hlinks).2
  rw [blockNext_slot (by omega)]
  cases hpost : frees post with
  | nil =>
    rw [hpost] at hrest
    exact .inl hrest
  | cons x xs =>
    rw [hpost] at hrest
    rw [hrest.1]
    refine .inr (free_header hr.tiles ?_)
    rw [frees_append, frees_cons, if_pos hc, hpost]
    simp

theorem Alike.relink (ha : Alike lo hi g h) {c : Blk} (hr : Rep h lo hi (pre ++ c::post))
    (hc : c.free = false) : Alike lo hi (relink g (tip 0 (frees pre)) c.addr)
      (relink h (tip 0 (frees pre)) c.addr) := by
  rw [HeapBlocks.relink, HeapBlocks.relink, ha.slot (tip_header hr)]
  refine ((ha.setNext _ _).setSlot _ _).coalesceNext (tiles_header hr.tiles (by simp)) ?_
  have hlinked := hr.link hc
  exact next_header (c := ⟨c.addr, c.size, true⟩) hlinked rfl

theorem Alike.kfree (ha : Alike lo hi g h) {c : Blk} (hr : Rep h lo hi (pre ++ c::post))
    (hc : c.free = false) (hcalm : Calm (pre ++ c::post)) :
    ∃ g' h', kfree (c.addr+16) g = some g' ∧ kfree (c.addr+16) h = some h' ∧
      Alike lo hi g' h' := by
  refine ⟨_, _, (ha.rep hr).kfree_eq hc hcalm, hr.kfree_eq hc hcalm, ?_⟩
  have hjoined := ha.relink hr hc
  split_ifs with hcur
  · exact hjoined.coalescePrev ((tip_header hr).resolve_left hcur)
      (tiles_header hr.tiles (by simp))
  · exact hjoined

/-- Every permitted call is answered alike. -/
theorem step_alike {w : World} {g : Heap} (hi' : Inv lo hi w bs) (ha : Alike lo hi g w.heap)
    {o : Op} (ho : Permitted w o) {w' : World} (hw : step w o = some w') :
    ∃ g', step ⟨g, w.live⟩ o = some ⟨g', w'.live⟩ ∧ Alike lo hi g' w'.heap := by
  cases o with
  | kmalloc size =>
    obtain ⟨r, hr, rfl⟩ := Option.map_eq_some_iff.mp hw
    have hret := ha.kmalloc hi'.rep size
    rw [hr] at hret
    cases hg : FirstFitHeap.kmalloc size g with
    | none =>
      rw [hg] at hret
      cases hret
    | some q =>
      rw [hg] at hret
      cases hret with
      | some hboth =>
        refine ⟨q.2, ?_, hboth.2⟩
        rw [step, hg, Option.map_some, hboth.1]
  | kfree ptr =>
    by_cases hm : ptr ∈ w.live
    · obtain ⟨pre, c, post, rfl, hc, rfl⟩ := hi'.live_block hm
      obtain ⟨g', h', hg, hh, hboth⟩ := ha.kfree hi'.rep hc hi'.calm
      rw [step, hh, Option.map_some] at hw
      obtain rfl := Option.some.inj hw
      exact ⟨g', by rw [step, hg, Option.map_some], hboth⟩
    · have h0 : ptr = 0 := ho.resolve_right hm
      rw [step, h0, FirstFitHeap.kfree, if_pos rfl, Option.map_some] at hw
      obtain rfl := Option.some.inj hw
      refine ⟨g, ?_, ha⟩
      rw [step, h0, FirstFitHeap.kfree, if_pos rfl, Option.map_some]
  | write ptr offset c =>
    obtain rfl := Option.some.inj hw
    exact ⟨_, rfl, ha.fill _ _ _⟩

theorem permitted_alike {w : World} {g : Heap} (hi' : Inv lo hi w bs) (ha : Alike lo hi g w.heap)
    (o : Op) : Permitted ⟨g, w.live⟩ o ↔ Permitted w o := by
  cases o with
  | kmalloc size => exact Iff.rfl
  | kfree ptr => exact Iff.rfl
  | write ptr offset c =>
    refine and_congr_right fun hp => ?_
    obtain ⟨pre, b, post, rfl, -, rfl⟩ := hi'.live_block hp
    rw [Nat.add_sub_cancel, ha.blockSize (tiles_header hi'.rep.tiles (by simp))]

end Calls

end Emk.HeapRuns
