import Emk.FirstFitHeap
import Emk.LinkedPath

/-!
# The heap as a sequence of blocks

The pool is cut into blocks without gaps, each used or free. `Rep` ties the
sequence to memory: headers hold the sizes and the free list visits the free
blocks in address order. The writes of the allocator cut one block in two,
mark it used or free, or join two free neighbours.
-/

set_option autoImplicit false

namespace Emk.HeapBlocks
open Emk.ByteMemory Emk.MachineWord Emk.DirectMap Emk.FirstFitHeap Emk.LinkedPath

structure Blk where
  addr : ℕ
  size : ℕ
  free : Bool
  deriving DecidableEq, Repr

def Blk.fin (b : Blk) : ℕ := b.addr+16+b.size

def Tiles : ℕ → List Blk → ℕ → Prop
  | a, [], e => a = e
  | a, b::bs, e => b.addr = a ∧ Tiles b.fin bs e

def frees (bs : List Blk) : List ℕ := (bs.filter (fun b => b.free)).map Blk.addr

def lives (bs : List Blk) : List ℕ := (bs.filter (fun b => !b.free)).map Blk.addr

def used (bs : List Blk) : List Blk := bs.filter (fun b => !b.free)

structure Rep (h : Heap) (lo hi : ℕ) (bs : List Blk) : Prop where
  low : 4096 ≤ lo
  high : hi < 2^64
  tiles : Tiles lo bs hi
  size_eq : ∀ b ∈ bs, blockSize h b.addr = b.size
  size_mul : ∀ b ∈ bs, b.size % 8 = 0
  links : Path (slot h) 0 (frees bs) 0

theorem tiles_parts {a e : ℕ} {xs ys : List Blk} :
    Tiles a (xs ++ ys) e ↔ ∃ m, Tiles a xs m ∧ Tiles m ys e := by
  induction xs generalizing a with
  | nil => simp [Tiles]
  | cons x xs ih => simp [Tiles, ih, and_assoc]

theorem tiles_append (a e : ℕ) (b : Blk) (xs ys : List Blk) :
    Tiles a (xs ++ b::ys) e ↔ Tiles a xs b.addr ∧ Tiles b.fin ys e := by
  simp [tiles_parts, Tiles]

theorem tiles_le {a e : ℕ} {bs : List Blk} (h : Tiles a bs e) : a ≤ e := by
  induction bs generalizing a with
  | nil => exact le_of_eq h
  | cons b bs ih =>
    have := ih h.2
    rw [Blk.fin, h.1] at this
    omega

theorem tiles_mem {a e : ℕ} {bs : List Blk} (h : Tiles a bs e) {b : Blk} (hb : b ∈ bs) :
    a ≤ b.addr ∧ b.fin ≤ e := by
  obtain ⟨xs, ys, rfl⟩ := List.append_of_mem hb
  obtain ⟨h1, h2⟩ := (tiles_append a e b xs ys).mp h
  exact ⟨tiles_le h1, tiles_le h2⟩

theorem tiles_length {a e : ℕ} {bs : List Blk} (h : Tiles a bs e) : a+16*bs.length ≤ e := by
  induction bs generalizing a with
  | nil => exact le_of_eq h
  | cons b bs ih =>
    have := ih h.2
    rw [Blk.fin, h.1] at this
    rw [List.length_cons]
    omega

theorem frees_append (xs ys : List Blk) : frees (xs ++ ys) = frees xs ++ frees ys := by
  simp [frees]

theorem frees_cons (b : Blk) (bs : List Blk) :
    frees (b::bs) = if b.free then b.addr::frees bs else frees bs := by
  cases hb : b.free <;> simp [frees, hb]

theorem mem_frees {bs : List Blk} {a : ℕ} (h : a ∈ frees bs) : ∃ b ∈ bs, b.free ∧ b.addr = a := by
  obtain ⟨b, hb, ha⟩ := List.mem_map.mp h
  obtain ⟨hm, hf⟩ := List.mem_filter.mp hb
  exact ⟨b, hm, hf, ha⟩

theorem frees_length (bs : List Blk) : (frees bs).length ≤ bs.length := by
  simpa [frees] using List.length_filter_le _ bs

theorem tiles_sorted {a e : ℕ} {bs : List Blk} (h : Tiles a bs e) :
    (bs.map Blk.addr).Pairwise (· < ·) := by
  induction bs generalizing a with
  | nil => simp
  | cons b bs ih =>
    rw [List.map_cons]
    refine List.pairwise_cons.mpr ⟨fun c hc => ?_, ih h.2⟩
    obtain ⟨x, hx, rfl⟩ := List.mem_map.mp hc
    have := (tiles_mem h.2 hx).1
    rw [Blk.fin] at this
    omega

theorem frees_sorted {a e : ℕ} {bs : List Blk} (h : Tiles a bs e) : (frees bs).Pairwise (· < ·) :=
  (tiles_sorted h).sublist (List.filter_sublist.map Blk.addr)

theorem lives_nodup {a e : ℕ} {bs : List Blk} (h : Tiles a bs e) : (lives bs).Nodup :=
  ((tiles_sorted h).sublist (List.filter_sublist.map Blk.addr)).imp Nat.ne_of_lt

/-- Two headers that do not overlap. -/
def Apart (a b : ℕ) : Prop := a+16 ≤ b ∨ b+16 ≤ a

variable {h : Heap}

theorem blockNext_slot {b : ℕ} (hb : b ≠ 0) : blockNext h b = slot h b := by
  rw [slot, if_neg hb]

theorem setNext_setSlot {b : ℕ} (v : ℕ) (hb : b ≠ 0) : setNext h b v = setSlot h b v := by
  rw [setSlot, if_neg hb]

theorem blockSize_setSize (b v : ℕ) (hv : v < 2^64) : blockSize (setSize h b v) b = v :=
  load_store64 _ _ _ hv

theorem blockSize_setSize_apart {x b : ℕ} (v : ℕ) (hx : Apart x b) :
    blockSize (setSize h b v) x = blockSize h x := by
  apply load_store_apart
  unfold Apart at hx
  omega

theorem slot_setSize {x b : ℕ} (v : ℕ) (hx : x = 0 ∨ x = b ∨ Apart x b) :
    slot (setSize h b v) x = slot h x := by
  rw [slot, slot]
  split_ifs with h0
  · rfl
  · apply load_store_apart
    unfold Apart at hx
    omega

theorem blockSize_setSlot {x b : ℕ} (v : ℕ) (hx : b = 0 ∨ x = b ∨ Apart x b) :
    blockSize (setSlot h b v) x = blockSize h x := by
  rw [setSlot]
  split_ifs with h0
  · rfl
  · apply load_store_apart
    unfold Apart at hx
    omega

theorem slot_setSlot (b v : ℕ) (hv : v < 2^64) : slot (setSlot h b v) b = v := by
  rw [slot, setSlot]
  split_ifs
  · rfl
  · exact load_store64 _ _ _ hv

theorem slot_setSlot_ne {x b : ℕ} (v : ℕ) (hne : x ≠ b) (hx : x = 0 ∨ b = 0 ∨ Apart x b) :
    slot (setSlot h b v) x = slot h x := by
  rw [slot, slot, setSlot]
  split_ifs with h1 h2 h3
  · omega
  · rfl
  · rfl
  · apply load_store_apart
    unfold Apart at hx
    omega

/-- The headers around one block of the sequence. -/
structure Around (lo hi : ℕ) (pre post : List Blk) (b : Blk) : Prop where
  low : 4096 ≤ b.addr
  high : b.fin ≤ 2^64
  before : ∀ x ∈ pre, 4096 ≤ x.addr ∧ x.addr+16 ≤ b.addr ∧ x.fin ≤ b.addr
  after : ∀ x ∈ post, b.fin ≤ x.addr ∧ x.fin ≤ 2^64
  pre_tiles : Tiles lo pre b.addr
  post_tiles : Tiles b.fin post hi

theorem Rep.around {lo hi : ℕ} {pre post : List Blk} {b : Blk}
    (hr : Rep h lo hi (pre ++ b::post)) : Around lo hi pre post b := by
  obtain ⟨h1, h2⟩ := (tiles_append lo hi b pre post).mp hr.tiles
  have hlow := hr.low
  have hhigh := hr.high
  have hle := tiles_le h1
  have hfin := tiles_le h2
  refine ⟨by omega, by omega, fun x hx => ?_, fun x hx => ?_, h1, h2⟩
  · obtain ⟨ha, hb⟩ := tiles_mem h1 hx
    have hf : x.fin = x.addr+16+x.size := rfl
    omega
  · obtain ⟨ha, hb⟩ := tiles_mem h2 hx
    omega

theorem Rep.nodup {lo hi : ℕ} {bs : List Blk} (hr : Rep h lo hi bs) : (0::frees bs).Nodup := by
  refine List.nodup_cons.mpr ⟨fun h0 => ?_, (frees_sorted hr.tiles).imp (fun hlt => ne_of_lt hlt)⟩
  obtain ⟨b, hb, -, ha⟩ := mem_frees h0
  have := (tiles_mem hr.tiles hb).1
  have := hr.low
  omega

theorem Rep.nodup_front {lo hi : ℕ} {pre post : List Blk}
    (hr : Rep h lo hi (pre ++ post)) : (0::frees pre).Nodup := by
  have hn := hr.nodup
  rw [frees_append, ← List.cons_append] at hn
  exact (List.nodup_append.mp hn).1

/-- The slot before a block is the list head or a free block before it. -/
theorem Around.slot_before {lo hi : ℕ} {pre post : List Blk} {b : Blk}
    (ha : Around lo hi pre post b) {x : ℕ} (hx : x ∈ 0::frees pre) :
    x = 0 ∨ (4096 ≤ x ∧ x+16 ≤ b.addr ∧ ∃ c ∈ pre, c.free ∧ c.addr = x) := by
  rcases List.mem_cons.mp hx with rfl | hx
  · exact .inl rfl
  · obtain ⟨c, hc, hf, rfl⟩ := mem_frees hx
    obtain ⟨h1, h2, -⟩ := ha.before c hc
    exact .inr ⟨h1, h2, c, hc, hf, rfl⟩

theorem Around.free_after {lo hi : ℕ} {pre post : List Blk} {b : Blk}
    (ha : Around lo hi pre post b) {x : ℕ} (hx : x ∈ frees post) : b.fin ≤ x ∧ x < 2^64 := by
  obtain ⟨c, hc, -, rfl⟩ := mem_frees hx
  obtain ⟨h1, h2⟩ := ha.after c hc
  exact ⟨h1, by rw [Blk.fin] at h2; omega⟩

end Emk.HeapBlocks
