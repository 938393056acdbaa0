import Emk.HeapBlocks

/-!
# Single changes of the block sequence

Using a whole free block, splitting it, linking a released block into the
free list and absorbing a free neighbour each keep the sequence in step with
memory.
-/

set_option autoImplicit false

namespace Emk.HeapBlocks
open Emk.ByteMemory Emk.MachineWord Emk.DirectMap Emk.FirstFitHeap Emk.LinkedPath

variable {h : Heap} {lo hi : ℕ} {pre post : List Blk} {b : Blk}

theorem Rep.apart {bs : List Blk} (hr : Rep h lo hi bs) {x y : Blk} (hx : x ∈ bs) (hy : y ∈ bs) :
    x.addr = y.addr ∨ Apart x.addr y.addr := by
  obtain ⟨xs, ys, rfl⟩ := List.append_of_mem hx
  have ha := hr.around
  rcases List.mem_append.mp hy with hy | hy
  · exact .inr (.inr (ha.before y hy).2.1)
  · rcases List.mem_cons.mp hy with rfl | hy
    · exact .inl rfl
    · have := (ha.after y hy).1
      rw [Blk.fin] at this
      exact .inr (.inl (by omega))

/-- Slots are the list head or headers, and headers do not overlap. -/
theorem Rep.slots_apart {bs : List Blk} (hr : Rep h lo hi bs) {x y : ℕ}
    (hx : x ∈ 0::frees bs) (hy : y ∈ 0::frees bs) : x = 0 ∨ y = 0 ∨ x = y ∨ Apart x y := by
  rcases List.mem_cons.mp hx with rfl | hx
  · exact .inl rfl
  rcases List.mem_cons.mp hy with rfl | hy
  · exact .inr (.inl rfl)
  obtain ⟨c, hc, -, rfl⟩ := mem_frees hx
  obtain ⟨d, hd, -, rfl⟩ := mem_frees hy
  exact .inr (.inr (hr.apart hc hd))

theorem slot_lt (x : ℕ) (hx : x ≠ 0) : slot h x < 2^64 := by
  rw [slot, if_neg hx]
  exact load64_lt _ _

theorem mem_front {x : ℕ} (hx : x ∈ 0::frees pre) : x ∈ 0::frees (pre ++ post) := by
  rw [frees_append]
  simp only [List.mem_cons, List.mem_append] at *
  tauto

theorem Rep.size_slot_keep {bs : List Blk} (hr : Rep h lo hi bs) {p : ℕ}
    (hp : p ∈ 0::frees bs) (v : ℕ) {x : Blk} (hx : x ∈ bs) :
    blockSize (setSlot h p v) x.addr = x.size := by
  rw [blockSize_setSlot, hr.size_eq x hx]
  rcases List.mem_cons.mp hp with rfl | hp
  · exact .inl rfl
  · obtain ⟨c, hc, -, rfl⟩ := mem_frees hp
    exact .inr (hr.apart hx hc)

/-- The slot before a block is the list head or a header of the sequence. -/
theorem Rep.addr_tip (hr : Rep h lo hi (pre ++ b::post)) {x : Blk} (hx : x ∈ pre ++ b::post) :
    tip 0 (frees pre) = 0 ∨ x.addr = tip 0 (frees pre) ∨ Apart x.addr (tip 0 (frees pre)) := by
  rcases hr.around.slot_before (tip_mem 0 (frees pre)) with ht | ⟨-, -, c, hc, -, hca⟩
  · exact .inl ht
  · rw [← hca]
    exact .inr (hr.apart hx (by simp [hc]))

/-- Some blocks in a row give way to others that fill the same space. -/
theorem Rep.replace {h' : Heap} (old new : List Blk) (hr : Rep h lo hi (pre ++ (old ++ post)))
    (htiles : ∀ a e, Tiles a old e → Tiles a new e)
    (hout : ∀ x ∈ pre ++ post, blockSize h' x.addr = x.size)
    (hnew : ∀ x ∈ new, blockSize h' x.addr = x.size ∧ x.size % 8 = 0)
    (hlinks : Path (slot h') 0 (frees (pre ++ (new ++ post))) 0) :
    Rep h' lo hi (pre ++ (new ++ post)) := by
  have hmem : ∀ x ∈ pre ++ (new ++ post), x ∈ pre ++ post ∨ x ∈ new := by
    intro x hx
    rw [List.mem_append, List.mem_append] at hx
    rw [List.mem_append]
    tauto
  refine ⟨hr.low, hr.high, ?_, fun x hx => ?_, fun x hx => ?_, hlinks⟩
  · obtain ⟨m, hpre, hrest⟩ := tiles_parts.mp hr.tiles
    obtain ⟨n, hold, hpost⟩ := tiles_parts.mp hrest
    exact tiles_parts.mpr ⟨m, hpre, tiles_parts.mpr ⟨n, htiles m n hold, hpost⟩⟩
  · exact (hmem x hx).elim (hout x) (fun hin => (hnew x hin).1)
  · refine (hmem x hx).elim (fun hin => hr.size_mul x ?_) (fun hin => (hnew x hin).2)
    exact ((List.sublist_append_right old post).append_left pre).subset hin

/-- Only the mark of one block changes. -/
theorem Rep.mark {h' : Heap} (hr : Rep h lo hi (pre ++ b::post)) (f : Bool)
    (hsize : ∀ x ∈ pre ++ b::post, blockSize h' x.addr = x.size)
    (hlinks : Path (slot h') 0 (frees (pre ++ ⟨b.addr, b.size, f⟩::post)) 0) :
    Rep h' lo hi (pre ++ ⟨b.addr, b.size, f⟩::post) := by
  refine hr.replace [b] [⟨b.addr, b.size, f⟩] (fun _ _ ht => ht) (fun x hx => ?_) ?_ hlinks
  · exact hsize x (((List.sublist_cons_self b post).append_left pre).subset hx)
  · intro x hx
    rw [List.mem_singleton.mp hx]
    exact ⟨hsize b (by simp), hr.size_mul b (by simp)⟩

/-- A free block is used as a whole. -/
theorem Rep.take_whole (hr : Rep h lo hi (pre ++ b::post)) (hf : b.free = true) :
    Rep (setSlot h (tip 0 (frees pre)) (blockNext h b.addr)) lo hi
      (pre ++ ⟨b.addr, b.size, false⟩::post) := by
  have ha := hr.around
  have hb0 : b.addr ≠ 0 := by have := ha.low; omega
  have htip : tip 0 (frees pre) ∈ 0::frees (pre ++ b::post) := mem_front (tip_mem 0 (frees pre))
  have hlinks := hr.links
  rw [frees_append, frees_cons, if_pos hf] at hlinks
  refine hr.mark false (fun x hx => hr.size_slot_keep htip _ hx) ?_
  rw [frees_append, frees_cons, if_neg (by simp)]
  apply path_remove hr.nodup_front _ _ hlinks
  · have hlt : blockNext h b.addr < 2^64 := load64_lt _ _
    rw [slot_setSlot _ _ hlt, blockNext_slot hb0]
  · intro x hx hne
    have := hr.slots_apart (mem_front hx) htip
    exact slot_setSlot_ne _ hne (by tauto)
  · intro x hx
    have hxin : x ∈ 0::frees (pre ++ b::post) := by
      rw [frees_append, frees_cons, if_pos hf]
      simp [hx]
    have hne : x ≠ tip 0 (frees pre) := by
      have h1 := ha.free_after hx
      have h2 := ha.slot_before (tip_mem 0 (frees pre))
      rw [Blk.fin] at h1
      omega
    have := hr.slots_apart hxin htip
    exact slot_setSlot_ne _ hne (by tauto)

theorem Around.slot_low (ha : Around lo hi pre post b) {x : ℕ} (hx : x ∈ 0::frees pre) :
    x = 0 ∨ (4096 ≤ x ∧ x+16 ≤ b.addr) := by
  rcases ha.slot_before hx with h0 | ⟨h1, h2, -⟩
  · exact .inl h0
  · exact .inr ⟨h1, h2⟩

/-- The first `n` bytes of a free block are used, the rest becomes a new block. -/
theorem Rep.take_split (hr : Rep h lo hi (pre ++ b::post)) (hf : b.free = true) (n : ℕ)
    (hn : n % 8 = 0) (hfit : n+32 ≤ b.size) :
    Rep (setSlot (setSize (setNext (setSize h (b.addr+16+n) (b.size-16-n)) (b.addr+16+n)
        (blockNext (setSize h (b.addr+16+n) (b.size-16-n)) b.addr)) b.addr n)
        (tip 0 (frees pre)) (b.addr+16+n)) lo hi
      (pre ++ ⟨b.addr, n, false⟩::⟨b.addr+16+n, b.size-16-n, true⟩::post) := by
  have ha := hr.around
  have hlow := ha.low
  have hhigh : b.addr+16+b.size ≤ 2^64 := ha.high
  have htip := ha.slot_low (tip_mem 0 (frees pre))
  have hbefore : ∀ x ∈ pre, 4096 ≤ x.addr ∧ x.addr+16 ≤ b.addr :=
    fun x hx => ⟨(ha.before x hx).1, (ha.before x hx).2.1⟩
  have hafter : ∀ x ∈ post, b.addr+16+b.size ≤ x.addr := fun x hx => (ha.after x hx).1
  have hmul := hr.size_mul b (by simp)
  have hlinks := hr.links
  rw [frees_append, frees_cons, if_pos hf] at hlinks
  have hmem : tip 0 (frees pre) ∈ 0::frees (pre ++ b::post) :=
    mem_front (tip_mem 0 (frees pre))
  have hslots := fun x hx => hr.slots_apart (x := x) hx hmem
  have hself : slot h b.addr < 2^64 := slot_lt _ (by omega)
  rw [setNext_setSlot _ (by omega), blockNext_slot (by omega),
    slot_setSize _ (.inr (.inr (.inl (by omega))))]
  unfold Apart at *
  refine hr.replace [b] [⟨b.addr, n, false⟩, ⟨b.addr+16+n, b.size-16-n, true⟩] ?_ ?_ ?_ ?_
  · rintro a e ⟨rfl, rfl⟩
    refine ⟨rfl, rfl, ?_⟩
    rw [Tiles, Blk.fin, Blk.fin]
    dsimp only
    omega
  · intro x hx
    have hin := ((List.sublist_cons_self b post).append_left pre).subset hx
    have hfar : x.addr+16 ≤ b.addr ∨ b.addr+16+b.size ≤ x.addr := by
      rcases List.mem_append.mp hx with hx | hx
      · exact .inl (hbefore x hx).2
      · exact .inr (hafter x hx)
    rw [blockSize_setSlot _ (hr.addr_tip hin), blockSize_setSize_apart _ (by unfold Apart; omega),
      blockSize_setSlot _ (by unfold Apart; omega), blockSize_setSize_apart _ (by unfold Apart; omega),
      hr.size_eq x hin]
  · intro x hx
    rcases List.mem_cons.mp hx with rfl | hx
    · rw [blockSize_setSlot _ (by unfold Apart; dsimp only; omega),
        blockSize_setSize _ _ (by omega)]
      exact ⟨rfl, hn⟩
    · rw [List.mem_singleton.mp hx, blockSize_setSlot _ (by unfold Apart; dsimp only; omega),
        blockSize_setSize_apart _ (.inr (by dsimp only; omega)),
        blockSize_setSlot _ (.inr (.inl rfl)), blockSize_setSize _ _ (by omega)]
      exact ⟨rfl, by dsimp only; omega⟩
  · rw [List.cons_append, List.cons_append, List.nil_append, frees_append, frees_cons,
      if_neg (by simp), frees_cons, if_pos rfl]
    apply path_replace hr.nodup_front _ _ hlinks
    · exact slot_setSlot _ _ (by omega)
    · dsimp only
      rw [slot_setSlot_ne _ (by omega) (by unfold Apart; omega),
        slot_setSize _ (by unfold Apart; omega), slot_setSlot _ _ hself]
    · intro x hx hne
      have hxt := hslots x (mem_front hx)
      have hxl := ha.slot_low hx
      rw [slot_setSlot_ne _ hne (by unfold Apart; omega), slot_setSize _ (by unfold Apart; omega),
        slot_setSlot_ne _ (by omega) (by unfold Apart; omega),
        slot_setSize _ (by unfold Apart; omega)]
    · intro x hx
      have hx' : b.addr+16+b.size ≤ x := (ha.free_after hx).1
      rw [slot_setSlot_ne _ (by omega) (by unfold Apart; omega),
        slot_setSize _ (by unfold Apart; omega),
        slot_setSlot_ne _ (by omega) (by unfold Apart; omega),
        slot_setSize _ (by unfold Apart; omega)]

/-- The link out of the free blocks of a prefix leads to the next free block. -/
theorem Rep.link_lt (hr : Rep h lo hi (pre ++ post)) : slot h (tip 0 (frees pre)) < 2^64 := by
  have hlinks := hr.links
  rw [frees_append] at hlinks
  cases hp : frees post with
  | nil =>
    rw [hp, List.append_nil] at hlinks
    rw [path_tip hlinks]
    exact Nat.two_pow_pos 64
  | cons y ys =>
    rw [hp] at hlinks
    rw [path_tip (path_append.mp hlinks).1]
    obtain ⟨c, hc, -, rfl⟩ := mem_frees (show y ∈ frees post by simp [hp])
    have hfin : c.addr+16+c.size ≤ hi := (tiles_mem hr.tiles (List.mem_append_right pre hc)).2
    have := hr.high
    omega

/-- A released block is linked in behind the free blocks before it. -/
theorem Rep.link (hr : Rep h lo hi (pre ++ b::post)) (hf : b.free = false) :
    Rep (setSlot (setNext h b.addr (slot h (tip 0 (frees pre)))) (tip 0 (frees pre)) b.addr) lo hi
      (pre ++ ⟨b.addr, b.size, true⟩::post) := by
  have ha := hr.around
  have hlow := ha.low
  have hhigh : b.addr+16+b.size ≤ 2^64 := ha.high
  have htip := ha.slot_low (tip_mem 0 (frees pre))
  have hnext := hr.link_lt
  have hmem : tip 0 (frees pre) ∈ 0::frees (pre ++ b::post) :=
    mem_front (tip_mem 0 (frees pre))
  have hlinks := hr.links
  rw [frees_append, frees_cons, if_neg (by simp [hf])] at hlinks
  rw [setNext_setSlot _ (by omega)]
  refine hr.mark true (fun x hx => ?_) ?_
  · rw [blockSize_setSlot _ (hr.addr_tip hx), blockSize_setSlot _ (.inr (hr.apart hx (by simp))),
      hr.size_eq x hx]
  · rw [frees_append, frees_cons, if_pos rfl]
    apply path_insert hr.nodup_front _ _ hlinks
    · exact slot_setSlot _ _ (by omega)
    · dsimp only
      rw [slot_setSlot_ne _ (by omega) (by unfold Apart; omega), slot_setSlot _ _ hnext]
    · intro x hx hne
      have hxl := ha.slot_low hx
      have := hr.slots_apart (mem_front hx) hmem
      rw [slot_setSlot_ne _ hne (by tauto), slot_setSlot_ne _ (by omega) (by unfold Apart; omega)]
    · intro x hx
      have hx' : b.addr+16+b.size ≤ x := (ha.free_after hx).1
      rw [slot_setSlot_ne _ (by omega) (by unfold Apart; omega),
        slot_setSlot_ne _ (by omega) (by unfold Apart; omega)]

/-- Two free neighbours become one free block. -/
theorem Rep.join {c : Blk} (hr : Rep h lo hi (pre ++ b::c::post)) (hb : b.free = true)
    (hc : c.free = true) :
    Rep (absorb h b.addr c.addr) lo hi (pre ++ ⟨b.addr, b.size+16+c.size, true⟩::post) := by
  have ha := hr.around
  have hlow := ha.low
  have hadj : c.addr = b.addr+16+b.size := ha.post_tiles.1
  have hcfin : c.addr+16+c.size ≤ 2^64 := (ha.after c (by simp)).2
  have hpost : ∀ x ∈ post, c.addr+16+c.size ≤ x.addr := by
    intro x hx
    exact (tiles_mem ha.post_tiles.2 hx).1
  have hbefore : ∀ x ∈ pre, 4096 ≤ x.addr ∧ x.addr+16 ≤ b.addr :=
    fun x hx => ⟨(ha.before x hx).1, (ha.before x hx).2.1⟩
  have hsb := hr.size_eq b (by simp)
  have hsc := hr.size_eq c (by simp)
  have hlinks := hr.links
  rw [frees_append, frees_cons, if_pos hb, frees_cons, if_pos hc] at hlinks
  have hnext : slot h c.addr < 2^64 := slot_lt _ (by omega)
  have heq : absorb h b.addr c.addr =
      setSlot (setSize h b.addr (b.size+16+c.size)) b.addr (slot h c.addr) := by
    rw [absorb, hsb, hsc, wrap_of_lt (by omega), ← Nat.add_assoc, setNext_setSlot _ (by omega),
      blockNext_slot (by omega), slot_setSize _ (by unfold Apart; omega)]
  rw [heq]
  refine hr.replace [b, c] [⟨b.addr, b.size+16+c.size, true⟩] ?_ ?_ ?_ ?_
  · rintro a e ⟨rfl, -, rfl⟩
    refine ⟨rfl, ?_⟩
    rw [Tiles, Blk.fin, Blk.fin]
    dsimp only
    omega
  · intro x hx
    have hin : x ∈ pre ++ b::c::post :=
      ((List.sublist_append_right [b, c] post).append_left pre).subset hx
    have hfar : Apart x.addr b.addr := by
      rcases List.mem_append.mp hx with hx | hx
      · exact .inl (hbefore x hx).2
      · have := hpost x hx
        exact .inr (by omega)
    rw [blockSize_setSlot _ (.inr (.inr hfar)), blockSize_setSize_apart _ hfar, hr.size_eq x hin]
  · intro x hx
    have hm := hr.size_mul b (by simp)
    have hm' := hr.size_mul c (by simp)
    rw [List.mem_singleton.mp hx, blockSize_setSlot _ (.inr (.inl rfl)),
      blockSize_setSize _ _ (by omega)]
    exact ⟨rfl, by dsimp only; omega⟩
  · have hnodup : (0::(frees pre ++ [b.addr])).Nodup := by
      have hr' : Rep h lo hi ((pre ++ [b]) ++ c::post) := by simpa using hr
      have hn := hr'.nodup_front
      rwa [frees_append, frees_cons, if_pos hb] at hn
    have htip : tip 0 (frees pre ++ [b.addr]) = b.addr := tip_append 0 b.addr (frees pre) []
    rw [List.append_cons] at hlinks
    rw [List.cons_append, List.nil_append, frees_append, frees_cons, if_pos rfl, List.append_cons]
    apply path_remove hnodup _ _ hlinks
    · rw [htip, slot_setSlot _ _ hnext]
    · intro x hx hne
      rw [htip] at hne
      have hxl : x = 0 ∨ (4096 ≤ x ∧ x+16 ≤ b.addr) := by
        rw [← List.cons_append] at hx
        rcases List.mem_append.mp hx with hx | hx
        · exact ha.slot_low hx
        · exact absurd (List.mem_singleton.mp hx) hne
      rw [slot_setSlot_ne _ hne (by unfold Apart; omega), slot_setSize _ (by unfold Apart; omega)]
    · intro x hx
      have hx' : c.addr+16+c.size ≤ x := by
        obtain ⟨d, hd, -, rfl⟩ := mem_frees hx
        exact hpost d hd
      rw [slot_setSlot_ne _ (by omega) (by unfold Apart; omega),
        slot_setSize _ (by unfold Apart; omega)]

end Emk.HeapBlocks
