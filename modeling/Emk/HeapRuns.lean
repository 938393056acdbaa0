import Emk.HeapOperations
import Emk.Transition

/-!
# Runs of the heap

The clients of the heap call `kmalloc`, hand live pointers to `kfree` and
write into the payload of live blocks. After every such run the free list
and the live blocks cut the pool into pieces without gap or overlap.
-/

set_option autoImplicit false

namespace Emk.HeapRuns
open Emk.ByteMemory Emk.MachineWord Emk.DirectMap Emk.FirstFitHeap Emk.LinkedPath Emk.HeapBlocks
open Emk.Transition

/-- The heap and the pointers handed out and not given back. -/
structure World where
  heap : Heap
  live : List ℕ

inductive Op where
  | kmalloc (size : ℕ)
  | kfree (ptr : ℕ)
  | write (ptr offset : ℕ) (c : UInt8)

def step (w : World) : Op → Option World
  | .kmalloc size => (kmalloc size w.heap).map fun r =>
      ⟨r.2, if r.1 = 0 then w.live else r.1::w.live⟩
  | .kfree ptr => (kfree ptr w.heap).map fun h => ⟨h, w.live.erase ptr⟩
  | .write ptr offset c =>
      some { w with heap := { w.heap with mem := fill w.heap.mem (ptr+offset) c 1 } }

def Permitted (w : World) : Op → Prop
  | .kmalloc _ => True
  | .kfree ptr => ptr = 0 ∨ ptr ∈ w.live
  | .write ptr offset _ => ptr ∈ w.live ∧ offset < blockSize w.heap (ptr-16)

instance decidablePermitted (w : World) : ∀ o, Decidable (Permitted w o)
  | .kmalloc _ => .isTrue trivial
  | .kfree ptr => inferInstanceAs (Decidable (ptr = 0 ∨ ptr ∈ w.live))
  | .write ptr offset _ =>
      inferInstanceAs (Decidable (ptr ∈ w.live ∧ offset < blockSize w.heap (ptr-16)))

def start (poolPages pool : ℕ) (m : Mem) : World := ⟨heapInit poolPages pool m, []⟩

def Covers (h : Heap) : ℕ → List ℕ → ℕ → Prop
  | a, [], e => a = e
  | a, b::bs, e => b = a ∧ Covers h (b+16+blockSize h b) bs e

/-- The free list is `free` and the blocks of the pool in address order are
`blocks`, each a header of sixteen bytes and as many bytes as it says. -/
structure Shape (w : World) (lo hi : ℕ) (free blocks : List ℕ) : Prop where
  freelist : Path (slot w.heap) 0 free 0
  nonnull : 0 ∉ free
  sorted : free.Pairwise (· < ·)
  partition : blocks.Perm (free ++ w.live.map (fun ptr => ptr-16))
  tiles : Covers w.heap lo blocks hi
  size_mul : ∀ b ∈ blocks, blockSize w.heap b % 8 = 0
  apart : ∀ b ∈ free, b+16+blockSize w.heap b ∉ free

structure Inv (lo hi : ℕ) (w : World) (bs : List Blk) : Prop where
  rep : Rep w.heap lo hi bs
  calm : Calm bs
  live : w.live.Perm ((lives bs).map (fun a => a+16))

theorem start_inv {poolPages pool : ℕ} (m : Mem) (hpages : 0 < poolPages) (hpool : 4096 ≤ pool)
    (hfits : pool+4096*poolPages < 2^64) :
    Inv pool (pool+4096*poolPages) (start poolPages pool m)
      [⟨pool, 4096*poolPages-16, true⟩] := by
  refine ⟨⟨hpool, hfits, ?_, ?_, ?_, ?_⟩, List.IsChain.singleton _, List.Perm.refl _⟩
  · refine ⟨rfl, ?_⟩
    rw [Tiles, Blk.fin]
    dsimp only
    omega
  · intro b hb
    rw [List.mem_singleton.mp hb, start, heapInit, setNext_setSlot _ (by omega),
      blockSize_setSlot _ (.inr (.inl rfl)), blockSize_setSize _ _ (by omega)]
  · intro b hb
    rw [List.mem_singleton.mp hb]
    dsimp only
    omega
  · have h0 : pool ≠ 0 := by omega
    rw [start, heapInit, setNext_setSlot _ h0]
    refine ⟨?_, slot_setSlot _ _ (by norm_num)⟩
    rw [slot_setSlot_ne _ (Ne.symm h0) (.inl rfl), slot_setSize _ (.inl rfl), slot, if_pos rfl]

variable {w : World} {lo hi : ℕ} {bs : List Blk}

theorem lives_perm {bs' : List Blk} {a s : ℕ} (hu : (used bs').Perm (⟨a, s, false⟩::used bs)) :
    (lives bs').Perm (a::lives bs) := hu.map Blk.addr

theorem mem_lives {a : ℕ} (ha : a ∈ lives bs) :
    ∃ pre b post, bs = pre ++ b::post ∧ b.free = false ∧ b.addr = a := by
  obtain ⟨b, hb, rfl⟩ := List.mem_map.mp ha
  obtain ⟨hm, hf⟩ := List.mem_filter.mp hb
  obtain ⟨pre, post, rfl⟩ := List.append_of_mem hm
  exact ⟨pre, b, post, rfl, by simpa using hf, rfl⟩

theorem Inv.live_block (hi' : Inv lo hi w bs) {ptr : ℕ} (hp : ptr ∈ w.live) :
    ∃ pre b post, bs = pre ++ b::post ∧ b.free = false ∧ ptr = b.addr+16 := by
  obtain ⟨a, ha, rfl⟩ := List.mem_map.mp (hi'.live.mem_iff.mp hp)
  obtain ⟨pre, b, post, hbs, hf, rfl⟩ := mem_lives ha
  exact ⟨pre, b, post, hbs, hf, rfl⟩

theorem Inv.kmalloc (hi' : Inv lo hi w bs) (size : ℕ) :
    ∃ w' bs', step w (.kmalloc size) = some w' ∧ Inv lo hi w' bs' := by
  rcases hi'.rep.kmalloc hi'.calm size with hn | ⟨a, h', bs', heq, hr, hc, ⟨s, hl⟩, -⟩
  · exact ⟨w, bs, by simp [step, hn], hi'⟩
  · refine ⟨⟨h', (a+16)::w.live⟩, bs', by simp [step, heq], hr, hc, ?_⟩
    exact (hi'.live.cons (a+16)).trans ((lives_perm hl).map (fun a => a+16)).symm

/-- A block handed out is new and lies in the pool. -/
theorem Inv.kmalloc_fresh (hi' : Inv lo hi w bs) {size p : ℕ} {h' : Heap}
    (heq : FirstFitHeap.kmalloc size w.heap = some (p, h')) (hp : p ≠ 0) :
    p ∉ w.live ∧ lo ≤ p ∧ p+alignUp size 8 ≤ hi ∧ ∃ bs' s, Inv lo hi ⟨h', p::w.live⟩ bs' ∧
      (used bs').Perm (⟨p-16, s, false⟩::used bs) := by
  rcases hi'.rep.kmalloc hi'.calm size with hn | ⟨a, h'', bs', hk, hr, hc, ⟨s, hl⟩, hlow, hfin⟩
  · rw [hn] at heq
    exact absurd (Prod.mk.inj (Option.some.inj heq)).1.symm hp
  · rw [hk] at heq
    obtain ⟨rfl, rfl⟩ := Prod.mk.inj (Option.some.inj heq)
    refine ⟨fun hin => ?_, by omega, hfin, bs', s, ⟨hr, hc, ?_⟩, hl⟩
    · have hnodup := (lives_perm hl).nodup_iff.mp (lives_nodup hr.tiles)
      obtain ⟨b, hb, he⟩ := List.mem_map.mp (hi'.live.mem_iff.mp hin)
      obtain rfl : b = a := by omega
      exact (List.nodup_cons.mp hnodup).1 hb
    · exact (hi'.live.cons (a+16)).trans ((lives_perm hl).map (fun a => a+16)).symm

/-- A live block given back is the one that leaves the used blocks. -/
theorem Inv.kfree_live (hi' : Inv lo hi w bs) {ptr : ℕ} (hp : ptr ∈ w.live) :
    ∃ h' bs' b, FirstFitHeap.kfree ptr w.heap = some h' ∧ ptr = b.addr+16 ∧
      Inv lo hi ⟨h', w.live.erase ptr⟩ bs' ∧ (used bs).Perm (b::used bs') := by
  obtain ⟨pre, b, post, rfl, hf, rfl⟩ := hi'.live_block hp
  obtain ⟨h', bs', heq, hr, hc, hu⟩ := hi'.rep.kfree hf hi'.calm
  have hmid : (used (pre ++ b::post)).Perm (b::used bs') := by
    rw [used_append, used_cons, if_neg (by simp [hf]), hu]
    exact List.perm_middle
  refine ⟨h', bs', b, heq, rfl, ⟨hr, hc, ?_⟩, hmid⟩
  have hperm := (List.perm_cons_erase hp).symm.trans hi'.live
  exact (hperm.trans ((hmid.map Blk.addr).map (fun a => a+16))).cons_inv

/-- Several live blocks given back one after the other. -/
theorem Inv.kfrees (hi' : Inv lo hi w bs) {ps : List ℕ} (hn : ps.Nodup)
    (hlive : ∀ p ∈ ps, p ∈ w.live) {h' : Heap}
    (hf : ps.foldlM (fun h p => FirstFitHeap.kfree p h) w.heap = some h') :
    ∃ live' bs', Inv lo hi ⟨h', live'⟩ bs' ∧ ∀ q ∈ w.live, q ∉ ps → q ∈ live' := by
  induction ps generalizing w bs with
  | nil =>
    obtain rfl : w.heap = h' := Option.some.inj hf
    exact ⟨w.live, bs, hi', fun q hq _ => hq⟩
  | cons p ps ih =>
    obtain ⟨hp, hn⟩ := List.nodup_cons.mp hn
    obtain ⟨h₁, bs₁, -, heq, -, hi₁, -⟩ := hi'.kfree_live (hlive p (by simp))
    rw [List.foldlM_cons, heq] at hf
    have hkeep : ∀ q ∈ w.live, q ≠ p → q ∈ w.live.erase p :=
      fun q hq hne => (List.mem_erase_of_ne hne).mpr hq
    obtain ⟨live', bs', hinv, hrest⟩ := ih hi₁ hn
      (fun q hq => hkeep q (hlive q (by simp [hq])) (fun he => hp (he ▸ hq))) hf
    refine ⟨live', bs', hinv, fun q hq hout => ?_⟩
    rw [List.mem_cons, not_or] at hout
    exact hrest q (hkeep q hq hout.1) hout.2

theorem Inv.kfree (hi' : Inv lo hi w bs) {ptr : ℕ} (hp : ptr = 0 ∨ ptr ∈ w.live) :
    ∃ w' bs', step w (.kfree ptr) = some w' ∧ Inv lo hi w' bs' := by
  by_cases hm : ptr ∈ w.live
  · obtain ⟨h', bs', b, heq, -, hinv, -⟩ := hi'.kfree_live hm
    exact ⟨⟨h', w.live.erase ptr⟩, bs', by simp [step, heq], hinv⟩
  · have h0 : ptr = 0 := hp.resolve_right hm
    refine ⟨w, bs, ?_, hi'⟩
    rw [step, h0, FirstFitHeap.kfree, if_pos rfl, Option.map_some, List.erase_of_not_mem (h0 ▸ hm)]

/-- A client that stays inside its block touches no header. -/
theorem Inv.write (hi' : Inv lo hi w bs) {ptr offset : ℕ} (c : UInt8) (hp : ptr ∈ w.live)
    (ho : offset < blockSize w.heap (ptr-16)) :
    ∃ w' bs', step w (.write ptr offset c) = some w' ∧ Inv lo hi w' bs' := by
  obtain ⟨pre, b, post, rfl, hf, rfl⟩ := hi'.live_block hp
  have hr := hi'.rep
  have ha := hr.around
  rw [Nat.add_sub_cancel, hr.size_eq b (by simp)] at ho
  have hout : ∀ x ∈ pre ++ b::post, x.addr+16 ≤ b.addr+16+offset ∨ b.addr+16+offset+1 ≤ x.addr := by
    intro x hx
    rcases List.mem_append.mp hx with hx | hx
    · have := ha.before x hx
      omega
    · rcases List.mem_cons.mp hx with rfl | hx
      · omega
      · have : b.addr+16+b.size ≤ x.addr := (ha.after x hx).1
        omega
  refine ⟨_, pre ++ b::post, rfl, ⟨hr.low, hr.high, hr.tiles, ?_, hr.size_mul, ?_⟩, hi'.calm,
    hi'.live⟩
  · intro x hx
    have := hout x hx
    rw [← hr.size_eq x hx]
    exact load_fill_apart _ _ _ _ _ _ (by omega)
  · apply path_congr _ hr.links
    intro x hx
    rcases List.mem_cons.mp hx with rfl | hx
    · rw [slot, slot, if_pos rfl, if_pos rfl]
    · obtain ⟨d, hd, -, rfl⟩ := mem_frees hx
      have := hout d hd
      have hlow := (tiles_mem hr.tiles hd).1
      have := hr.low
      rw [slot, slot, if_neg (by omega), if_neg (by omega)]
      exact load_fill_apart _ _ _ _ _ _ (by omega)

theorem step_inv {o : Op} (hi' : Inv lo hi w bs) (hp : Permitted w o) :
    ∃ w' bs', step w o = some w' ∧ Inv lo hi w' bs' := by
  cases o with
  | kmalloc size => exact hi'.kmalloc size
  | kfree ptr => exact hi'.kfree hp
  | write ptr offset c => exact hi'.write c hp.1 hp.2

theorem covers_of_tiles {h : Heap} {a e : ℕ} (ht : Tiles a bs e)
    (hs : ∀ b ∈ bs, blockSize h b.addr = b.size) : Covers h a (bs.map Blk.addr) e := by
  induction bs generalizing a with
  | nil => exact ht
  | cons b bs ih =>
    refine ⟨ht.1, ?_⟩
    rw [hs b (by simp)]
    exact ih ht.2 (fun x hx => hs x (List.mem_cons_of_mem b hx))

/-- Free blocks that touch would be neighbours of the sequence. -/
theorem calm_apart {a e : ℕ} (ht : Tiles a bs e) (hc : Calm bs) {x y : Blk} (hx : x ∈ bs)
    (hy : y ∈ bs) (hxf : x.free = true) (hyf : y.free = true) : x.addr+16+x.size ≠ y.addr := by
  intro he
  obtain ⟨pre, post, rfl⟩ := List.append_of_mem hx
  obtain ⟨h1, h2⟩ := (tiles_append _ _ _ _ _).mp ht
  rcases List.mem_append.mp hy with hy | hy
  · have : y.addr+16+y.size ≤ x.addr := (tiles_mem h1 hy).2
    omega
  rcases List.mem_cons.mp hy with rfl | hy
  · omega
  cases post with
  | nil => simp at hy
  | cons z post =>
    have hz : z.addr = x.addr+16+x.size := h2.1
    rcases List.mem_cons.mp hy with rfl | hy
    · exact (List.isChain_cons_cons.mp (calm_split.mp hc).2).1 ⟨hxf, hyf⟩
    · have : z.addr+16+z.size ≤ y.addr := (tiles_mem h2.2 hy).1
      omega

theorem Inv.shape (hi' : Inv lo hi w bs) : Shape w lo hi (frees bs) (bs.map Blk.addr) := by
  have hr := hi'.rep
  refine ⟨hr.links, ?_, frees_sorted hr.tiles, ?_, covers_of_tiles hr.tiles hr.size_eq, ?_, ?_⟩
  · exact (List.nodup_cons.mp hr.nodup).1
  · have hback : (w.live.map (fun ptr => ptr-16)).Perm (lives bs) := by
      have hmap := hi'.live.map (fun ptr => ptr-16)
      rwa [List.map_map, show (fun ptr => ptr-16) ∘ (fun a => a+16) = (id : ℕ → ℕ) from
        funext (fun a => Nat.add_sub_cancel a 16), List.map_id] at hmap
    have hsplit := (List.filter_append_perm (fun b : Blk => b.free) bs).map Blk.addr
    rw [List.map_append] at hsplit
    exact hsplit.symm.trans (List.Perm.append_left (frees bs) hback.symm)
  · intro a ha
    obtain ⟨b, hb, rfl⟩ := List.mem_map.mp ha
    rw [hr.size_eq b hb]
    exact hr.size_mul b hb
  · intro a ha hn
    obtain ⟨x, hx, hxf, rfl⟩ := mem_frees ha
    obtain ⟨y, hy, hyf, hya⟩ := mem_frees hn
    rw [hr.size_eq x hx] at hya
    exact calm_apart hr.tiles hi'.calm hx hy hxf hyf hya.symm

theorem reached (poolPages pool : ℕ) (m : Mem) (ops : List Op) (hpages : 0 < poolPages)
    (hpool : 4096 ≤ pool) (hfits : pool+4096*poolPages < 2^64)
    (hops : Along (lift step) (Issued Permitted) (some (start poolPages pool m)) ops) :
    ∃ w, run (lift step) (some (start poolPages pool m)) ops = some w ∧
      ∃ bs, Inv pool (pool+4096*poolPages) w bs := by
  have hstep : ∀ w o, (∃ bs, Inv pool (pool+4096*poolPages) w bs) → Permitted w o →
      ∃ w', step w o = some w' ∧ ∃ bs, Inv pool (pool+4096*poolPages) w' bs := by
    rintro w o ⟨bs, hinv⟩ hp
    obtain ⟨w', bs', heq, hinv'⟩ := step_inv hinv hp
    exact ⟨w', heq, bs', hinv'⟩
  exact run_lift_invariant hstep ⟨_, start_inv m hpages hpool hfits⟩ hops

/-- After `heap_init` and any run of its clients the free list and the live
blocks tile the pool, sizes are multiples of eight, the free list is sorted
by address and no two free blocks touch. -/
theorem heap_tiles_pool (poolPages pool : ℕ) (m : Mem) (ops : List Op) (hpages : 0 < poolPages)
    (hpool : 4096 ≤ pool) (hfits : pool+4096*poolPages < 2^64)
    (hops : Along (lift step) (Issued Permitted) (some (start poolPages pool m)) ops) :
    ∃ w free blocks, run (lift step) (some (start poolPages pool m)) ops = some w ∧
      Shape w pool (pool+4096*poolPages) free blocks := by
  obtain ⟨w, heq, bs, hinv⟩ := reached poolPages pool m ops hpages hpool hfits hops
  exact ⟨w, frees bs, bs.map Blk.addr, heq, hinv.shape⟩

theorem heap_tiles_pool_small :
    ∃ w free blocks, run (lift step) (some (start 1 8192 (fun _ => 0)))
        [.kmalloc 24, .kmalloc 8, .write 8208 3 7, .kfree 8208, .kfree 8248] = some w ∧
      Shape w 8192 (8192+4096*1) free blocks :=
  heap_tiles_pool 1 8192 (fun _ => 0) _ (by decide) (by decide) (by decide) (by decide +kernel)

end Emk.HeapRuns
