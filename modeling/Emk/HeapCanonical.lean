import Emk.HeapRuns

/-!
# The free list is determined by the live blocks

A tiling of the pool without free neighbours has one free block for every
maximal gap between used blocks. Two heaps with the same used blocks thus
have the same sequence of blocks and the same free list, whatever order of
allocations and releases led to them.
-/

set_option autoImplicit false

namespace Emk.HeapRuns
open Emk.ByteMemory Emk.MachineWord Emk.FirstFitHeap Emk.LinkedPath Emk.HeapBlocks Emk.Transition

def freeBlocks (h : Heap) : ℕ → ℕ → Option (List (ℕ × ℕ))
  | 0, _ => none
  | fuel+1, b =>
    if b = 0 then some []
    else (freeBlocks h fuel (blockNext h b)).map fun l => (b, blockSize h b)::l

/-- The free list as it stands in memory, each block with its size. -/
def freeList (h : Heap) : Option (List (ℕ × ℕ)) := freeBlocks h rounds h.freelist

def liveBlocks (w : World) : List (ℕ × ℕ) :=
  w.live.map fun ptr => (ptr-16, blockSize w.heap (ptr-16))

variable {w w' : World} {lo hi : ℕ} {bs bs' : List Blk}

theorem tiles_head {a e : ℕ} {b c : Blk} (ht : Tiles a (b::bs) e) (hc : c ∈ b::bs)
    (ha : c.addr < b.addr+16+b.size) : c = b := by
  rcases List.mem_cons.mp hc with rfl | hc
  · rfl
  · have : b.addr+16+b.size ≤ c.addr := (tiles_mem ht.2 hc).1
    omega

theorem mem_used {b : Blk} : b ∈ used bs ↔ b ∈ bs ∧ b.free = false := by
  simp [used]

/-- Behind a free block ends the pool or begins a used block. -/
theorem calm_next {a e : ℕ} {b : Blk} (ht : Tiles a (b::bs) e) (hc : Calm (b::bs))
    (hb : b.free = true) : b.addr+16+b.size = e ∨ ∃ c ∈ used bs, c.addr = b.addr+16+b.size := by
  cases bs with
  | nil => exact .inl ht.2
  | cons c bs =>
    have hcf : c.free = false := by
      have := (List.isChain_cons_cons.mp hc).1
      simpa [hb] using this
    exact .inr ⟨c, mem_used.mpr ⟨by simp, hcf⟩, ht.2.1⟩

/-- The first blocks of two tilings with the same used blocks end together. -/
theorem fin_le {a e : ℕ} {b b' : Blk} (ht : Tiles a (b::bs) e) (ht' : Tiles a (b'::bs') e)
    (hc' : Calm (b'::bs')) (hb' : b'.free = true)
    (hu : ∀ c ∈ used bs', c ∈ b::bs) : b.addr+16+b.size ≤ b'.addr+16+b'.size := by
  have hhead : b.addr = a := ht.1
  have hhead' : b'.addr = a := ht'.1
  rcases calm_next ht' hc' hb' with he | ⟨c, hcu, hca⟩
  · have : b.addr+16+b.size ≤ e := tiles_le ht.2
    omega
  · by_contra hlt
    have := tiles_head ht (hu c hcu) (by omega)
    rw [this] at hca
    omega

theorem used_tail {a e : ℕ} {b c : Blk} (ht : Tiles a (b::bs) e) :
    c ∈ used bs ↔ c ∈ used (b::bs) ∧ b.addr+16+b.size ≤ c.addr := by
  constructor
  · intro hc
    obtain ⟨hm, hf⟩ := mem_used.mp hc
    exact ⟨mem_used.mpr ⟨List.mem_cons_of_mem b hm, hf⟩, (tiles_mem ht.2 hm).1⟩
  · rintro ⟨hc, hle⟩
    obtain ⟨hm, hf⟩ := mem_used.mp hc
    rcases List.mem_cons.mp hm with rfl | hm
    · omega
    · exact mem_used.mpr ⟨hm, hf⟩

theorem head_eq {a e : ℕ} {b b' : Blk} (ht : Tiles a (b::bs) e) (ht' : Tiles a (b'::bs') e)
    (hc : Calm (b::bs)) (hc' : Calm (b'::bs'))
    (hu : ∀ c, c ∈ used (b::bs) ↔ c ∈ used (b'::bs')) : b = b' := by
  have hhead : b.addr = b'.addr := ht.1.trans ht'.1.symm
  cases hb : b.free with
  | false =>
    have hm := (mem_used.mp ((hu b).mp (mem_used.mpr ⟨by simp, hb⟩))).1
    exact tiles_head ht' hm (by omega)
  | true =>
    cases hb' : b'.free with
    | false =>
      have hm := (mem_used.mp ((hu b').mpr (mem_used.mpr ⟨by simp, hb'⟩))).1
      exact (tiles_head ht hm (by omega)).symm
    | true =>
      have h1 := fin_le ht ht' hc' hb' fun c hcu =>
        (mem_used.mp ((hu c).mpr ((used_tail ht').mp hcu).1)).1
      have h2 := fin_le ht' ht hc hb fun c hcu =>
        (mem_used.mp ((hu c).mp ((used_tail ht).mp hcu).1)).1
      obtain ⟨x, s, f⟩ := b
      obtain ⟨x', s', f'⟩ := b'
      dsimp only at hhead hb hb' h1 h2
      obtain rfl : x = x' := hhead
      obtain rfl : s = s' := by omega
      rw [hb, hb']

/-- A tiling without free neighbours is determined by its used blocks. -/
theorem tiles_unique {a e : ℕ} (ht : Tiles a bs e) (ht' : Tiles a bs' e) (hc : Calm bs)
    (hc' : Calm bs') (hu : ∀ c, c ∈ used bs ↔ c ∈ used bs') : bs = bs' := by
  induction bs generalizing a bs' with
  | nil =>
    cases bs' with
    | nil => rfl
    | cons b' bs' =>
      have h1 : a = e := ht
      have h2 : b'.addr = a := ht'.1
      have : b'.addr+16+b'.size ≤ e := tiles_le ht'.2
      omega
  | cons b bs ih =>
    cases bs' with
    | nil =>
      have h1 : a = e := ht'
      have h2 : b.addr = a := ht.1
      have : b.addr+16+b.size ≤ e := tiles_le ht.2
      omega
    | cons b' bs' =>
      obtain rfl := head_eq ht ht' hc hc' hu
      have htail : ∀ c, c ∈ used bs ↔ c ∈ used bs' := by
        intro c
        rw [used_tail ht, used_tail ht', hu c]
      rw [ih ht.2 ht'.2 (List.isChain_cons.mp hc).2 (List.isChain_cons.mp hc').2 htail]

theorem used_unique {a e : ℕ} (ht : Tiles a bs e) {b c : Blk} (hb : b ∈ used bs)
    (hc : c ∈ used bs) (ha : b.addr = c.addr) : b = c := by
  have hinj := List.inj_on_of_nodup_map (lives_nodup ht)
  exact hinj hb hc ha

theorem freeBlocks_eq {h : Heap} {a : ℕ} {fs : List ℕ} (hp : Path (slot h) a fs 0)
    (hnonnull : ∀ b ∈ fs, b ≠ 0) (fuel : ℕ) (hfuel : fs.length < fuel) :
    freeBlocks h fuel (slot h a) = some (fs.map fun b => (b, blockSize h b)) := by
  induction fs generalizing a fuel with
  | nil =>
    obtain ⟨fuel, rfl⟩ := Nat.exists_eq_add_of_lt hfuel
    have hend : slot h a = 0 := hp
    rw [freeBlocks, if_pos hend, List.map_nil]
  | cons f fs ih =>
    rw [List.length_cons] at hfuel
    obtain ⟨fuel, rfl⟩ : ∃ k, fuel = k+1 := ⟨fuel-1, by omega⟩
    have hf := hnonnull f (by simp)
    rw [hp.1, freeBlocks, if_neg hf, blockNext_slot hf,
      ih hp.2 (fun b hb => hnonnull b (by simp [hb])) fuel (by omega), Option.map_some,
        List.map_cons]

theorem Inv.freeList_eq (hi' : Inv lo hi w bs) :
    freeList w.heap = some ((bs.filter (fun b => b.free)).map fun b => (b.addr, b.size)) := by
  have hr := hi'.rep
  have hnonnull : ∀ b ∈ frees bs, b ≠ 0 := by
    rintro b hb rfl
    exact (List.nodup_cons.mp hr.nodup).1 hb
  have hlen : (frees bs).length < rounds := lt_of_le_of_lt (frees_length bs) hr.length_lt
  have hwalk := freeBlocks_eq hr.links hnonnull rounds hlen
  rw [slot, if_pos rfl] at hwalk
  rw [freeList, hwalk, frees, List.map_map]
  refine congrArg some (List.map_congr_left fun b hb => ?_)
  rw [Function.comp_apply, hr.size_eq b (List.mem_of_mem_filter hb)]

theorem Inv.mem_liveBlocks (hi' : Inv lo hi w bs) {a s : ℕ} :
    (a, s) ∈ liveBlocks w ↔ ⟨a, s, false⟩ ∈ used bs := by
  constructor
  · intro hm
    obtain ⟨ptr, hp, he⟩ := List.mem_map.mp hm
    obtain ⟨pre, b, post, hbs, hf, rfl⟩ := hi'.live_block hp
    have hb : b ∈ bs := by simp [hbs]
    rw [Nat.add_sub_cancel, hi'.rep.size_eq b hb] at he
    obtain ⟨rfl, rfl⟩ := Prod.mk.inj he
    refine mem_used.mpr ⟨?_, rfl⟩
    rwa [← hf]
  · intro hm
    have hp : a+16 ∈ w.live := hi'.live.mem_iff.mpr
      (List.mem_map.mpr ⟨a, List.mem_map.mpr ⟨⟨a, s, false⟩, hm, rfl⟩, rfl⟩)
    refine List.mem_map.mpr ⟨a+16, hp, ?_⟩
    rw [Nat.add_sub_cancel, hi'.rep.size_eq ⟨a, s, false⟩ (mem_used.mp hm).1]

theorem Inv.freeList_same (hi' : Inv lo hi w bs) (hi'' : Inv lo hi w' bs')
    (hu : ∀ c, c ∈ used bs ↔ c ∈ used bs') : freeList w.heap = freeList w'.heap := by
  obtain rfl := tiles_unique hi'.rep.tiles hi''.rep.tiles hi'.calm hi''.calm hu
  rw [hi'.freeList_eq, hi''.freeList_eq]

theorem Inv.freeList_of_liveBlocks (hi' : Inv lo hi w bs) (hi'' : Inv lo hi w' bs')
    (hl : ∀ x, x ∈ liveBlocks w ↔ x ∈ liveBlocks w') : freeList w.heap = freeList w'.heap := by
  have hsame : ∀ a s, (⟨a, s, false⟩ : Blk) ∈ used bs ↔ ⟨a, s, false⟩ ∈ used bs' := fun a s => by
    rw [← hi'.mem_liveBlocks, ← hi''.mem_liveBlocks, hl]
  refine hi'.freeList_same hi'' fun c => ?_
  obtain ⟨a, s, f⟩ := c
  cases f with
  | false => exact hsame a s
  | true => simp [mem_used]

/-- Giving back the block just handed out restores the free list. -/
theorem Inv.kfree_kmalloc (hi' : Inv lo hi w bs) (n : ℕ) :
    ∃ p h' h'', FirstFitHeap.kmalloc n w.heap = some (p, h') ∧
      FirstFitHeap.kfree p h' = some h'' ∧ freeList h'' = freeList w.heap := by
  rcases hi'.rep.kmalloc hi'.calm n with hn | ⟨a, h', bs₁, hk, -⟩
  · exact ⟨0, w.heap, w.heap, hn, if_pos rfl, rfl⟩
  · obtain ⟨-, -, -, bs₁, s, hinv₁, hu₁⟩ := hi'.kmalloc_fresh hk (by omega)
    obtain ⟨h'', bs₂, b, hf, hb, hinv₂, hu₂⟩ := hinv₁.kfree_live (List.mem_cons_self (a := a+16))
    have hbe : b = ⟨a+16-16, s, false⟩ := by
      apply used_unique hinv₁.rep.tiles (hu₂.mem_iff.mpr (by simp)) (hu₁.mem_iff.mpr (by simp))
      dsimp only
      omega
    rw [hbe] at hu₂
    have hu := (hu₁.symm.trans hu₂).cons_inv
    exact ⟨a+16, h', h'', hk, hf, hinv₂.freeList_same hi' fun c => hu.symm.mem_iff⟩

/-- Two live blocks may be given back in either order. -/
theorem Inv.kfree_comm (hi' : Inv lo hi w bs) {p q : ℕ} (hp : p ∈ w.live) (hq : q ∈ w.live)
    (hne : p ≠ q) :
    ∃ h₁ h₂ h₃ h₄, FirstFitHeap.kfree p w.heap = some h₁ ∧ FirstFitHeap.kfree q h₁ = some h₂ ∧
      FirstFitHeap.kfree q w.heap = some h₃ ∧ FirstFitHeap.kfree p h₃ = some h₄ ∧
      freeList h₂ = freeList h₄ := by
  obtain ⟨h₁, bs₁, b, hf₁, rfl, hinv₁, hu₁⟩ := hi'.kfree_live hp
  obtain ⟨h₃, bs₃, c, hf₃, rfl, hinv₃, hu₃⟩ := hi'.kfree_live hq
  obtain ⟨h₂, bs₂, c', hf₂, hc', hinv₂, hu₂⟩ :=
    hinv₁.kfree_live ((List.mem_erase_of_ne (Ne.symm hne)).mpr hq)
  obtain ⟨h₄, bs₄, b', hf₄, hb', hinv₄, hu₄⟩ :=
    hinv₃.kfree_live ((List.mem_erase_of_ne hne).mpr hp)
  have ht := hi'.rep.tiles
  obtain rfl : c' = c := by
    apply used_unique ht _ (hu₃.mem_iff.mpr (by simp)) (by omega)
    exact hu₁.mem_iff.mpr (List.mem_cons_of_mem b (hu₂.mem_iff.mpr (by simp)))
  obtain rfl : b' = b := by
    apply used_unique ht _ (hu₁.mem_iff.mpr (by simp)) (by omega)
    exact hu₃.mem_iff.mpr (List.mem_cons_of_mem c' (hu₄.mem_iff.mpr (by simp)))
  have hleft := hu₁.trans (hu₂.cons b')
  have hright := hu₃.trans ((hu₄.cons c').trans (List.Perm.swap b' c' _))
  have hu := (hleft.symm.trans hright).cons_inv.cons_inv
  exact ⟨h₁, h₂, h₃, h₄, hf₁, hf₂, hf₃, hf₄, hinv₂.freeList_same hinv₄ fun x => hu.mem_iff⟩

/-- The free list after a run is a function of the live blocks alone: another
run that leaves the same blocks live has the same one, a block given back at
once leaves no trace, releases commute, and a pool without live blocks is the
one block of `heap_init`. -/
theorem freelist_canonical (poolPages pool : ℕ) (m m' : Mem) (ops ops' : List Op)
    (hpages : 0 < poolPages) (hpool : 4096 ≤ pool) (hfits : pool+4096*poolPages < 2^64)
    (hops : Along (lift step) (Issued Permitted) (some (start poolPages pool m)) ops)
    (hops' : Along (lift step) (Issued Permitted) (some (start poolPages pool m')) ops') :
    ∃ w w' free, run (lift step) (some (start poolPages pool m)) ops = some w ∧
      run (lift step) (some (start poolPages pool m')) ops' = some w' ∧
      freeList w.heap = some free ∧
      ((∀ x, x ∈ liveBlocks w ↔ x ∈ liveBlocks w') → freeList w'.heap = some free) ∧
      (∀ n, ∃ p h' h'', kmalloc n w.heap = some (p, h') ∧ kfree p h' = some h'' ∧
        freeList h'' = some free) ∧
      (∀ p ∈ w.live, ∀ q ∈ w.live, p ≠ q → ∃ h₁ h₂ h₃ h₄, kfree p w.heap = some h₁ ∧
        kfree q h₁ = some h₂ ∧ kfree q w.heap = some h₃ ∧ kfree p h₃ = some h₄ ∧
        freeList h₂ = freeList h₄) ∧
      (w.live = [] → free = [(pool, 4096*poolPages-16)]) := by
  obtain ⟨w, heq, bs, hinv⟩ := reached poolPages pool m ops hpages hpool hfits hops
  obtain ⟨w', heq', bs', hinv'⟩ := reached poolPages pool m' ops' hpages hpool hfits hops'
  have hfree := hinv.freeList_eq
  refine ⟨w, w', _, heq, heq', hfree, ?_, ?_, ?_, ?_⟩
  · intro hl
    rw [← hinv.freeList_of_liveBlocks hinv' hl, hfree]
  · intro n
    rw [← hfree]
    exact hinv.kfree_kmalloc n
  · intro p hp q hq hne
    exact hinv.kfree_comm hp hq hne
  · intro hnone
    have hstart := start_inv m hpages hpool hfits
    have hsame := hinv.freeList_of_liveBlocks hstart fun x => by
      rw [liveBlocks, liveBlocks, hnone, start, List.map_nil, List.map_nil]
    rw [hfree, hstart.freeList_eq] at hsame
    exact Option.some.inj hsame

theorem freelist_canonical_small :
    ∃ w w' free, run (lift step) (some (start 1 8192 (fun _ => 0)))
        [.kmalloc 24, .kmalloc 8, .kfree 8208] = some w ∧
      run (lift step) (some (start 1 8192 (fun _ => 0)))
        [.kmalloc 24, .kmalloc 8, .kmalloc 64, .kfree 8272, .kfree 8208] = some w' ∧
      freeList w.heap = some free ∧
      ((∀ x, x ∈ liveBlocks w ↔ x ∈ liveBlocks w') → freeList w'.heap = some free) ∧
      (∀ n, ∃ p h' h'', kmalloc n w.heap = some (p, h') ∧ kfree p h' = some h'' ∧
        freeList h'' = some free) ∧
      (∀ p ∈ w.live, ∀ q ∈ w.live, p ≠ q → ∃ h₁ h₂ h₃ h₄, kfree p w.heap = some h₁ ∧
        kfree q h₁ = some h₂ ∧ kfree q w.heap = some h₃ ∧ kfree p h₃ = some h₄ ∧
        freeList h₂ = freeList h₄) ∧
      (w.live = [] → free = [(8192, 4096*1-16)]) :=
  freelist_canonical 1 8192 (fun _ => 0) (fun _ => 0) _ _ (by decide) (by decide) (by decide)
    (by decide +kernel) (by decide +kernel)

end Emk.HeapRuns
