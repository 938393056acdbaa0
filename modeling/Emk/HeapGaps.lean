import Emk.HeapCanonical
import Mathlib.Order.CompletePartialOrder

/-!
# What the heap hands out

A free block is a maximal run of pool bytes that no live block covers, since
free neighbours are always joined. So first fit takes the lowest run that is
long enough, and fails only when all of them are too short. The block covers
what was asked for unless rounding the request up wraps around to zero.
-/

set_option autoImplicit false

namespace Emk.HeapRuns
open Emk.ByteMemory Emk.MachineWord Emk.DirectMap Emk.FirstFitHeap Emk.LinkedPath Emk.HeapBlocks
open Emk.Transition

variable {w : World} {lo hi : ℕ} {bs : List Blk}

theorem tiles_cover {a e x : ℕ} (ht : Tiles a bs e) (hlo : a ≤ x) (hhi : x < e) :
    ∃ b ∈ bs, b.addr ≤ x ∧ x < b.fin := by
  induction bs generalizing a with
  | nil =>
    obtain rfl : a = e := ht
    omega
  | cons b bs ih =>
    have hhead : b.addr = a := ht.1
    by_cases hx : x < b.fin
    · exact ⟨b, by simp, by omega, hx⟩
    · obtain ⟨c, hc, hin⟩ := ih ht.2 (by omega)
      exact ⟨c, List.mem_cons_of_mem b hc, hin⟩

theorem tiles_overlap {a e x : ℕ} (ht : Tiles a bs e) {b c : Blk} (hb : b ∈ bs) (hc : c ∈ bs)
    (hxb : b.addr ≤ x ∧ x < b.fin) (hxc : c.addr ≤ x ∧ x < c.fin) : b = c := by
  obtain ⟨pre, post, rfl⟩ := List.append_of_mem hb
  obtain ⟨hpre, hpost⟩ := (tiles_append _ _ _ _ _).mp ht
  rcases List.mem_append.mp hc with hc | hc
  · have := (tiles_mem hpre hc).2
    omega
  · rcases List.mem_cons.mp hc with rfl | hc
    · rfl
    · have := (tiles_mem hpost hc).1
      omega

/-- A byte of the pool that belongs to no live block. -/
def Uncovered (w : World) (lo hi x : ℕ) : Prop :=
  lo ≤ x ∧ x < hi ∧ ∀ q ∈ w.live, x ∉ Range (q-16) (16+blockSize w.heap (q-16))

/-- A maximal run of such bytes. -/
structure Gap (w : World) (lo hi a len : ℕ) : Prop where
  pos : 0 < len
  inside : ∀ x ∈ Range a len, Uncovered w lo hi x
  left : ∀ x, x+1 = a → ¬Uncovered w lo hi x
  right : ¬Uncovered w lo hi (a+len)

theorem Inv.live_addr (hi' : Inv lo hi w bs) {b : Blk} (hb : b ∈ bs) (hf : b.free = false) :
    b.addr+16 ∈ w.live :=
  hi'.live.mem_iff.mpr (List.mem_map.mpr
    ⟨b.addr, List.mem_map.mpr ⟨b, mem_used.mpr ⟨hb, hf⟩, rfl⟩, rfl⟩)

theorem Inv.uncovered_iff (hi' : Inv lo hi w bs) (x : ℕ) :
    Uncovered w lo hi x ↔ ∃ b ∈ bs, b.free = true ∧ b.addr ≤ x ∧ x < b.fin := by
  have ht := hi'.rep.tiles
  constructor
  · rintro ⟨hlo, hhi, hout⟩
    obtain ⟨b, hb, hx⟩ := tiles_cover ht hlo hhi
    refine ⟨b, hb, ?_, hx⟩
    by_contra hf
    rw [Bool.not_eq_true] at hf
    have := hout _ (hi'.live_addr hb hf)
    rw [Nat.add_sub_cancel, hi'.rep.size_eq b hb, mem_range] at this
    rw [Blk.fin] at hx
    omega
  · rintro ⟨b, hb, hf, hx⟩
    obtain ⟨hlo, hhi⟩ := tiles_mem ht hb
    refine ⟨by omega, by omega, fun q hq hin => ?_⟩
    obtain ⟨pre, c, post, rfl, hcf, rfl⟩ := hi'.live_block hq
    have hc : c ∈ pre ++ c::post := by simp
    rw [Nat.add_sub_cancel, hi'.rep.size_eq c hc, mem_range] at hin
    have hsame := tiles_overlap ht hb hc hx ⟨hin.1, by rw [Blk.fin]; omega⟩
    rw [hsame, hcf] at hf
    exact Bool.false_ne_true hf

/-- Neighbours of a free block are live, so its run does not go on behind it. -/
theorem Inv.behind_free (hi' : Inv lo hi w bs) {b : Blk} (hb : b ∈ bs) (hf : b.free = true) :
    ¬Uncovered w lo hi (b.addr+16+b.size) := by
  intro hu
  obtain ⟨c, hc, hcf, hlo, hhi⟩ := (hi'.uncovered_iff _).mp hu
  refine calm_apart hi'.rep.tiles hi'.calm hb hc hf hcf ?_
  by_contra hne
  have hsame := tiles_overlap (x := b.addr+16+b.size-1) hi'.rep.tiles hb hc
    ⟨by omega, by rw [Blk.fin]; omega⟩ ⟨by omega, by omega⟩
  rw [← hsame, Blk.fin] at hhi
  omega

theorem Inv.before_free (hi' : Inv lo hi w bs) {b : Blk} (hb : b ∈ bs) (hf : b.free = true)
    {x : ℕ} (hx : x+1 = b.addr) : ¬Uncovered w lo hi x := by
  intro hu
  obtain ⟨c, hc, hcf, hlo, hhi⟩ := (hi'.uncovered_iff x).mp hu
  refine calm_apart hi'.rep.tiles hi'.calm hc hb hcf hf ?_
  by_contra hne
  rw [Blk.fin] at hhi
  have hsame := tiles_overlap (x := b.addr) hi'.rep.tiles hb hc ⟨le_refl _, by rw [Blk.fin]; omega⟩
    ⟨by omega, by rw [Blk.fin]; omega⟩
  rw [← hsame] at hlo
  omega

/-- The maximal runs are the free blocks. -/
theorem Inv.gap_iff (hi' : Inv lo hi w bs) (a len : ℕ) :
    Gap w lo hi a len ↔ ∃ b ∈ bs, b.free = true ∧ b.addr = a ∧ 16+b.size = len := by
  have hbyte : ∀ b ∈ bs, b.free = true → ∀ x, b.addr ≤ x → x < b.addr+16+b.size →
      Uncovered w lo hi x := fun b hb hf x hlo hhi =>
    (hi'.uncovered_iff x).mpr ⟨b, hb, hf, hlo, hhi⟩
  constructor
  · rintro ⟨hpos, hinside, hleft, hright⟩
    obtain ⟨b, hb, hf, hlo, hhi⟩ := (hi'.uncovered_iff a).mp (hinside a ⟨le_refl a, by omega⟩)
    rw [Blk.fin] at hhi
    have hlow := hi'.rep.low
    have hstart : b.addr = a := by
      by_contra hne
      exact hleft (a-1) (by omega) (hbyte b hb hf _ (by omega) (by omega))
    have hend : b.addr+16+b.size ≤ a+len := by
      by_contra hlt
      exact hright (hbyte b hb hf _ (by omega) (by omega))
    refine ⟨b, hb, hf, hstart, ?_⟩
    by_contra hne
    exact hi'.behind_free hb hf (hinside _ ⟨by omega, by omega⟩)
  · rintro ⟨b, hb, hf, rfl, rfl⟩
    refine ⟨by omega, fun x hx => ?_, fun x hx => hi'.before_free hb hf hx, ?_⟩
    · rw [mem_range] at hx
      exact hbyte b hb hf x hx.1 (by omega)
    · rw [← Nat.add_assoc]
      exact hi'.behind_free hb hf

/-- A request takes the lowest free block that is large enough. -/
theorem Inv.kmalloc_first (hi' : Inv lo hi w bs) {n : ℕ} (hn : n ≠ 0) :
    ((∀ x ∈ bs, x.free = true → x.size < alignUp n 8) ∧
      FirstFitHeap.kmalloc n w.heap = some (0, w.heap)) ∨
    ∃ b h' bs' s, b ∈ bs ∧ b.free = true ∧ alignUp n 8 ≤ b.size ∧
      (∀ x ∈ bs, x.free = true → alignUp n 8 ≤ x.size → b.addr ≤ x.addr) ∧
      FirstFitHeap.kmalloc n w.heap = some (b.addr+16, h') ∧
      Inv lo hi ⟨h', (b.addr+16)::w.live⟩ bs' ∧ alignUp n 8 ≤ s ∧ (used bs').Perm (⟨b.addr, s, false⟩::used bs) := by
  rcases hi'.rep.kmalloc_first hi'.calm hn with
    hnone | ⟨pre, b, post, h', bs', s, rfl, hb, hsmall, hfit, -, heq, hr, hc, hs, hl⟩
  · exact .inl hnone
  · refine .inr ⟨b, h', bs', s, by simp, hb, hfit, fun x hx hf hlarge => ?_, heq, ⟨hr, hc, ?_⟩,
      hs, hl⟩
    · obtain ⟨-, hpost⟩ := (tiles_append _ _ _ _ _).mp hi'.rep.tiles
      rcases List.mem_append.mp hx with hx | hx
      · have := hsmall x hx hf
        omega
      · rcases List.mem_cons.mp hx with rfl | hx
        · exact le_refl _
        · have := (tiles_mem hpost hx).1
          rw [Blk.fin] at this
          omega
    · exact (hi'.live.cons _).trans ((lives_perm hl).map (fun a => a+16)).symm

theorem alignUp_eight {n : ℕ} (hn : n ≤ 2^64-8) : alignUp n 8 = (n+7)/8*8 := by
  have hsum : wrap (n+(8-1)) = n+7 := wrap_of_lt (by omega)
  rw [alignUp, divRoundUp, hsum, wrap_of_lt (by omega)]

theorem alignUp_wraps {n : ℕ} (hn : 2^64-8 < n) (hlt : n < 2^64) : alignUp n 8 = 0 := by
  rw [alignUp, divRoundUp, wrap, wrap]
  omega

/-- After any run a request fails exactly when all maximal runs of bytes
outside the live blocks are too short, and otherwise takes the lowest one that
is long enough. -/
theorem kmalloc_lowest_gap (poolPages pool : ℕ) (m : Mem) (ops : List Op) (hpages : 0 < poolPages)
    (hpool : 4096 ≤ pool) (hfits : pool+4096*poolPages < 2^64)
    (hops : Along (lift step) (Issued Permitted) (some (start poolPages pool m)) ops)
    (n : ℕ) (hn : 0 < n) (hmax : n ≤ 2^64-8) :
    ∃ w p h', run (lift step) (some (start poolPages pool m)) ops = some w ∧
      kmalloc n w.heap = some (p, h') ∧
      (p = 0 ↔ ∀ a len, Gap w pool (pool+4096*poolPages) a len → len < 16+(n+7)/8*8) ∧
      (p ≠ 0 → ∃ a, p = a+16 ∧
        IsLeast {a | ∃ len, Gap w pool (pool+4096*poolPages) a len ∧ 16+(n+7)/8*8 ≤ len} a) := by
  obtain ⟨w, heq, bs, hinv⟩ := reached poolPages pool m ops hpages hpool hfits hops
  rw [← alignUp_eight hmax]
  rcases hinv.kmalloc_first (n := n) (by omega) with
    ⟨hsmall, hnone⟩ | ⟨b, h', -, -, hb, hf, hfit, hleast, hsome, -⟩
  · refine ⟨w, 0, w.heap, heq, hnone, iff_of_true rfl fun a len hgap => ?_, absurd rfl⟩
    obtain ⟨x, hx, hxf, -, rfl⟩ := (hinv.gap_iff a len).mp hgap
    have := hsmall x hx hxf
    omega
  · have hgap := (hinv.gap_iff _ _).mpr ⟨b, hb, hf, rfl, rfl⟩
    refine ⟨w, b.addr+16, h', heq, hsome, ?_, fun _ => ⟨b.addr, rfl, ⟨_, hgap, by omega⟩, ?_⟩⟩
    · refine iff_of_false (by omega) fun hshort => ?_
      have := hshort _ _ hgap
      omega
    · rintro a ⟨len, ha, hlen⟩
      obtain ⟨x, hx, hxf, rfl, rfl⟩ := (hinv.gap_iff a len).mp ha
      exact hleast x hx hxf (by omega)

theorem kmalloc_lowest_gap_small :
    ∃ w p h', run (lift step) (some (start 1 8192 (fun _ => 0)))
        [.kmalloc 24, .kmalloc 8, .kfree 8208] = some w ∧
      kmalloc 40 w.heap = some (p, h') ∧
      (p = 0 ↔ ∀ a len, Gap w 8192 (8192+4096*1) a len → len < 16+(40+7)/8*8) ∧
      (p ≠ 0 → ∃ a, p = a+16 ∧
        IsLeast {a | ∃ len, Gap w 8192 (8192+4096*1) a len ∧ 16+(40+7)/8*8 ≤ len} a) :=
  kmalloc_lowest_gap 1 8192 (fun _ => 0) _ (by decide) (by decide) (by decide)
    (by decide +kernel) 40 (by decide) (by decide)

/-- What a caller relies on: the bytes asked for lie in the pool and in the
payload of the block returned, away from all other blocks and headers. -/
structure Served (w : World) (lo hi n p : ℕ) (h' : Heap) : Prop where
  pool : lo ≤ p ∧ p+n ≤ hi
  payload : n ≤ blockSize h' (p-16)
  header : Disjoint (Range p n) (Range (p-16) 16)
  live : ∀ q ∈ w.live, Disjoint (Range p n) (Range (q-16) (16+blockSize h' (q-16)))
  free : ∃ fs, freeList h' = some fs ∧ ∀ f ∈ fs, Disjoint (Range p n) (Range f.1 (16+f.2))

/-- A block at least as large as the request serves it. -/
theorem Inv.served {p n s : ℕ} {h' : Heap} {bs' : List Blk}
    (hinv : Inv lo hi ⟨h', (p+16)::w.live⟩ bs') (hfresh : p+16 ∉ w.live)
    (hused : (⟨p, s, false⟩ : Blk) ∈ used bs') (hs : n ≤ s) : Served w lo hi n (p+16) h' := by
  have ht := hinv.rep.tiles
  have hmem := (mem_used.mp hused).1
  have hsize : blockSize h' p = s := hinv.rep.size_eq ⟨p, s, false⟩ hmem
  have hspan : lo ≤ p ∧ p+16+s ≤ hi := tiles_mem ht hmem
  have hapart : ∀ d ∈ bs', d ≠ ⟨p, s, false⟩ →
      Disjoint (Range (p+16) n) (Range d.addr (16+d.size)) := by
    intro d hd hne
    refine Set.disjoint_left.mpr fun x hx hxd => hne ?_
    rw [mem_range] at hx hxd
    refine tiles_overlap (x := x) ht hd hmem ⟨hxd.1, by rw [Blk.fin]; omega⟩ ⟨?_, ?_⟩
    · dsimp only
      omega
    · rw [Blk.fin]
      dsimp only
      omega
  refine ⟨by omega, by rwa [Nat.add_sub_cancel, hsize], ?_, fun q hq => ?_, ?_⟩
  · refine Set.disjoint_left.mpr fun x hx hxh => ?_
    rw [mem_range] at hx hxh
    omega
  · obtain ⟨pre, d, post, hbs', -, rfl⟩ := hinv.live_block (List.mem_cons_of_mem _ hq)
    have hd : d ∈ bs' := by simp [hbs']
    rw [Nat.add_sub_cancel, hinv.rep.size_eq d hd]
    refine hapart d hd ?_
    rintro rfl
    exact hfresh hq
  · refine ⟨_, hinv.freeList_eq, fun f hf => ?_⟩
    obtain ⟨d, hd, rfl⟩ := List.mem_map.mp hf
    obtain ⟨hdm, hdf⟩ := List.mem_filter.mp hd
    refine hapart d hdm ?_
    rintro rfl
    exact Bool.false_ne_true hdf

/-- Rounding up a size of at most 2^64-8 does not wrap around. -/
theorem Inv.kmalloc_serves (hi' : Inv lo hi w bs) {n p : ℕ} {h' : Heap} (hn : n ≠ 0)
    (hmax : n ≤ 2^64-8) (heq : FirstFitHeap.kmalloc n w.heap = some (p, h')) (hp : p ≠ 0) :
    Served w lo hi n p h' := by
  rcases hi'.kmalloc_first hn with ⟨-, hnone⟩ | ⟨b, h'', bs', s, -, -, -, -, hsome, hinv', hs, hl⟩
  · rw [hnone] at heq
    exact absurd (Prod.mk.inj (Option.some.inj heq)).1.symm hp
  · rw [hsome] at heq
    obtain ⟨rfl, rfl⟩ := Prod.mk.inj (Option.some.inj heq)
    obtain ⟨hfresh, -⟩ := hi'.kmalloc_fresh hsome hp
    rw [alignUp_eight hmax] at hs
    exact hinv'.served hfresh (hl.mem_iff.mpr List.mem_cons_self) (by omega)

/-- An empty list means that no block is free. -/
theorem Inv.freelist_zero (hi' : Inv lo hi w bs) :
    w.heap.freelist = 0 ↔ ∀ x ∈ bs, x.free = false := by
  have hlinks := hi'.rep.links
  constructor
  · intro hzero x hx
    by_contra hf
    have hin : x.addr ∈ frees bs :=
      List.mem_map.mpr ⟨x, List.mem_filter.mpr ⟨hx, by simpa using hf⟩, rfl⟩
    cases hfs : frees bs with
    | nil =>
      rw [hfs] at hin
      exact List.not_mem_nil hin
    | cons f fs =>
      rw [hfs] at hlinks
      have hfirst : w.heap.freelist = f := hlinks.1
      have hnull := (List.nodup_cons.mp hi'.rep.nodup).1
      rw [hfs, ← hfirst, hzero] at hnull
      exact hnull List.mem_cons_self
  · intro hnone
    have hempty : frees bs = [] := by
      rw [List.eq_nil_iff_forall_not_mem]
      intro a ha
      obtain ⟨x, hx, hf, -⟩ := mem_frees ha
      rw [hnone x hx] at hf
      exact Bool.false_ne_true hf
    rw [hempty] at hlinks
    exact hlinks

/-- After any run, what `kmalloc` returns serves the request exactly when
rounding the size up does not wrap around or no block is free. -/
theorem kmalloc_served_iff (poolPages pool : ℕ) (m : Mem) (ops : List Op) (hpages : 0 < poolPages)
    (hpool : 4096 ≤ pool) (hfits : pool+4096*poolPages < 2^64)
    (hops : Along (lift step) (Issued Permitted) (some (start poolPages pool m)) ops)
    (n : ℕ) (hn : 0 < n) (hword : n < 2^64) :
    ∃ w, run (lift step) (some (start poolPages pool m)) ops = some w ∧
      ((∀ p h', kmalloc n w.heap = some (p, h') → p ≠ 0 →
        Served w pool (pool+4096*poolPages) n p h') ↔ n ≤ 2^64-8 ∨ w.heap.freelist = 0) := by
  obtain ⟨w, heq, bs, hinv⟩ := reached poolPages pool m ops hpages hpool hfits hops
  refine ⟨w, heq, ?_⟩
  rcases hinv.kmalloc_first (n := n) (by omega) with
    ⟨hsmall, hnone⟩ | ⟨b, h', -, -, hb, hf, -, -, hsome, -⟩
  · refine iff_of_true (fun p h' hk hp => ?_) ?_
    · rw [hnone] at hk
      exact absurd (Prod.mk.inj (Option.some.inj hk)).1.symm hp
    · by_cases hmax : n ≤ 2^64-8
      · exact .inl hmax
      · rw [alignUp_wraps (by omega) hword] at hsmall
        refine .inr (hinv.freelist_zero.mpr fun x hx => ?_)
        by_contra hxf
        exact Nat.not_lt_zero _ (hsmall x hx (by simpa using hxf))
  · constructor
    · intro hserved
      have hpool' := (hserved _ _ hsome (by omega)).pool
      left
      omega
    · rintro (hmax | hzero) p h'' hk hp
      · exact hinv.kmalloc_serves (by omega) hmax hk hp
      · rw [hinv.freelist_zero.mp hzero b hb] at hf
        exact absurd hf Bool.false_ne_true

theorem kmalloc_served_iff_small :
    ∃ w, run (lift step) (some (start 1 8192 (fun _ => 0))) [.kmalloc 24] = some w ∧
      ((∀ p h', kmalloc 40 w.heap = some (p, h') → p ≠ 0 →
        Served w 8192 (8192+4096*1) 40 p h') ↔ 40 ≤ 2^64-8 ∨ w.heap.freelist = 0) :=
  kmalloc_served_iff 1 8192 (fun _ => 0) _ (by decide) (by decide) (by decide)
    (by decide +kernel) 40 (by decide) (by decide)

/-- A request for all of the address space gets the first block of the pool. -/
theorem kmalloc_huge_granted :
    ∃ h', kmalloc (2^64-1) (start 1 8192 (fun _ => 0)).heap = some (8208, h') ∧
      ¬Served (start 1 8192 (fun _ => 0)) 8192 (8192+4096*1) (2^64-1) 8208 h' := by
  have hgrant : (kmalloc (2^64-1) (start 1 8192 (fun _ => 0)).heap).map Prod.fst = some 8208 := by
    decide +kernel
  obtain ⟨⟨p, h'⟩, hk, hp⟩ := Option.map_eq_some_iff.mp hgrant
  obtain rfl : p = 8208 := hp
  refine ⟨h', hk, fun hs => ?_⟩
  have := hs.pool
  omega

end Emk.HeapRuns
