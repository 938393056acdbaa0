import Emk.HeapFrame
import Emk.StringLib
import Emk.Tokens

/-!
# Options on the kernel command line

`get_key` of `emk.c`. The command line is scanned for a token of the form
`key=value`; the value is copied into a block of the heap.
-/

set_option autoImplicit false

namespace Emk.CommandLine
open Emk.ByteMemory Emk.MachineWord Emk.FirstFitHeap Emk.Calls Emk.ReadLog Emk.StringLib
open Emk.HeapBlocks Emk.HeapRuns Emk.Tokens Emk.Transition

def space : UInt8 := 32
variable {α : Type}

section Scanning
variable {h : Heap} {m : Mem} {R : Set ℕ} {a key : ℕ} {cs ks w rest : List UInt8}

end Scanning

section Copying
variable {w : World} {lo hi a p : ℕ} {R : Set ℕ} {bs : List Blk} {v rest : List UInt8}

/-- A byte that the heap does not use for itself: outside the pool or in the
payload of a live block. -/
def Usable (w : World) (lo hi x : ℕ) : Prop :=
  x < lo ∨ hi ≤ x ∨ ∃ q ∈ w.live, x ∈ Range q (blockSize w.heap (q-16))

theorem usable_outside_free (hi' : Inv lo hi w bs) {x : ℕ} (hx : Usable w lo hi x) :
    ∀ d ∈ bs, d.free = true → x ∉ Range d.addr (16+d.size) := by
  intro d hd hf hin
  have hspan := tiles_mem hi'.rep.tiles hd
  rw [mem_range] at hin
  rw [Blk.fin] at hspan
  rcases hx with hlow | hhigh | ⟨q, hq, hpay⟩
  · omega
  · omega
  · obtain ⟨pre, c, post, hbs, hlive, rfl⟩ := hi'.live_block hq
    have hc : c ∈ bs := by simp [hbs]
    rw [Nat.add_sub_cancel, hi'.rep.size_eq c hc, mem_range] at hpay
    refine hi'.outside_free hc hlive (x := x) (by omega) (by rw [Blk.fin]; omega) d hd hf ?_
    rwa [mem_range]

theorem usable_outside_block (hi' : Inv lo hi w bs) {n x : ℕ} {h' : Heap}
    (heq : kmalloc n w.heap = some (p, h')) (hserved : Served w lo hi n p h')
    (hx : Usable w lo hi x) : x ∉ Range p n := by
  intro hin
  have hpool := hserved.pool
  rcases hx with hlow | hhigh | ⟨q, hq, hpay⟩
  · rw [mem_range] at hin
    omega
  · rw [mem_range] at hin
    omega
  · obtain ⟨p', h'', heq', hkept⟩ := hi'.kmalloc_keeps n
    obtain ⟨rfl, rfl⟩ := Prod.mk.inj (Option.some.inj (heq.symm.trans heq'))
    have hsize : blockSize h' (q-16) = blockSize w.heap (q-16) :=
      load_congr _ _ _ 8 (hkept q hq).size
    refine Set.disjoint_left.mp (hserved.live q hq) hin ?_
    rw [hsize]
    rw [mem_range] at hpay ⊢
    omega

/-- The pool starts with a header, which splits the usable bytes. -/
theorem usable_short (hi' : Inv lo hi w bs) (hroom : lo+4096 ≤ hi) {n : ℕ} (hn : a+n ≤ 2^64)
    (hx : ∀ x ∈ Range a n, Usable w lo hi x) : n ≤ 2^64-8 := by
  have hhigh := hi'.rep.high
  by_contra hlong
  have hlo := hx lo (by rw [mem_range]; have := hi'.rep.low; omega)
  rcases hlo with hlow | hge | ⟨q, hq, hpay⟩
  · omega
  · omega
  · obtain ⟨pre, c, post, hbs, -, rfl⟩ := hi'.live_block hq
    have hspan := tiles_mem hi'.rep.tiles (b := c) (by simp [hbs])
    rw [mem_range] at hpay
    omega

/-- What a request does for `n` usable bytes at `a`: the block at `p` lies away
from them and none of them has changed. -/
structure Granted (w : World) (h' : Heap) (p a n : ℕ) : Prop where
  fits : p+n < 2^64
  apart : ∀ x ∈ Range a n, x ∉ Range p n
  kept : Set.EqOn h'.mem w.heap.mem (Range a n)

theorem granted (hi' : Inv lo hi w bs) (hroom : lo+4096 ≤ hi) {n : ℕ} (hn : n ≠ 0)
    (hend : a+n ≤ 2^64) (husable : ∀ x ∈ Range a n, Usable w lo hi x) {h' : Heap}
    (heq : kmalloc n w.heap = some (p, h')) (hp : p ≠ 0) : Granted w h' p a n := by
  have hserved := hi'.kmalloc_serves hn (usable_short hi' hroom hend husable) heq hp
  have hpool := hserved.pool
  have hhigh := hi'.rep.high
  refine ⟨by omega, fun x hx => ?_, fun x hx => ?_⟩
  · exact usable_outside_block hi' heq hserved (husable x hx)
  · exact hi'.kmalloc_mem heq (usable_outside_free hi' (husable x hx))

end Copying

end Emk.CommandLine
