import Emk.DirectMap

/-!
# The first-fit kernel heap

`mm/heap/ff.c`. A block is a header of sixteen bytes, its size and its link,
followed by the payload. The free list is threaded through the links of free
blocks. Loops that follow links are given 2^64 rounds: a walk that is still
going after that many nodes has met one of them twice and never ends.
-/

set_option autoImplicit false

namespace Emk.FirstFitHeap
open Emk.ByteMemory Emk.MachineWord Emk.DirectMap

structure Heap where
  mem : Mem
  pool : ℕ
  freelist : ℕ

def rounds : ℕ := 2^64

def blockSize (h : Heap) (b : ℕ) : ℕ := load64 h.mem b

def blockNext (h : Heap) (b : ℕ) : ℕ := load64 h.mem (b+8)

def setSize (h : Heap) (b v : ℕ) : Heap := { h with mem := store64 h.mem b v }

def setNext (h : Heap) (b v : ℕ) : Heap := { h with mem := store64 h.mem (b+8) v }

/-- A place that holds a link: the variable `freelist`, written `0`, or the
`next` field of a block. -/
def slot (h : Heap) (b : ℕ) : ℕ := if b = 0 then h.freelist else blockNext h b

def setSlot (h : Heap) (b v : ℕ) : Heap := if b = 0 then { h with freelist := v } else setNext h b v

/-- `heap_init` after its pool of `poolPages` pages has been allocated. -/
def heapInit (poolPages pool : ℕ) (m : Mem) : Heap :=
  setNext (setSize ⟨m, pool, pool⟩ pool (4096*poolPages-16)) pool 0

/-- The branch of `kmalloc` that uses the block `cur`. -/
def takeBlock (size : ℕ) (h : Heap) (prev cur : ℕ) : ℕ × Heap :=
  let totSize := wrap (16+size)
  if blockSize h cur ≥ alignUp (wrap (totSize+16)) 8 then
    let newBlock := wrap (cur+totSize)
    let h := setSize h newBlock (wrap (blockSize h cur+2^64-totSize))
    let h := setNext h newBlock (blockNext h cur)
    let h := setSize h cur size
    (wrap (cur+16), setSlot h prev newBlock)
  else (wrap (cur+16), setSlot h prev (blockNext h cur))

def kmallocLoop (size : ℕ) (h : Heap) : ℕ → ℕ → ℕ → Option (ℕ × Heap)
  | 0, _, _ => none
  | fuel+1, prev, cur =>
    if cur = 0 then some (0, h)
    else if blockSize h cur ≥ size then some (takeBlock size h prev cur)
    else kmallocLoop size h fuel cur (blockNext h cur)

def kmalloc (size : ℕ) (h : Heap) : Option (ℕ × Heap) :=
  if size = 0 then some (0, h)
  else kmallocLoop (alignUp size 8) h rounds 0 h.freelist

def findSlot (h : Heap) (block : ℕ) : ℕ → ℕ → Option ℕ
  | 0, _ => none
  | fuel+1, cur =>
    if slot h cur ≠ 0 ∧ slot h cur < block then findSlot h block fuel (slot h cur) else some cur

def findPrev (h : Heap) (block : ℕ) : ℕ → ℕ → Option ℕ
  | 0, _ => none
  | fuel+1, prev =>
    if blockNext h prev ≠ block then findPrev h block fuel (blockNext h prev) else some prev

/-- Absorb the block `next` into the block `b` right before it. -/
def absorb (h : Heap) (b next : ℕ) : Heap :=
  let h := setSize h b (wrap (blockSize h b+(16+blockSize h next)))
  setNext h b (blockNext h next)

def coalesceNext (h : Heap) (block : ℕ) : Heap :=
  if blockNext h block ≠ 0 ∧ wrap (block+16+blockSize h block) = blockNext h block then
    absorb h block (blockNext h block)
  else h

def coalescePrev (h : Heap) (prev block : ℕ) : Heap :=
  if wrap (prev+16+blockSize h prev) = block then absorb h prev block else h

def kfree (ptr : ℕ) (h : Heap) : Option Heap :=
  if ptr = 0 then some h
  else
    let block := wrap (ptr+2^64-16)
    (findSlot h block rounds 0).bind fun cur =>
      let h := setNext h block (slot h cur)
      let h := setSlot h cur block
      let h := coalesceNext h block
      if cur ≠ 0 then (findPrev h block rounds h.freelist).map fun prev => coalescePrev h prev block
      else some h

end Emk.FirstFitHeap
