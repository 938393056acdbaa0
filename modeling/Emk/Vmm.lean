import Emk.Paging

/-!
# Virtual contexts and their regions

`mm/vmm.c`. A context owns a list of regions that starts at `root` and is
linked by `next` and `prev`. Contexts and region nodes live in pages of their
own, which the page allocator hands out zeroed; they are kept here as records
at their addresses, next to the memory that holds page tables and frames.
-/

set_option autoImplicit false

namespace Emk.Vmm
open Emk.ByteMemory Emk.MachineWord Emk.DirectMap Emk.PageAllocator Emk.Paging

def vallocRead : ℕ := 1 <<< 0
def vallocWrite : ℕ := 1 <<< 1
def vallocExec : ℕ := 1 <<< 2
def vallocUser : ℕ := 1 <<< 3

def vflagsToPflags (flags : ℕ) : ℕ :=
  vmmPresent ||| (if flags &&& vallocWrite ≠ 0 then vmmWrite else 0) |||
    (if flags &&& vallocUser ≠ 0 then vmmUser else 0) |||
    (if flags &&& vallocExec ≠ 0 then 0 else vmmNx)

structure Vregion where
  start : ℕ
  pages : ℕ
  flags : ℕ
  next : ℕ
  prev : ℕ
  deriving DecidableEq, Repr

structure Vctx where
  root : ℕ
  pagemap : ℕ
  start : ℕ
  deriving DecidableEq, Repr

structure State (σ : Type) where
  phys : Phys σ
  regions : ℕ → Vregion
  ctxs : ℕ → Vctx

def regionEnd (r : Vregion) : ℕ := wrap (r.start+4096*r.pages)

def rounds : ℕ := 2^64

variable {σ : Type}

def setRegion (s : State σ) (p : ℕ) (r : Vregion) : State σ :=
  { s with regions := Function.update s.regions p r }

def setRoot (s : State σ) (ctx root : ℕ) : State σ :=
  { s with ctxs := Function.update s.ctxs ctx { s.ctxs ctx with root := root } }

variable (A : Ops σ) (hhdmOffset kernelPagemap : ℕ)

def vinit (pm start : ℕ) (s : State σ) : ℕ × State σ :=
  let c := A.palloc 1 true s.phys
  if c.1 = 0 then (0, { s with phys := c.2 })
  else
    let r := A.palloc 1 true c.2
    if r.1 = 0 then (0, { s with phys := A.pfree c.1 1 r.2 })
    else (c.1, ⟨r.2, Function.update s.regions r.1 ⟨start, 0, 0, 0, 0⟩,
      Function.update s.ctxs c.1 ⟨r.1, pm, 0⟩⟩)

def vdestroyLoop (regions : ℕ → Vregion) : ℕ → ℕ → Phys σ → Option (Phys σ)
  | 0, _, _ => none
  | fuel+1, region, s =>
    if region = 0 then some s
    else vdestroyLoop regions fuel (regions region).next (A.pfree region 1 s)

def vdestroy (ctx : ℕ) (s : State σ) : Option (State σ) :=
  if (s.ctxs ctx).root = 0 ∨ (s.ctxs ctx).pagemap = 0 then some s
  else (vdestroyLoop A s.regions rounds (s.ctxs ctx).root s.phys).map fun p =>
    { s with phys := A.pfree ctx 1 p }

/-- The first region that is the last one or meets the test against its
successor; `0` when the list ends before. -/
def findRegion (regions : ℕ → Vregion) (test : Vregion → Vregion → Prop)
    [∀ r n, Decidable (test r n)] : ℕ → ℕ → Option ℕ
  | 0, _ => none
  | fuel+1, region =>
    if region = 0 then some 0
    else if (regions region).next = 0 ∨ test (regions region) (regions (regions region).next) then
      some region
    else findRegion regions test fuel (regions region).next

/-- Fill in the node `new` and link it behind `region`. -/
def insertAfter (region next pages flags new : ℕ) (s : State σ) : State σ :=
  let s := setRegion s new ⟨0, pages, vflagsToPflags flags, 0, 0⟩
  let s := setRegion s new { s.regions new with
    start := regionEnd (s.regions region), next := next, prev := region }
  setRegion s region { s.regions region with next := new }

/-- Map `n` pages from index `i` on to the pages that `page` delivers. -/
def fillRegion (page : ℕ → Phys σ → ℕ × Phys σ) (pagemap start flags : ℕ) :
    ℕ → ℕ → Phys σ → Bool × Phys σ
  | 0, _, s => (true, s)
  | n+1, i, s =>
    let r := page i s
    if r.1 = 0 then (false, r.2)
    else fillRegion page pagemap start flags n (i+1)
      (vmap A hhdmOffset pagemap (wrap (start+4096*i)) r.1 flags r.2).2

/-- The common part of `valloc` and `vallocat`. -/
def placeRegion (test : Vregion → Vregion → Prop) [∀ r n, Decidable (test r n)]
    (page : ℕ → Phys σ → ℕ × Phys σ) (ctx pages flags : ℕ) (s : State σ) : Option (ℕ × State σ) :=
  if ctx = 0 ∨ (s.ctxs ctx).root = 0 ∨ (s.ctxs ctx).pagemap = 0 then some (0, s)
  else (findRegion s.regions test rounds (s.ctxs ctx).root).map fun region =>
    let r := A.palloc 1 true s.phys
    let s := { s with phys := r.2 }
    if r.1 = 0 then (0, s)
    else
      let at' := if region = 0 then (s.ctxs ctx).root else region
      let next := if region = 0 then 0 else (s.regions region).next
      let s := insertAfter at' next pages flags r.1 s
      let new := s.regions r.1
      let f := fillRegion A hhdmOffset page (s.ctxs ctx).pagemap new.start new.flags pages 0 s.phys
      (if f.1 then new.start else 0, { s with phys := f.2 })

def holeBehind (r n : Vregion) : Prop := regionEnd r < n.start

instance decidableHoleBehind (r n : Vregion) : Decidable (holeBehind r n) :=
  inferInstanceAs (Decidable (regionEnd r < n.start))

def valloc (ctx pages flags : ℕ) (s : State σ) : Option (ℕ × State σ) :=
  placeRegion A hhdmOffset holeBehind (fun _ => A.palloc 1 false) ctx pages flags s

def vallocat (ctx pages flags phys : ℕ) (s : State σ) : Option (ℕ × State σ) :=
  placeRegion A hhdmOffset (fun r n => wrap (r.start+4096*pages) < n.start)
    (fun i p => (wrap (alignDown phys 4096+4096*i), p)) ctx pages flags s

def Overlaps (vaddr vend : ℕ) (r : Vregion) : Prop :=
  (vaddr ≥ r.start ∧ vaddr < regionEnd r) ∨ (vend > r.start ∧ vend ≤ regionEnd r) ∨
    (vaddr ≤ r.start ∧ vend ≥ regionEnd r)

instance decidableOverlaps (vaddr vend : ℕ) (r : Vregion) : Decidable (Overlaps vaddr vend r) :=
  inferInstanceAs (Decidable (_ ∨ _))

def anyOverlap (regions : ℕ → Vregion) (vaddr vend : ℕ) : ℕ → ℕ → Option Bool
  | 0, _ => none
  | fuel+1, region =>
    if region = 0 then some false
    else if Overlaps vaddr vend (regions region) then some true
    else anyOverlap regions vaddr vend fuel (regions region).next

def mapPages (pagemap vaddr paddr flags : ℕ) : ℕ → ℕ → Phys σ → Phys σ
  | 0, _, s => s
  | n+1, i, s => mapPages pagemap vaddr paddr flags n (i+1)
      (vmap A hhdmOffset pagemap (wrap (vaddr+4096*i)) (wrap (paddr+4096*i)) flags s).2

/-- Fill in the node `new` and make it the first region. -/
def pushRegion (ctx vaddr pages flags new : ℕ) (s : State σ) : State σ :=
  let s := setRegion s new ⟨vaddr, pages, vflagsToPflags flags, 0, 0⟩
  let root := (s.ctxs ctx).root
  let s := setRegion s new { s.regions new with next := root }
  let s := if root = 0 then s else setRegion s root { s.regions root with prev := new }
  setRoot s ctx new

def vadd (ctx vaddr paddr pages flags : ℕ) (s : State σ) : Option (ℕ × State σ) :=
  if ctx = 0 ∨ (s.ctxs ctx).root = 0 ∨ (s.ctxs ctx).pagemap = 0 then some (0, s)
  else
    let vaddr := alignDown vaddr 4096
    let paddr := alignDown paddr 4096
    let vend := wrap (vaddr+4096*pages)
    (anyOverlap s.regions vaddr vend rounds (s.ctxs ctx).root).map fun taken =>
      if taken then (0, s)
      else
        let r := A.palloc 1 true s.phys
        let s := { s with phys := r.2 }
        if r.1 = 0 then (0, s)
        else
          let s := pushRegion ctx vaddr pages flags r.1 s
          let pagemap := (s.ctxs ctx).pagemap
          let flags := (s.regions r.1).flags
          (vaddr, { s with phys := mapPages A hhdmOffset pagemap vaddr paddr flags pages 0 s.phys })

def findStart (regions : ℕ → Vregion) (ptr : ℕ) : ℕ → ℕ → Option ℕ
  | 0, _ => none
  | fuel+1, region =>
    if region = 0 ∨ (regions region).start = ptr then some region
    else findStart regions ptr fuel (regions region).next

/-- Give back and unmap the pages of a region, as far as the kernel's page
map knows them. -/
def releasePages (pagemap start : ℕ) : ℕ → ℕ → Phys σ → Phys σ
  | 0, _, s => s
  | n+1, i, s =>
    let virt := wrap (start+4096*i)
    let phys := virtToPhys hhdmOffset s.mem kernelPagemap virt
    releasePages pagemap start n (i+1)
      (if phys ≠ 0 then (vunmap hhdmOffset pagemap virt (A.pfree phys 1 s)).2 else s)

def unlinkRegion (ctx region prev next : ℕ) (s : State σ) : State σ :=
  let s := if prev ≠ 0 then setRegion s prev { s.regions prev with next := next } else s
  let s := if next ≠ 0 then setRegion s next { s.regions next with prev := prev } else s
  if region = (s.ctxs ctx).root then setRoot s ctx next else s

def vfree (ctx ptr : ℕ) (s : State σ) : Option (State σ) :=
  if ctx = 0 then some s
  else (findStart s.regions ptr rounds (s.ctxs ctx).root).map fun region =>
    if region = 0 then s
    else
      let r := s.regions region
      let phys := releasePages A hhdmOffset kernelPagemap (s.ctxs ctx).pagemap r.start
        r.pages 0 s.phys
      let s := unlinkRegion ctx region r.prev r.next { s with phys := phys }
      { s with phys := A.pfree region 1 s.phys }

def vgetLoop (regions : ℕ → Vregion) (vaddr : ℕ) : ℕ → ℕ → Option ℕ
  | 0, _ => none
  | fuel+1, region =>
    if region = 0 ∨ (vaddr ≥ (regions region).start ∧ vaddr < regionEnd (regions region)) then
      some region
    else vgetLoop regions vaddr fuel (regions region).next

def vget (ctx vaddr : ℕ) (s : State σ) : Option ℕ :=
  if ctx = 0 ∨ (s.ctxs ctx).root = 0 then some 0
  else vgetLoop s.regions vaddr rounds (s.ctxs ctx).root

end Emk.Vmm
