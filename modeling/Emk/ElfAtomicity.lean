import Emk.ElfFootprint
import Emk.VmmAtomicity

/-!
# A failed load

When a segment is refused, `elf_load` gives back the frames of that segment.
The segments before it stay in the region list and in the page map, and so
does a segment at address zero, whose region `vadd` makes but reports as
`NULL`. A failed load therefore leaves no trace only if nothing came before.
-/

set_option autoImplicit false

namespace Emk.Elf
open Emk.ByteMemory Emk.MachineWord Emk.DirectMap Emk.PageAllocator Emk.Paging Emk.Vmm
open Emk.PagingForest Emk.LinkedPath Emk.VmmAtomicity Emk.ReferenceAllocator
open Emk.VmmTenants (palloc_tables)

variable {σ : Type} {A : Ops σ} {hhdmOffset ctx : ℕ} {user : Bool} {data : Image}
  {s s₁ s₂ : State σ} {nodes : List ℕ}

/-- Nowhere along the old list does the list of now continue as the old one did. -/
def Moved (ctx : ℕ) (s : State σ) (nodes : List ℕ) (s₁ : State σ) : Prop :=
  ∀ pre y post, nodes = pre ++ y::post →
    ¬ ((s₁.ctxs ctx).root = y ∧ ∀ x ∈ y::post, (s₁.regions x).next = (s.regions x).next)

/-- The links of a list that a region is pushed onto, whatever its node. -/
theorem pushRegion_next (hroot : (s₁.ctxs ctx).root ≠ 0) (vaddr pages flags new y : ℕ) :
    ((pushRegion ctx vaddr pages flags new s₁).regions y).next =
      if y = new then (s₁.ctxs ctx).root else (s₁.regions y).next := by
  simp only [pushRegion, setRegion, setRoot, if_neg hroot, Function.update_apply]
  split_ifs <;> simp_all

/-- A region pushed onto a list that has moved. -/
theorem Moved.push (h : Moved ctx s nodes s₁) (hl : Listed s ctx nodes)
    (hroot : (s₁.ctxs ctx).root ≠ 0) (vaddr pages flags new : ℕ) :
    Moved ctx s nodes (pushRegion ctx vaddr pages flags new s₁) := by
  rintro pre y post rfl ⟨hy, hnext⟩
  rw [pushRegion_ctx] at hy
  obtain rfl : new = y := hy
  have hpushed := pushRegion_next hroot vaddr pages flags new
  have hlink := (path_append.mp hl.path).2
  have hnew0 : new ≠ 0 := hl.nonzero (by simp)
  have hstep : link s ctx new = (s₁.ctxs ctx).root := by
    rw [link_node hnew0, ← hnext new (by simp), hpushed, if_pos rfl]
  cases post with
  | nil => exact hroot (hstep.symm.trans hlink)
  | cons z zs =>
    refine h (pre ++ [new]) z zs (by simp) ⟨hstep.symm.trans hlink.1, fun x hx => ?_⟩
    have hxn : x ≠ new := by
      rintro rfl
      have hnodup := (List.nodup_cons.mp hl.nodup).2
      exact (List.nodup_cons.mp (List.nodup_append.mp hnodup).2.1).1 hx
    rw [← hnext x (List.mem_cons_of_mem new hx), hpushed, if_neg hxn]

/-- The records are those of before, or one region was pushed. -/
def Pushed (ctx : ℕ) (s s' : State σ) : Prop :=
  (∃ p, s' = { s with phys := p }) ∨ (s.ctxs ctx).root ≠ 0 ∧ ∃ vaddr pages flags new p,
    s' = { pushRegion ctx vaddr pages flags new s with phys := p }

theorem Pushed.phys (h : Pushed ctx s s₁) (p : Phys σ) : Pushed ctx s { s₁ with phys := p } := by
  rcases h with ⟨q, rfl⟩ | ⟨hroot, vaddr, pages, flags, new, q, rfl⟩
  · exact .inl ⟨p, rfl⟩
  · exact .inr ⟨hroot, vaddr, pages, flags, new, p, rfl⟩

theorem Moved.pushed (h : Moved ctx s nodes s₁) (hl : Listed s ctx nodes)
    (hp : Pushed ctx s₁ s₂) : Moved ctx s nodes s₂ := by
  rcases hp with ⟨p, rfl⟩ | ⟨hroot, vaddr, pages, flags, new, p, rfl⟩
  · exact h
  · exact h.push hl hroot vaddr pages flags new

section Load
variable {D : Layout} {roots : Set ℕ} {shared : Set (Fin 512)} {pm : ℕ}

/-- The frames of a segment, its range or its region node are refused. -/
def Refused (A : Ops σ) (ctx : ℕ) (ph : ElfPheader) (s : State σ) : Prop :=
  (A.palloc (segmentPages ph) false s.phys).1 = 0 ∨ (s.ctxs ctx).root = 0 ∨
    (∃ x ∈ regionNodes s ctx, Overlaps (segmentStart ph)
      (wrap (segmentStart ph+4096*segmentPages ph)) (s.regions x)) ∨
    (A.palloc 1 true (A.palloc (segmentPages ph) false s.phys).2).1 = 0

variable (T : TightContract D A) (hc : CtxOwned T.toContract roots shared ctx pm s nodes)
  (hpm : pm ∈ roots)
include hc hpm

end Load

end Emk.Elf
