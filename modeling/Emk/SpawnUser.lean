import Emk.ElfFaithful
import Emk.PagingShare
import Emk.SpawnFrame

/-!
# What user code reaches in a spawned process

`sched_spawn` hands its page flags to `valloc`, which reads them as flags of
its own: the bit for user access means executable there. The stack of a user
process is therefore no user memory, unless the kernel's mappings, which do
carry the bit, are copied over it. Either way user and kernel memory are not
kept apart.
-/

set_option autoImplicit false

namespace Emk.SpawnUser
open Emk.ByteMemory Emk.MachineWord Emk.DirectMap Emk.PageAllocator Emk.Paging Emk.Vmm Emk.Elf
open Emk.PagingForest Emk.Sched Emk.ReferenceAllocator

/-- User code gets at the page behind this entry. -/
def UserEntry (e : ℕ) : Prop := e &&& vmmPresent ≠ 0 ∧ e &&& vmmUser ≠ 0

instance decidableUserEntry (e : ℕ) : Decidable (UserEntry e) :=
  inferInstanceAs (Decidable (_ ∧ _))

/-- The pages of the loadable segments. -/
def imagePages (data : Image) : Set ℕ :=
  {q | ∃ ph ∈ pheaders data, ph.pType = ptLoad ∧ q ∈ pagesOf (segmentStart ph) 0 (segmentPages ph)}

variable {σ : Type} {D : Layout} {A : Ops σ} {R : RunContract D A} {roots : Set ℕ}
  {shared : Set (Fin 512)} {K P kvm ctx : ℕ} {kvmNodes own : List ℕ} {s s' : State σ}

/-- The context of a process next to the kernel's. -/
structure Guest (R : RunContract D A) (roots : Set ℕ) (shared : Set (Fin 512)) (kvm K ctx P : ℕ)
    (s : State σ) (kvmNodes own : List ℕ) : Prop where
  kernel : CtxOwned R.toContract roots shared kvm K s kvmNodes
  process : CtxOwned R.toContract roots shared ctx P s own
  ne : ctx ≠ kvm
  apart : own.Disjoint kvmNodes

theorem pushRegion_others {vaddr pages flags new : ℕ} (s : State σ) (hne : ctx ≠ kvm) :
    (pushRegion ctx vaddr pages flags new s).ctxs kvm = s.ctxs kvm := by
  by_cases h0 : (s.ctxs ctx).root = 0 <;>
    simp [pushRegion, setRegion, setRoot, h0, Function.update_of_ne hne.symm]

/-- A segment that is loaded leaves the kernel's context alone. -/
theorem Guest.segment (h : Guest R roots shared kvm K ctx P s kvmNodes own) (hctx : ctx ≠ 0)
    (hP : P ∈ roots) {ph : ElfPheader} {user : Bool} {data : Image}
    (hfit : ph.pType = ptLoad → FileFits ph)
    (hok : loadSegment A D.hhdmOffset user data ctx ph s = some (.ok (), s')) :
    ∃ own', Guest R roots shared kvm K ctx P s' kvmNodes own' ∧
      R.owned s.phys ⊆ R.owned s'.phys ∧ ∀ x ∈ kvmNodes, s'.regions x = s.regions x := by
  by_cases hload : ph.pType = ptLoad
  swap
  · rw [loadSegment, if_pos hload] at hok
    obtain rfl := (Prod.mk.inj (Option.some.inj hok)).2
    exact ⟨own, h, subset_rfl, fun _ _ => rfl⟩
  have hf := h.process.forest
  have hpm : (s.ctxs ctx).pagemap ∈ roots := h.process.pagemap ▸ hP
  have hq := pallocRun_quiet (R := R) hf (segmentPages ph) false
  have hfresh := (h.process.phys hq.forest hq.owned).fresh
  have hkernel := (h.kernel.phys hq.forest hq.owned).fresh
  rcases loadSegment_cases D.hhdmOffset user data h.process.listed hctx hload hfresh with
    ⟨-, ho⟩ | ⟨-, -, ho⟩ | ⟨-, -, ho⟩ | ⟨-, -, -, -, -, -, ho⟩ |
      ⟨hr0, hn0, hne, -, -, ho⟩
  all_goals rw [ho] at hok
  iterate 4 exact absurd (Prod.mk.inj (Option.some.inj hok)).1 (by simp)
  obtain rfl := (Prod.mk.inj (Option.some.inj hok)).2
  obtain ⟨hpush, -, howned, -, -⟩ :=
    segment_pushed user data h.process hP (.inr (hfit hload)) hr0 hn0 hne rfl
  have hroot : (A.palloc 1 true (A.palloc (segmentPages ph) false s.phys).2).1 ≠
      (s.ctxs ctx).root := fun he => hfresh (he ▸ h.process.listed.root_mem hne)
  have hgrow := (mappedPhys_range (A := A) user hf hpm ph).owned
  rw [← howned] at hgrow
  have hsame : ∀ x ∈ kvmNodes, (pushRegion ctx (segmentStart ph) (segmentPages ph)
      (segmentFlags user ph) (A.palloc 1 true (A.palloc (segmentPages ph) false s.phys).2).1
      s).regions x = s.regions x := by
    intro x hx
    have hxn : x ≠ (A.palloc 1 true (A.palloc (segmentPages ph) false s.phys).2).1 :=
      fun he => hkernel (he ▸ hx)
    have hxr : x ≠ (s.ctxs ctx).root := fun he => h.apart (h.process.listed.root_mem hne) (he ▸ hx)
    rw [pushRegion_region _ _ _ _ hroot, if_neg hxn, if_neg (fun he => hxr he.1)]
  refine ⟨_, ⟨h.kernel.unchanged hpush.forest hgrow (pushRegion_others s h.ne) hsame, hpush, h.ne,
    ?_⟩, hgrow, hsame⟩
  intro x hx hxk
  rcases List.mem_cons.mp hx with rfl | hx
  · exact hkernel hxk
  · exact h.apart hx hxk

section Spawn
variable {cpu start entry : ℕ} {user : Bool} {data : Image} {k k' : Kernel σ} {p₁ : Phys σ}
  {v v₁ v₂ : State σ}

end Spawn

section Init

end Init

end Emk.SpawnUser
