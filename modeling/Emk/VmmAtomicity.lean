import Emk.VmmContext
import Emk.VmmRuns
import Emk.VmmTenants

/-!
# All pages or none

`valloc` links its region before it has the pages. When a page or a page
table is refused later on, the call gives up where it stands, or does not
notice; what was linked and mapped until then stays.
-/

set_option autoImplicit false

namespace Emk.VmmAtomicity
open Emk.ByteMemory Emk.MachineWord Emk.DirectMap Emk.PageAllocator Emk.Paging Emk.Vmm
open Emk.PagingForest Emk.ReferenceAllocator
open Emk.Sched (translation translation_leaf translation_page EntryFlags vflagsToPflags_entry)
open Emk.VmmRuns (openEnd smallState)
open Emk.VmmTenants (palloc_tables)

variable {σ : Type}

/-- Neither a page nor a page table is refused while the pages are mapped. -/
def Supplied (A : Ops σ) (hhdmOffset pagemap start flags : ℕ) : ℕ → ℕ → Phys σ → Prop
  | 0, _, _ => True
  | n+1, i, s =>
    (A.palloc 1 false s).1 ≠ 0 ∧
      (vmap A hhdmOffset pagemap (wrap (start+4096*i)) (A.palloc 1 false s).1 flags
        (A.palloc 1 false s).2).1 = 0 ∧
      Supplied A hhdmOffset pagemap start flags n (i+1)
        (vmap A hhdmOffset pagemap (wrap (start+4096*i)) (A.palloc 1 false s).1 flags
          (A.palloc 1 false s).2).2

instance decidableSupplied (A : Ops σ) (hhdmOffset pagemap start flags : ℕ) :
    ∀ (n i : ℕ) (s : Phys σ), Decidable (Supplied A hhdmOffset pagemap start flags n i s)
  | 0, _, _ => .isTrue trivial
  | n+1, i, _ => @instDecidableAnd _ _ _ (@instDecidableAnd _ _ _
      (decidableSupplied A hhdmOffset pagemap start flags n (i+1) _))

variable {D : Layout} {A : Ops σ}

variable {C : Contract D A} {roots : Set ℕ} {shared : Set (Fin 512)} {pm start flags : ℕ}
  {s : Phys σ}

/-- The regions of the context, what its page map translates, and the frames
in use other than page tables are those of before. -/
structure Unchanged (C : Contract D A) (roots : Set ℕ) (ctx pm : ℕ) (s s' : State σ) : Prop where
  list : regionNodes s' ctx = regionNodes s ctx
  regions : ∀ x ∈ regionNodes s ctx, s'.regions x = s.regions x
  leaf : ∀ v, leafEntry D s'.phys.mem pm v = leafEntry D s.phys.mem pm v
  frames : C.owned s'.phys \ tableFrames D s'.phys.mem roots =
    C.owned s.phys \ tableFrames D s.phys.mem roots

section Valloc
variable {ctx : ℕ} {s : State σ} {nodes : List ℕ}

end Valloc

def smallCtx : ℕ × State (List ℕ) := vinit smallOps smallLayout.hhdmOffset 0x1000 smallState

end Emk.VmmAtomicity
