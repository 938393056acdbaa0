import Emk.HeapLocality
import Emk.SeenMemory
import Emk.VmmSteady

/-!
# The kernel heap in virtual memory

`heap_init` of `mm/heap/ff.c` takes the pool of the heap from `valloc`. The
heap then runs on addresses that the kernel's page map translates, while the
same page map serves further regions of the kernel's context. What the heap
does there is what it does in a flat memory.
-/

set_option autoImplicit false

namespace Emk.PagedHeap
open Emk.ByteMemory Emk.MachineWord Emk.DirectMap Emk.PageAllocator Emk.Paging Emk.Vmm
open Emk.PagingForest Emk.Transition Emk.ReferenceAllocator Emk.SeenMemory
open Emk.FirstFitHeap (Heap heapInit)
open Emk.HeapRuns (Alike)
open Emk.VmmTenants Emk.VmmInverse Emk.VmmSteady
open Emk.Sched (translation translation_leaf translation_page translation_frame)
open Emk.VmmRuns (openEnd namedRegion PrevAccurate smallState)

/-- Where the byte at `v` lies: the frames are reached through the direct map. -/
def place (hhdmOffset K : ℕ) (m : Mem) (v : ℕ) : ℕ :=
  hhdmOffset+virtToPhys hhdmOffset m K v+v % 4096

/-- The kernel's context, the variable `freelist` and the pointers handed out. -/
structure World (σ : Type) where
  vmm : State σ
  freelist : ℕ
  live : List ℕ

inductive Op where
  | heap (o : HeapRuns.Op)
  | valloc (pages flags : ℕ)
  | vfree (ptr : ℕ)
  | poke (v : ℕ) (c : UInt8)

variable {σ : Type} (A : Ops σ) (hhdmOffset K ctx pool poolPages : ℕ)

/-- The heap as its code sees it. -/
def heapSeen (w : World σ) : HeapRuns.World :=
  ⟨⟨seen (place hhdmOffset K) w.vmm.phys.mem, pool, w.freelist⟩, w.live⟩

def withMem (s : State σ) (m : Mem) : State σ := { s with phys := ⟨m, s.phys.pmm⟩ }

/-- The bytes of the pool are stored where the page map says. -/
def commit (w : World σ) (f : HeapRuns.World) : World σ :=
  ⟨withMem w.vmm (pokes (place hhdmOffset K) f.heap.mem pool (4096*poolPages) w.vmm.phys.mem),
    f.heap.freelist, f.live⟩

def step (w : World σ) : Op → Option (World σ)
  | .heap o => (HeapRuns.step (heapSeen hhdmOffset K pool w) o).map
      (commit hhdmOffset K pool poolPages w)
  | .valloc pages flags => (valloc A hhdmOffset ctx pages flags w.vmm).map fun r =>
      { w with vmm := r.2 }
  | .vfree ptr => (vfree A hhdmOffset K ctx ptr w.vmm).map fun s => { w with vmm := s }
  | .poke v c => some { w with
      vmm := withMem w.vmm (poke (place hhdmOffset K) w.vmm.phys.mem v c) }

/-- Calls of the heap are permitted ones, new regions stay off the pool, and
the pool is neither given back nor written to by others. -/
def Legal (w : World σ) : Op → Prop
  | .heap o => HeapRuns.Permitted (heapSeen hhdmOffset K pool w) o
  | .valloc pages _ => openEnd ctx w.vmm+4096*pages ≤ 2^47 ∧
      (openEnd ctx w.vmm+4096*pages ≤ pool ∨ pool+4096*poolPages ≤ openEnd ctx w.vmm)
  | .vfree ptr => ptr ≠ pool ∧
      (namedRegion ctx w.vmm ptr = 0 ∨ PrevAccurate ctx w.vmm ptr)
  | .poke v _ => v < 2^47 ∧ virtToPhys hhdmOffset w.vmm.phys.mem K v ≠ 0 ∧
      (v < pool ∨ pool+4096*poolPages ≤ v)

/-- The calls of the heap in a run. -/
def heapCalls : Op → List HeapRuns.Op
  | .heap o => [o]
  | _ => []

section Mapped
variable {D : Layout} {A} {F : FreeContract D A} {roots : Set ℕ} {shared : Set (Fin 512)} {K ctx}
  {nodes : List ℕ} {s : State σ} {m : Mem}

/-- The addresses of the lower half that are mapped. -/
def Mapped (D : Layout) (K : ℕ) (m : Mem) : Set ℕ := {v | v < 2^47 ∧ translation D m K v ≠ 0}

def mappedFrames (D : Layout) (K : ℕ) (m : Mem) : Set ℕ :=
  Set.image (translation D m K) (Mapped D K m)

theorem place_eq (m : Mem) (v : ℕ) :
    place D.hhdmOffset K m v = D.hhdmOffset+translation D m K v+v % 4096 := rfl

theorem place_frame (m : Mem) (v : ℕ) :
    place D.hhdmOffset K m v ∈ frame D (translation D m K v) := by
  rw [frame, mem_range, place_eq]
  omega

theorem image_place (S : Set ℕ) (hS : S ⊆ Mapped D K m) :
    Set.image (place D.hhdmOffset K m) S ⊆ frames D (mappedFrames D K m) := by
  rintro x ⟨v, hv, rfl⟩
  exact ⟨_, ⟨v, hS hv, rfl⟩, place_frame m v⟩

variable (hi : Inv F roots shared K ctx s nodes) (hK : K ∈ roots)
include hi hK

theorem mapped_holds {v : ℕ} (hv : v ∈ Mapped D K s.phys.mem) :
    Holds D K nodes s.phys.mem (.page (v/4096)) (translation D s.phys.mem K v) := by
  have hpage : pageNumber (4096*(v/4096)) = pageNumber v := by
    rw [pageNumber, pageNumber]
    omega
  refine ⟨?_, hv.2, translation_page hi.forest hK hpage⟩
  have := hv.1
  omega

/-- Writing to the frames of mapped pages touches no page table. -/
theorem mapped_write (hm : Set.EqOn m s.phys.mem (frames D (mappedFrames D K s.phys.mem))ᶜ) :
    Inv F roots shared K ctx (withMem s m) nodes ∧ F.owned ⟨m, s.phys.pmm⟩ = F.owned s.phys ∧
      ∀ v, translation D m K v = translation D s.phys.mem K v := by
  have hps : mappedFrames D K s.phys.mem ⊆ F.owned s.phys := by
    rintro f ⟨v, hv, rfl⟩
    exact hi.housed.rented _ _ (mapped_holds hi hK hv)
  have hno : Disjoint (mappedFrames D K s.phys.mem) (tableFrames D s.phys.mem roots) := by
    rw [Set.disjoint_left]
    rintro f ⟨v, hv, rfl⟩
    exact hi.housed.apart _ _ (mapped_holds hi hK hv)
  obtain ⟨hforest, howned, htables, hleaf⟩ := hi.forest.write hps hno hm
  have htrans : ∀ v, translation D m K v = translation D s.phys.mem K v := fun v =>
    translation_leaf hi.forest hforest hK (hleaf K hK v)
  refine ⟨⟨hi.toCtxOwned.phys hforest howned.superset, ?_, hi.aligned, hi.low⟩, howned, htrans⟩
  refine hi.housed.shrink (fun t f ht => ?_) (fun t f ht => ?_) (fun f ht _ => ?_)
  · cases t with
    | node x => exact ht
    | page q => exact ⟨ht.1, ht.2.1, (htrans _).symm.trans ht.2.2⟩
  · refine howned.superset (hi.housed.rented t f ?_)
    cases t with
    | node x => exact ht
    | page q => exact ⟨ht.1, ht.2.1, (htrans _).symm.trans ht.2.2⟩
  · exact htables ▸ ht

theorem mapped_steady : Steady (place D.hhdmOffset K) (Mapped D K s.phys.mem) s.phys.mem where
  apart := by
    intro v hv u hu he
    obtain ⟨hv4, -⟩ := translation_frame hi.forest hK v
    obtain ⟨hu4, -⟩ := translation_frame hi.forest hK u
    rw [place_eq, place_eq] at he
    have hsame : translation D s.phys.mem K v = translation D s.phys.mem K u := by omega
    have hholds := mapped_holds hi hK hv
    rw [hsame] at hholds
    have hpage := Tenant.page.inj (hi.housed.single _ _ _ hholds (mapped_holds hi hK hu))
    omega
  kept := by
    intro m hm
    funext v
    have hkeep := (mapped_write hi hK (m := m) ?_).2.2 v
    · rw [place_eq, place_eq, hkeep]
    · exact fun x hx => hm (fun hin => hx (image_place _ subset_rfl hin))

/-- What is stored at mapped addresses is seen there, and the context stays in
order. -/
theorem stored_inv {W : Set ℕ} {vm : Mem} (hW : W ⊆ Mapped D K s.phys.mem)
    (hst : Stored (place D.hhdmOffset K) (Mapped D K s.phys.mem) W vm s.phys.mem m) :
    Inv F roots shared K ctx (withMem s m) nodes ∧
      ∀ v, translation D m K v = translation D s.phys.mem K v := by
  obtain ⟨hinv, -, htrans⟩ := mapped_write hi hK
    (fun x hx => hst.rest (fun hin => hx (image_place _ hW hin)))
  exact ⟨hinv, htrans⟩

end Mapped

section Simulation
variable {D : Layout} {A} {F : FreeContract D A} {roots : Set ℕ} {shared : Set (Fin 512)} {K ctx}
  {pool poolPages : ℕ} {frameOf : ℕ → ℕ} {w : World σ} {f : HeapRuns.World}

/-- The pages of the pool. -/
def poolSet (pool poolPages : ℕ) : Set ℕ := {q | pool/4096 ≤ q ∧ q < pool/4096+poolPages}

/-- Every page of the pool has its frame, and no other region reaches into it. -/
structure Placed (F : FreeContract D A) (roots : Set ℕ) (shared : Set (Fin 512)) (K ctx : ℕ)
    (pool poolPages : ℕ) (frameOf : ℕ → ℕ) (s : State σ) : Prop where
  context : ∃ nodes, Inv F roots shared K ctx s nodes ∧
    ∀ y ∈ nodes, (s.regions y).start = pool ∨ (s.regions y).pages = 0 ∨
      (s.regions y).start+4096*(s.regions y).pages ≤ pool ∨
      pool+4096*poolPages ≤ (s.regions y).start
  backed : ∀ j < poolPages, frameOf j ≠ 0 ∧
    translation D s.phys.mem K (pool+4096*j) = frameOf j

/-- The heap of the paged machine is the heap of the flat one. -/
structure Sim (F : FreeContract D A) (roots : Set ℕ) (shared : Set (Fin 512)) (K ctx : ℕ)
    (pool poolPages : ℕ) (frameOf : ℕ → ℕ) (w : World σ) (f : HeapRuns.World) : Prop where
  placed : Placed F roots shared K ctx pool poolPages frameOf w.vmm
  alike : Alike pool (pool+4096*poolPages) (heapSeen D.hhdmOffset K pool w).heap f.heap
  live : w.live = f.live
  heap : ∃ bs, HeapRuns.Inv pool (pool+4096*poolPages) f bs

variable (hK : K ∈ roots) (hctx : ctx ≠ 0) (hal : pool % 4096 = 0)
  (hend : pool+4096*poolPages ≤ 2^47)

variable (poolPages) in
include hal hend in
theorem poolSet_low : ∀ q ∈ poolSet pool poolPages, q < 2^35 := by
  rintro q ⟨-, hq⟩
  omega

include hal hend hK in
theorem Placed.mapped {s : State σ}
    (h : Placed F roots shared K ctx pool poolPages frameOf s) :
    Range pool (4096*poolPages) ⊆ Mapped D K s.phys.mem := by
  obtain ⟨nodes, hi, -⟩ := h.context
  intro v hv
  rw [mem_range] at hv
  obtain ⟨h0, ht⟩ := h.backed ((v-pool)/4096) (by omega)
  refine ⟨by omega, ?_⟩
  have hpage : pageNumber v = pageNumber (pool+4096*((v-pool)/4096)) := by
    rw [pageNumber, pageNumber]
    omega
  rwa [translation_page hi.forest hK hpage, ht]

include hal hend hK in
/-- Calls that pass by the pool keep the simulation. -/
theorem Sim.undisturbed (h : Sim F roots shared K ctx pool poolPages frameOf w f) {s : State σ}
    {nodes' : List ℕ} (hi' : Inv F roots shared K ctx s nodes')
    (hu : Undisturbed D K (poolSet pool poolPages) w.vmm.phys s.phys)
    (hclear : ∀ y ∈ nodes', (s.regions y).start = pool ∨ (s.regions y).pages = 0 ∨
      (s.regions y).start+4096*(s.regions y).pages ≤ pool ∨
      pool+4096*poolPages ≤ (s.regions y).start) :
    Sim F roots shared K ctx pool poolPages frameOf { w with vmm := s } f := by
  obtain ⟨nodes, hi, -⟩ := h.placed.context
  have hpage : ∀ v ∈ Range pool (4096*poolPages),
      translation D s.phys.mem K v = translation D w.vmm.phys.mem K v ∧
        Set.EqOn s.phys.mem w.vmm.phys.mem (frame D (translation D w.vmm.phys.mem K v)) := by
    intro v hv
    have hm := h.placed.mapped hK hal hend hv
    have hnum : pageNumber v = pageNumber (4096*(v/4096)) := by
      rw [pageNumber, pageNumber]
      omega
    rw [mem_range] at hv
    have h0 := hm.2
    rw [translation_page hi.forest hK hnum] at h0 ⊢
    rw [translation_page hi'.forest hK hnum]
    exact hu (v/4096) ⟨by omega, by omega⟩ h0
  refine ⟨⟨⟨nodes', hi', hclear⟩, fun j hj => ?_⟩, ⟨fun v hv => ?_, h.alike.freelist⟩,
    h.live, h.heap⟩
  · obtain ⟨h0, ht⟩ := h.placed.backed j hj
    exact ⟨h0, (hpage _ (by rw [mem_range]; omega)).1.trans ht⟩
  · obtain ⟨h1, h2⟩ := hv
    obtain ⟨ht, hm⟩ := hpage v (by rw [mem_range]; omega)
    have hsame : place D.hhdmOffset K s.phys.mem v = place D.hhdmOffset K w.vmm.phys.mem v := by
      rw [place_eq, place_eq, ht]
    have hkept : seen (place D.hhdmOffset K) s.phys.mem v =
        seen (place D.hhdmOffset K) w.vmm.phys.mem v := by
      rw [seen, seen, hsame]
      exact hm (place_frame _ v)
    exact hkept.trans (h.alike.mem ⟨h1, h2⟩)

include hal hend hK in
/-- What the heap leaves in its pool is stored through the page map. -/
theorem Placed.commit (h : Placed F roots shared K ctx pool poolPages frameOf w.vmm)
    (g' : HeapRuns.World) {f' : HeapRuns.World}
    (ha : Alike pool (pool+4096*poolPages) g'.heap f'.heap)
    (hl : g'.live = f'.live)
    (hinv : ∃ bs, HeapRuns.Inv pool (pool+4096*poolPages) f' bs) :
    Sim F roots shared K ctx pool poolPages frameOf
      (commit D.hhdmOffset K pool poolPages w g') f' := by
  obtain ⟨nodes, hi, hclear⟩ := h.context
  have hst := pokes_stored g'.heap.mem (mapped_steady hi hK) (h.mapped hK hal hend)
  obtain ⟨hi', htrans⟩ := stored_inv hi hK (h.mapped hK hal hend) hst
  refine ⟨⟨⟨nodes, hi', hclear⟩, fun j hj => ?_⟩, ⟨fun v hv => ?_, ha.freelist⟩, hl, hinv⟩
  · obtain ⟨h0, ht⟩ := h.backed j hj
    exact ⟨h0, (htrans _).trans ht⟩
  · obtain ⟨h1, h2⟩ := hv
    exact (hst.inside v (by rw [mem_range]; omega)).trans (ha.mem ⟨h1, h2⟩)

include hal hend hK in
/-- A byte stored outside the pool. -/
theorem Sim.poke (h : Sim F roots shared K ctx pool poolPages frameOf w f) {v : ℕ} (c : UInt8)
    (hv : v ∈ Mapped D K w.vmm.phys.mem) (hout : v < pool ∨ pool+4096*poolPages ≤ v) :
    Sim F roots shared K ctx pool poolPages frameOf
      { w with vmm := withMem w.vmm (poke (place D.hhdmOffset K) w.vmm.phys.mem v c) } f := by
  obtain ⟨nodes, hi, hclear⟩ := h.placed.context
  have hst := poke_stored (c := c) (mapped_steady hi hK) hv
  obtain ⟨hi', htrans⟩ := stored_inv hi hK (Set.singleton_subset_iff.mpr hv) hst
  refine ⟨⟨⟨nodes, hi', hclear⟩, fun j hj => ?_⟩, ⟨fun x hx => ?_, h.alike.freelist⟩,
    h.live, h.heap⟩
  · obtain ⟨h0, ht⟩ := h.placed.backed j hj
    exact ⟨h0, (htrans _).trans ht⟩
  · obtain ⟨h1, h2⟩ := hx
    have hin := h.placed.mapped hK hal hend (show x ∈ Range pool (4096*poolPages) by
      rw [mem_range]; omega)
    refine (hst.outside x hin ?_).trans (h.alike.mem ⟨h1, h2⟩)
    rw [Set.mem_singleton_iff]
    omega

include hal hend hK hctx in
/-- Every call of the paged machine is matched by the flat heap. -/
theorem Sim.step (h : Sim F roots shared K ctx pool poolPages frameOf w f) {o : Op}
    (ho : Legal D.hhdmOffset K ctx pool poolPages w o) :
    ∃ w' f', step A D.hhdmOffset K ctx pool poolPages w o = some w' ∧
      Transition.run (lift HeapRuns.step) (some f) (heapCalls o) = some f' ∧
      Sim F roots shared K ctx pool poolPages frameOf w' f' ∧
      Along (lift HeapRuns.step) (Issued HeapRuns.Permitted) (some f) (heapCalls o) := by
  obtain ⟨nodes, hi, hclear⟩ := h.placed.context
  have hlow := poolSet_low poolPages hal hend
  cases o with
  | heap o =>
    obtain ⟨bs, hf⟩ := h.heap
    have hseen : heapSeen D.hhdmOffset K pool w =
        ⟨(heapSeen D.hhdmOffset K pool w).heap, f.live⟩ :=
      congrArg (HeapRuns.World.mk _) h.live
    rw [Legal, hseen, HeapRuns.permitted_alike hf h.alike] at ho
    obtain ⟨f', bs', hstep, hf'⟩ := HeapRuns.step_inv hf ho
    obtain ⟨g', hg, ha⟩ := HeapRuns.step_alike hf h.alike ho hstep
    refine ⟨_, f', ?_, ?_, h.placed.commit hK hal hend ⟨g', f'.live⟩ ha rfl ⟨bs', hf'⟩, ?_⟩
    · rw [PagedHeap.step, hseen, hg, Option.map_some]
    · rw [heapCalls, Transition.run, lift, Option.bind_some, hstep, Transition.run]
    · refine ⟨?_, trivial⟩
      intro f₀ he
      exact Option.some.inj he ▸ ho
  | valloc pages flags =>
    obtain ⟨hfit, hoff⟩ := ho
    obtain ⟨r, nodes', hr, hi', hu, hold, hnew⟩ := valloc_passes hlow hi hK hctx pages flags hfit
      (fun j hj hin => by
        obtain ⟨h1, h2⟩ := hin
        omega)
    refine ⟨_, f, ?_, rfl, h.undisturbed hK hal hend hi' hu (fun y hy => ?_), trivial⟩
    · rw [PagedHeap.step, hr, Option.map_some]
    · rcases hnew y hy with hin | ⟨hstart, hpages⟩
      · obtain ⟨-, h1, h2⟩ := hold y hin
        rw [h1, h2]
        exact hclear y hin
      · rw [hstart, hpages]
        omega
  | vfree ptr =>
    obtain ⟨hne, hname⟩ := ho
    obtain ⟨s', nodes', hs', hi', hu, hold⟩ := vfree_passes hlow hi hK hctx hname
      (fun x hx hstart j hj hin => by
        obtain ⟨h1, h2⟩ := hin
        have hx4 := hi.aligned x hx
        have := hclear x hx
        omega)
    refine ⟨_, f, ?_, rfl, h.undisturbed hK hal hend hi' hu (fun y hy => ?_), trivial⟩
    · rw [PagedHeap.step, hs', Option.map_some]
    · obtain ⟨hin, h1, h2⟩ := hold y hy
      rw [h1, h2]
      exact hclear y hin
  | poke v c =>
    obtain ⟨hv, h0, hout⟩ := ho
    exact ⟨_, f, rfl, rfl, h.poke hK hal hend c ⟨hv, h0⟩ hout, trivial⟩

include hK in
/-- The frames of the pool are in use and no two pages share one. -/
theorem Placed.frames {s : State σ} (h : Placed F roots shared K ctx pool poolPages frameOf s)
    (hal : pool % 4096 = 0) (hend : pool+4096*poolPages ≤ 2^47) :
    (∀ j < poolPages, translation D s.phys.mem K (pool+4096*j) ∈ F.owned s.phys) ∧
      ∀ i < poolPages, ∀ j < poolPages, translation D s.phys.mem K (pool+4096*i) =
        translation D s.phys.mem K (pool+4096*j) → i = j := by
  obtain ⟨nodes, hi, -⟩ := h.context
  have hholds : ∀ j < poolPages, Holds D K nodes s.phys.mem (.page ((pool+4096*j)/4096))
      (translation D s.phys.mem K (pool+4096*j)) := by
    intro j hj
    refine mapped_holds hi hK (h.mapped hK hal hend ?_)
    rw [mem_range]
    omega
  refine ⟨fun j hj => hi.housed.rented _ _ (hholds j hj), fun i hi' j hj he => ?_⟩
  have hfirst := hholds i hi'
  rw [he] at hfirst
  have := Tenant.page.inj (hi.housed.single _ _ _ hfirst (hholds j hj))
  omega

end Simulation

section Start
variable {D : Layout} {A} {F : FreeContract D A} {roots : Set ℕ} {shared : Set (Fin 512)} {K ctx}
  {nodes : List ℕ} {s s₁ : State σ} {n flags a : ℕ}

/-- A region fresh from `valloc`, behind all regions that it could meet. -/
theorem valloc_placed (hi : Inv F roots shared K ctx s nodes) (hK : K ∈ roots) (hctx : ctx ≠ 0)
    (hva : valloc A D.hhdmOffset ctx n flags s = some (a, s₁)) (ha : a ≠ 0)
    (hlow : openEnd ctx s+4096*n ≤ 2^47) (hroom : VmmRuns.Room ctx s n)
    (hmap : Mappable A D.hhdmOffset K ctx n flags s) :
    a % 4096 = 0 ∧ a+4096*n ≤ 2^47 ∧ Placed F roots shared K ctx a n
      (fun j => ((newFrames A D.hhdmOffset K ctx n flags s)[j]?).getD 0) s₁ := by
  obtain ⟨pre, x, post, rfl, hfind, hstart, h0, hok, hs₁⟩ := hi.valloc_placed hctx hva ha
  obtain ⟨-, hopen⟩ := openEnd_eq hfind
  rw [VmmRuns.Room, hi.listed.regionNodes_eq, hopen, ← hstart] at hroom
  rw [Mappable, hopen, ← hstart] at hmap
  rw [hopen, ← hstart] at hlow
  have hfresh : newNode A s ∉ pre ++ x::post := hi.fresh
  have hne : newNode A s ≠ x := fun he => hfresh (by simp [he])
  have hi₁ : Inv F roots shared K ctx s₁ (pre ++ x::newNode A s::post) := by
    rw [hs₁, hstart]
    exact hi.place hK h0 n flags (hstart ▸ hlow)
  refine ⟨hstart ▸ regionEnd_aligned (hi.aligned x (by simp)), hlow,
    ⟨_, hi₁, fun y hy => ?_⟩, fun j hj => ?_⟩
  · by_cases hyn : y = newNode A s
    · left
      have hnew := insertAfter_new n flags s hne (s.regions x).next
      rw [hyn, hs₁, hstart]
      exact congrArg Vregion.start hnew
    · right
      have hy' : y ∈ pre ++ x::post := by
        simp only [List.mem_append, List.mem_cons] at hy ⊢
        tauto
      have hold := insertAfter_old n flags s hne (s.regions x).next hyn
      have hs : (s₁.regions y).start = (s.regions y).start := by
        rw [hs₁]
        exact hold.1
      have hp : (s₁.regions y).pages = (s.regions y).pages := by
        rw [hs₁]
        exact hold.2.1
      rw [hs, hp]
      rcases hi.low y hy' with hzero | hbelow
      · exact .inl hzero
      · have hroom' := hroom y hy'
        rwa [regionEnd, wrap_of_lt (by omega)] at hroom'
  · obtain ⟨g, hget, hg0, ht⟩ := fill_translation (palloc_quiet hi.forest true).forest hK hok hmap
      (by omega) hj
    have hframe : (newFrames A D.hhdmOffset K ctx n flags s)[j]? = some g := by
      rw [newFrames, hopen, ← hstart]
      exact hget
    rw [wrap_of_lt (by omega)] at ht
    rw [hframe, Option.getD_some, hs₁]
    exact ⟨hg0, ht⟩

end Start

instance decidableRoom (s : State σ) (pages : ℕ) : Decidable (VmmRuns.Room ctx s pages) :=
  inferInstanceAs (Decidable (∀ x ∈ regionNodes s ctx, _ ∨ _ ∨ _))

end Emk.PagedHeap
