import Emk.PagingRoom
import Emk.PmmSingle

/-!
# The physical allocator keeps the contract of its clients

A client that takes single pages and writes to nothing else never reaches
the bitmap, since no page that may be handed out overlaps it. So `mm/pmm.c`
meets the contract of the page allocator, with its clear bits as the free
pages, and in the end each of them can be handed out.
-/

set_option autoImplicit false

namespace Emk.PmmClients
open Emk.ByteMemory Emk.DirectMap Emk.PageAllocator Emk.Pmm Emk.PmmOwnership Emk.Transition
open Emk.PagingRoom

variable {D : Layout} {avail : Set ℕ} {w : World}

section Writes

/-- The frames of a set of page numbers. -/
def framesOf (pages : Set ℕ) : Set ℕ := {q | q % 4096 = 0 ∧ q/4096 ∈ pages}

theorem framesOf_mono {ps qs : Set ℕ} (h : ps ⊆ qs) : framesOf ps ⊆ framesOf qs :=
  fun _ hq => ⟨hq.1, h hq.2⟩

/-- No byte of the bitmap lies in a page that may be handed out. -/
theorem bitmap_outside (hs : Sound D avail w) {i : ℕ} (hi : i < w.state.pmm.bitmapPages) :
    w.state.pmm.bitmap+i/8 ∉ frames D (framesOf avail) := by
  rintro ⟨q, ⟨hq, ha⟩, hin⟩
  have hcovers := hs.covers
  have hapart := hs.apart _ ha
  simp only [frame, mem_range] at hin
  omega

theorem bit_write (hs : Sound D avail w) {m : Mem}
    (hm : Set.EqOn m w.state.mem (frames D (framesOf avail))ᶜ) {i : ℕ}
    (hi : i < w.state.pmm.bitmapPages) :
    bitmapGet m w.state.pmm.bitmap i = bitmapGet w.state.mem w.state.pmm.bitmap i := by
  rw [bitmapGet, bitmapGet, hm (bitmap_outside hs hi)]

theorem sound_write (hs : Sound D avail w) {m : Mem}
    (hm : Set.EqOn m w.state.mem (frames D (framesOf avail))ᶜ) :
    Sound D avail ⟨⟨m, w.state.pmm⟩, w.owned⟩ where
  covers := hs.covers
  reach := hs.reach
  avail_lt := hs.avail_lt
  apart := hs.apart
  clear_avail := fun p hp hz => hs.clear_avail p hp ((bit_write hs hm hp).symm.trans hz)
  cache_avail := hs.cache_avail
  owned_avail := hs.owned_avail
  owned_set := fun p hp =>
    (bit_write hs hm (hs.avail_lt p (hs.owned_avail p hp))).trans (hs.owned_set p hp)

theorem clearPages_write (hs : Sound D avail w) {m : Mem}
    (hm : Set.EqOn m w.state.mem (frames D (framesOf avail))ᶜ) :
    clearPages ⟨m, w.state.pmm⟩ = clearPages w.state := by
  ext p
  rw [mem_clearPages, mem_clearPages]
  exact and_congr_right fun hp => by rw [bit_write hs hm hp]

theorem balanced_write (hb : Balanced D avail w) {m : Mem}
    (hm : Set.EqOn m w.state.mem (frames D (framesOf avail))ᶜ) :
    Balanced D avail ⟨⟨m, w.state.pmm⟩, w.owned⟩ where
  toSound := sound_write hb.toSound hm
  size := hb.size
  bounded := hb.bounded
  distinct := hb.distinct
  cleared := fun i hi =>
    (bit_write hb.toSound hm (hb.avail_lt _ (hb.cache_avail i hi))).trans (hb.cleared i hi)
  counted := by
    rw [clearPages_write hb.toSound hm]
    exact hb.counted

theorem balanced_shrink (hb : Balanced D avail w) (owned : List ℕ) (h : ∀ q ∈ owned, q ∈ w.owned) :
    Balanced D avail ⟨w.state, owned⟩ :=
  { hb with toSound := hb.toSound.shrink owned h }

end Writes

section Grants
variable {s : State}

/-- The pages in use: those that may be handed out and have their bit set. -/
def owned (avail : Set ℕ) (s : State) : Set ℕ :=
  framesOf {p | p ∈ avail ∧ bitmapGet s.mem s.pmm.bitmap p = true}

theorem owned_frames : frames D (owned avail s) ⊆ frames D (framesOf avail) :=
  frames_mono D (framesOf_mono fun _ hp => hp.1)

theorem taken_keeps (hs : Sound D avail ⟨s, []⟩) {p : ℕ} (hp : p ∈ clearPages s) :
    Set.EqOn (fill (setRun s.mem s.pmm.bitmap p 1) (higherHalf D.hhdmOffset (4096*p)) 0 (4096*1))
      s.mem (frames D (owned avail s)) := by
  obtain ⟨hlt, hclear⟩ := mem_clearPages.mp hp
  have hreach := hs.reach
  dsimp only at hreach
  rintro a ⟨q, hqo, ha⟩
  obtain ⟨hq, -, hset⟩ := id hqo
  have hne : q/4096 ≠ p := by
    rintro rfl
    rw [hclear] at hset
    exact absurd hset (by decide)
  have hbyte : a ≠ s.pmm.bitmap+p/8 := by
    rintro rfl
    exact bitmap_outside hs hlt (owned_frames ⟨q, hqo, ha⟩)
  rw [higherHalf_frame D _ (by omega), fill_outside, setRun, setRun, bitmapSet, Nat.add_zero,
    Function.update_of_ne hbyte]
  simp only [frame, mem_range] at ha ⊢
  omega

/-- A single page is refused when no bit is clear, else it is a clear one,
which is then in use; no byte of another page in use changes. -/
theorem palloc_effect (hb : Balanced D avail ⟨s, []⟩) (hh : Bool) :
    (clearPages s = ∅ ∧ palloc D.hhdmOffset 1 hh s = (0, s)) ∨
    ∃ p ∈ clearPages s,
      (palloc D.hhdmOffset 1 hh s).1 = (if hh then D.hhdmOffset+4096*p else 4096*p) ∧
      owned avail (palloc D.hhdmOffset 1 hh s).2 = insert (4096*p) (owned avail s) ∧
      Set.EqOn (palloc D.hhdmOffset 1 hh s).2.mem s.mem (frames D (owned avail s)) := by
  rcases hb.palloc_one hh with h | ⟨p, hp, k, -, -, heq⟩
  · exact .inl h
  · right
    have hav := hb.clear_avail_of hp
    have hlt := (mem_clearPages.mp hp).1
    have hreach := hb.reach
    dsimp only at hlt hreach hav heq hp
    rw [heq]
    refine ⟨p, hp, pageAddress_eq D (by omega) hh, ?_, taken_keeps hb.toSound hp⟩
    ext q
    simp only [owned, framesOf, Set.mem_ofPred_eq, Set.mem_insert_iff]
    constructor
    · rintro ⟨hq, hqa, hset⟩
      rw [bit_taken hb.toSound hav (hb.avail_lt _ hqa), Bool.or_eq_true, decide_eq_true_iff] at hset
      rcases hset with hset | hset
      · exact .inr ⟨hq, hqa, hset⟩
      · exact .inl (by omega)
    · rintro (rfl | ⟨hq, hqa, hset⟩)
      · have hdiv : 4096*p/4096 = p := by omega
        refine ⟨by omega, by rwa [hdiv], ?_⟩
        rw [hdiv, bit_taken hb.toSound hav (hb.avail_lt _ hav), decide_eq_true (by omega),
          Bool.or_true]
      · refine ⟨hq, hqa, ?_⟩
        rw [bit_taken hb.toSound hav (hb.avail_lt _ hqa), hset, Bool.true_or]

theorem palloc_keeps_balance (hb : Balanced D avail ⟨s, []⟩) (hh : Bool) :
    Balanced D avail ⟨(palloc D.hhdmOffset 1 hh s).2, []⟩ :=
  balanced_shrink (palloc_balanced hb hh) [] fun _ hq => absurd hq List.not_mem_nil

@[simp] theorem pmmAllocator_palloc (hhdmOffset : ℕ) :
    (pmmAllocator hhdmOffset).palloc = palloc hhdmOffset := rfl

def contract (D : Layout) (avail : Set ℕ) : Contract D (pmmAllocator D.hhdmOffset) where
  Valid := fun s => Balanced D avail ⟨s, []⟩
  owned := owned avail
  owned_frame := by
    rintro s hb q ⟨hq, ha, -⟩
    have hlt := hb.avail_lt _ ha
    have hreach := hb.reach
    exact ⟨hq, by omega⟩
  palloc_valid := fun hb hh => palloc_keeps_balance hb hh
  palloc_keeps := by
    intro s hb hh
    rcases palloc_effect hb hh with ⟨-, heq⟩ | ⟨p, -, -, -, hkeep⟩
    · rw [pmmAllocator_palloc, heq]
      exact fun _ _ => rfl
    · exact hkeep
  palloc_null := by
    intro s hb hh _
    rcases palloc_effect hb hh with ⟨-, heq⟩ | ⟨p, -, -, howned, -⟩
    · rw [pmmAllocator_palloc, heq]
    · rw [pmmAllocator_palloc, howned]
      exact Set.subset_insert _ _
  palloc_grant := by
    intro s hb hh hne
    rcases palloc_effect hb hh with ⟨-, heq⟩ | ⟨p, hp, hptr, howned, -⟩
    · rw [pmmAllocator_palloc, heq] at hne
      exact absurd rfl hne
    · obtain ⟨hlt, hclear⟩ := mem_clearPages.mp hp
      have hreach := hb.reach
      dsimp only at hreach
      refine ⟨4096*p, hptr, by omega, by omega, ?_, howned⟩
      rintro ⟨-, -, hset⟩
      rw [show 4096*p/4096 = p by omega, hclear] at hset
      exact absurd hset (by decide)
  write_valid := fun hb m hm =>
    balanced_write hb fun a ha => hm fun hin => ha (owned_frames hin)
  write_owned := by
    intro s hb m hm
    have hbit := fun i => bit_write hb.toSound (m := m) (i := i)
      fun a ha => hm fun hin => ha (owned_frames hin)
    ext q
    simp only [owned, framesOf, Set.mem_ofPred_eq]
    refine and_congr_right fun _ => and_congr_right fun ha => ?_
    rw [hbit _ (hb.avail_lt _ ha)]

/-- The clear bits measure the free pages. -/
theorem contract_room (D : Layout) (avail : Set ℕ) (hoffset : 0 < D.hhdmOffset) :
    Room (contract D avail) fun s => (clearPages s).card where
  grants := by
    intro s hb hpos
    rcases palloc_effect hb true with ⟨hempty, -⟩ | ⟨p, -, hptr, -, -⟩
    · rw [hempty, Finset.card_empty] at hpos
      exact absurd hpos (Nat.lt_irrefl 0)
    · rw [pmmAllocator_palloc, hptr, if_pos rfl]
      omega
  spends := by
    intro s hb
    have hafter := (palloc_keeps_balance hb true).counted
    have hbefore := hb.counted
    rcases hb.palloc_one true with ⟨-, heq⟩ | ⟨p, -, k, -, -, heq⟩
    · dsimp only [pmmAllocator_palloc] at heq ⊢
      rw [heq]
      exact Nat.le_succ _
    · dsimp only [pmmAllocator_palloc] at heq hafter hbefore ⊢
      rw [← hafter, ← hbefore, heq]
      dsimp only
      omega
  write := fun hb m hm => congrArg Finset.card
    (clearPages_write hb.toSound fun a ha => hm fun hin => ha (owned_frames hin))

end Grants

section Returnable

/-- A call of the allocator, or a client that writes to its own pages. -/
inductive Act where
  | call (o : Op)
  | write (m : Mem)

def act (D : Layout) (w : World) : Act → World
  | .call o => step D.hhdmOffset w o
  | .write m => ⟨⟨m, w.state.pmm⟩, w.owned⟩

def Permitted (D : Layout) (w : World) : Act → Prop
  | .call o => FreesOwned D.hhdmOffset w o
  | .write m => Set.EqOn m w.state.mem (frames D (framesOf {p | p ∈ w.owned}))ᶜ

/-- After some permitted run from `s` a request returns page `p`. -/
def Returnable (D : Layout) (s : State) (p : ℕ) : Prop :=
  ∃ acts pages hh, Along (act D) (Permitted D) ⟨s, []⟩ acts ∧
    let r := palloc D.hhdmOffset pages hh (run (act D) ⟨s, []⟩ acts).state
    r.1 ≠ 0 ∧ p ∈ granted D.hhdmOffset r.1 pages hh

theorem act_sound (w : World) (a : Act) (hs : Sound D avail w) (hp : Permitted D w a) :
    Sound D avail (act D w a) := by
  cases a with
  | call o =>
    cases o with
    | palloc pages hh => exact palloc_sound hs pages hh
    | pfree ptr pages => exact pfree_sound hs ptr pages hp
  | write m =>
    exact sound_write hs fun a ha => hp fun hin =>
      ha (frames_mono D (framesOf_mono hs.owned_avail) hin)

theorem returnable_avail {s : State} (hs : Sound D avail ⟨s, []⟩) {p : ℕ}
    (h : Returnable D s p) : p ∈ avail := by
  obtain ⟨acts, pages, hh, halong, hne, hp⟩ := h
  have hend := palloc_sound (run_invariant act_sound hs halong) pages hh
  refine hend.owned_avail p ?_
  rw [step]
  dsimp only
  rw [if_neg hne]
  exact List.mem_append_left _ hp

/-- Asking for single pages again and again brings every clear page. -/
theorem eventually_granted {p n : ℕ} (hb : Balanced D avail w)
    (hn : (clearPages w.state).card = n) (hp : p ∈ clearPages w.state) :
    ∃ acts, Along (act D) (Permitted D) w acts ∧
      (palloc D.hhdmOffset 1 true (run (act D) w acts).state).1 =
        pageAddress D.hhdmOffset (4096*p) true := by
  induction n generalizing w with
  | zero =>
    rw [Finset.card_eq_zero] at hn
    rw [hn] at hp
    exact absurd hp (Finset.notMem_empty p)
  | succ n ih =>
    obtain ⟨q, hq, hptr, hclear⟩ := hb.palloc_step true ⟨p, hp⟩
    by_cases hpq : q = p
    · exact ⟨[], trivial, hpq ▸ hptr⟩
    · have hcard := Finset.card_erase_of_mem hq
      rw [hn, ← hclear] at hcard
      obtain ⟨acts, halong, hgrant⟩ := ih (palloc_balanced hb true) hcard
        (by rw [hclear]; exact Finset.mem_erase.mpr ⟨Ne.symm hpq, hp⟩)
      exact ⟨.call (.palloc 1 true)::acts, ⟨trivial, halong⟩, hgrant⟩

/-- Every clear page can be returned, and no other page ever is. -/
theorem returnable_iff {s : State} (hb : Balanced D avail ⟨s, []⟩)
    (hclear : ∀ p ∈ avail, p ∈ clearPages s) (hoffset : 0 < D.hhdmOffset) (p : ℕ) :
    Returnable D s p ↔ p ∈ avail := by
  constructor
  · exact returnable_avail hb.toSound
  · intro hp
    obtain ⟨acts, halong, hgrant⟩ := eventually_granted hb rfl (hclear p hp)
    have hreach := hb.reach
    have hlt := hb.avail_lt p hp
    have hbelow : 4096*p < D.top := by omega
    refine ⟨acts, 1, true, halong, ?_⟩
    dsimp only
    rw [hgrant, granted_pages p 1 true hbelow]
    refine ⟨?_, by simp⟩
    rw [pageAddress_eq D hbelow, if_pos rfl]
    omega

end Returnable

end Emk.PmmClients
