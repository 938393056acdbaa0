import Emk.PageAllocator

/-!
# A reference page allocator

The contract of the page allocator is satisfiable: this allocator records
the page numbers in use in a list, never looks at memory, and grants runs
above every page in use.
-/

set_option autoImplicit false

namespace Emk.ReferenceAllocator
open Emk.ByteMemory Emk.DirectMap Emk.PageAllocator

def nextPage (used : List ℕ) : ℕ := used.foldr max 0+1

theorem lt_nextPage (used : List ℕ) (q : ℕ) (h : q ∈ used) : q < nextPage used := by
  induction used with
  | nil => simp at h
  | cons u used ih =>
    simp only [nextPage, List.foldr_cons] at *
    rcases List.mem_cons.mp h with rfl | h
    · omega
    · have := ih h
      omega

def ops (D : Layout) : Ops (List ℕ) where
  palloc n hh s :=
    if n = 0 ∨ 4096*(nextPage s.pmm+n) > D.top then (0, s)
    else (if hh then D.hhdmOffset+4096*nextPage s.pmm else 4096*nextPage s.pmm,
      ⟨fill s.mem (D.hhdmOffset+4096*nextPage s.pmm) 0 (4096*n),
        (List.range n).map (nextPage s.pmm+·) ++ s.pmm⟩)
  pfree ptr n s :=
    ⟨s.mem, s.pmm.filter (fun q => !decide
      (physical D.hhdmOffset ptr/4096 ≤ q ∧ q < physical D.hhdmOffset ptr/4096+n))⟩

def Valid (D : Layout) (s : Phys (List ℕ)) : Prop := ∀ q ∈ s.pmm, 4096*q+4096 ≤ D.top

def owned (s : Phys (List ℕ)) : Set ℕ := {p | p % 4096 = 0 ∧ p/4096 ∈ s.pmm}

variable (D : Layout) {s : Phys (List ℕ)}

theorem palloc_refuses (n : ℕ) (hh : Bool) (h : ((ops D).palloc n hh s).1 = 0) :
    ((ops D).palloc n hh s).2 = s := by
  by_cases hc : n = 0 ∨ 4096*(nextPage s.pmm+n) > D.top
  · simp [ops, hc]
  · have hpos : 0 < nextPage s.pmm := Nat.succ_pos _
    simp only [ops, hc, if_false] at h
    split_ifs at h <;> omega

theorem palloc_grants (n : ℕ) (hh : Bool) (h : ((ops D).palloc n hh s).1 ≠ 0) :
    4096*(nextPage s.pmm+n) ≤ D.top ∧ (ops D).palloc n hh s =
      (if hh then D.hhdmOffset+4096*nextPage s.pmm else 4096*nextPage s.pmm,
        ⟨fill s.mem (D.hhdmOffset+4096*nextPage s.pmm) 0 (4096*n),
          (List.range n).map (nextPage s.pmm+·) ++ s.pmm⟩) := by
  by_cases hc : n = 0 ∨ 4096*(nextPage s.pmm+n) > D.top
  · simp [ops, hc] at h
  · refine ⟨by omega, ?_⟩
    simp only [ops, hc, if_false]

theorem palloc_pointer (n : ℕ) (hh : Bool) (s : Phys (List ℕ)) :
    ((ops D).palloc n hh s).1 < 2^64 := by
  have hfits := D.pointer_fits
  by_cases h : ((ops D).palloc n hh s).1 = 0
  · rw [h]
    exact Nat.two_pow_pos 64
  · have hpos : n ≠ 0 := fun h0 => h (by simp [ops, h0])
    obtain ⟨hfit, heq⟩ := palloc_grants D n hh h
    rw [heq]
    dsimp only
    split_ifs <;> omega

theorem palloc_valid (hv : Valid D s) (n : ℕ) (hh : Bool) :
    Valid D ((ops D).palloc n hh s).2 := by
  by_cases h : ((ops D).palloc n hh s).1 = 0
  · rwa [palloc_refuses D n hh h]
  · obtain ⟨hfit, heq⟩ := palloc_grants D n hh h
    rw [heq]
    intro q hq
    simp only [List.mem_append, List.mem_map, List.mem_range] at hq
    rcases hq with ⟨k, hk, rfl⟩ | hq
    · omega
    · exact hv q hq

theorem palloc_keeps (n : ℕ) (hh : Bool) :
    Set.EqOn ((ops D).palloc n hh s).2.mem s.mem (frames D (owned s)) := by
  by_cases h : ((ops D).palloc n hh s).1 = 0
  · rw [palloc_refuses D n hh h]
    exact fun _ _ => rfl
  · obtain ⟨hfit, heq⟩ := palloc_grants D n hh h
    rw [heq]
    rintro a ⟨p, ⟨hp, hu⟩, ha⟩
    have hlt := lt_nextPage s.pmm _ hu
    apply fill_outside
    simp only [frame, mem_range] at *
    omega

theorem palloc_run (n : ℕ) (hh : Bool) (h : ((ops D).palloc n hh s).1 ≠ 0) :
    ∃ p, ((ops D).palloc n hh s).1 = (if hh then D.hhdmOffset+p else p) ∧ p % 4096 = 0 ∧
      p+4096*n ≤ D.top ∧ Disjoint (run p n) (owned s) ∧
      owned ((ops D).palloc n hh s).2 = owned s ∪ run p n := by
  obtain ⟨hfit, heq⟩ := palloc_grants D n hh h
  rw [heq]
  refine ⟨4096*nextPage s.pmm, rfl, by omega, by omega, ?_, ?_⟩
  · rw [Set.disjoint_left]
    rintro q ⟨i, hi, rfl⟩ ⟨-, hu⟩
    have := lt_nextPage s.pmm _ hu
    omega
  · ext q
    simp only [owned, run, Set.mem_union, Set.mem_ofPred_eq, List.mem_append, List.mem_map,
      List.mem_range]
    constructor
    · rintro ⟨hq, ⟨k, hk, he⟩ | hu⟩
      · exact .inr ⟨k, hk, by omega⟩
      · exact .inl ⟨hq, hu⟩
    · rintro (⟨hq, hu⟩ | ⟨i, hi, rfl⟩)
      · exact ⟨hq, .inr hu⟩
      · exact ⟨by omega, .inl ⟨i, hi, by omega⟩⟩

theorem pfree_run (hv : Valid D s) (p n : ℕ) (hp : p % 4096 = 0) (hrun : run p n ⊆ owned s) :
    owned ((ops D).pfree p n s) = owned s \ run p n := by
  have hbelow : n ≠ 0 → p < D.top := by
    intro hn
    have hin : p ∈ owned s := hrun ⟨0, by omega, by omega⟩
    have hb := hv _ hin.2
    omega
  ext q
  simp only [owned, ops, run, Set.mem_sdiff, Set.mem_ofPred_eq, List.mem_filter,
    Bool.not_eq_true', decide_eq_false_iff_not]
  constructor
  · rintro ⟨hq, hu, hout⟩
    refine ⟨⟨hq, hu⟩, ?_⟩
    rintro ⟨i, hi, rfl⟩
    rw [physical_frame D p (hbelow (by omega))] at hout
    exact hout (by omega)
  · rintro ⟨⟨hq, hu⟩, hout⟩
    refine ⟨hq, hu, fun hin => ?_⟩
    rw [physical_frame D p (hbelow (by omega))] at hin
    exact hout ⟨q/4096-p/4096, by omega, by omega⟩

def contract : RunContract D (ops D) where
  Valid := Valid D
  owned := owned
  owned_frame := by
    intro s hv p hp
    have := hv _ hp.2
    exact ⟨hp.1, by have := hp.1; omega⟩
  palloc_valid := fun hv hh => palloc_valid D hv 1 hh
  palloc_keeps := fun _ hh => palloc_keeps D 1 hh
  palloc_null := fun _ hh h => by rw [palloc_refuses D 1 hh h]
  palloc_grant := by
    intro s _ hh h
    obtain ⟨p, h1, h2, h3, h4, h5⟩ := palloc_run D 1 hh h
    rw [run_one] at h4 h5
    exact ⟨p, h1, h2, by omega, by simpa using h4, by rw [h5, Set.union_singleton]⟩
  write_valid := fun hv _ _ => hv
  write_owned := fun _ _ _ => rfl
  pallocRun_valid := fun hv n hh => palloc_valid D hv n hh
  pallocRun_keeps := fun _ n hh => palloc_keeps D n hh
  pallocRun_null := fun _ n hh h => by rw [palloc_refuses D n hh h]
  pallocRun_grant := fun _ n hh h => palloc_run D n hh h
  pfree_valid := fun hv _ _ _ _ q hq => hv q (List.mem_filter.mp hq).1
  pfree_owned := fun hv p n hp hrun => (pfree_run D hv p n hp hrun).superset
  pfree_keeps := fun _ _ _ _ _ _ _ => rfl

def tightContract : TightContract D (ops D) where
  toRunContract := contract D
  pallocRun_refused := fun _ n hh h => by rw [palloc_refuses D n hh h]
  pfree_exact := fun hv p n hp hrun => pfree_run D hv p n hp hrun

def freeContract : FreeContract D (ops D) where
  toContract := (contract D).toContract
  pfree_valid := fun hv _ _ q hq => hv q (List.mem_filter.mp hq).1
  pfree_owned := by
    intro s hv p hp
    have hrun := pfree_run D hv p 1 hp.1 (by rwa [run_one, Set.singleton_subset_iff])
    rwa [run_one] at hrun
  pfree_keeps := fun _ _ _ _ _ => rfl
  pfree_pointer := by
    intro s hv p hp
    have hb := hv _ hp.2
    have hmod := hp.1
    simp only [ops, physical_pointer D p, physical_frame D p (by omega)]

/-- Sixty-four frames of zeros, of which the first is in use. -/
def smallLayout : Layout where
  hhdmOffset := 0xffff800000000000
  top := 0x40000
  top_le_offset := by decide
  top_le_address := by decide
  pointer_fits := by decide
  offset_aligned := limine_offset_aligned

def smallOps : Ops (List ℕ) := ops smallLayout

def smallContract : RunContract smallLayout smallOps := contract smallLayout

def smallTightContract : TightContract smallLayout smallOps := tightContract smallLayout

def smallFreeContract : FreeContract smallLayout smallOps := freeContract smallLayout

def smallPhys : Phys (List ℕ) := ⟨fun _ => 0, [0]⟩

theorem smallPhys_valid : smallContract.Valid smallPhys := by
  intro q hq
  rw [List.mem_singleton.mp hq]
  decide

theorem smallPhys_owned : 0 ∈ smallContract.owned smallPhys := ⟨rfl, List.mem_singleton.mpr rfl⟩

end Emk.ReferenceAllocator
