import Emk.VmmList

/-!
# Copies to and from user memory

`sys/user.c` over `vget`. The region of a chunk is looked up once, at its
first byte, and a chunk never leaves its page. Regions consist of whole
pages, so all bytes of a chunk have the same first region. `memcpy` takes
`restrict` pointers: the user range and the kernel buffer are different
memory and are kept apart here.
-/

set_option autoImplicit false

namespace Emk.UserCopy
open Emk.ByteMemory Emk.MachineWord Emk.DirectMap Emk.PageAllocator Emk.Paging Emk.Vmm
  Emk.LinkedPath

variable {σ : Type}

def minSize (a b : ℕ) : ℕ := if a < b then a else b

/-- The loop that both copies share: `access` is the test of the flags of the
region, `move` the `memcpy` of one chunk. -/
def copyLoop (s : State σ) (vctx len : ℕ) (access : ℕ → Bool) (move : ℕ → ℕ → ℕ → Mem → Mem) :
    ℕ → ℕ → ℕ → Mem → Option (ℤ × Mem)
  | 0, _, _, _ => none
  | fuel+1, copied, addr, m =>
    if copied < len then
      (vget vctx addr s).bind fun r =>
        if r = 0 ∨ access (s.regions r).flags = false then some (-1, m)
        else
          let pageOffset := addr &&& (4096-1)
          let chunk := minSize (len-copied) (4096-pageOffset)
          copyLoop s vctx len access move fuel (copied+chunk) (wrap (addr+chunk))
            (move copied addr chunk m)
    else some (0, m)

def userReadable (flags : ℕ) : Bool := flags &&& vmmUser ≠ 0

def userWritable (flags : ℕ) : Bool := flags &&& vmmUser ≠ 0 ∧ flags &&& vmmWrite ≠ 0

/-- `copy_from_user`: the result and the kernel memory it leaves. -/
def copyFromUser (s : State σ) (vctx kdst usrc len : ℕ) (user kernel : Mem) : Option (ℤ × Mem) :=
  copyLoop s vctx len userReadable
    (fun copied addr chunk m => copy m (kdst+copied) (fun i => user (addr+i)) chunk)
    rounds 0 usrc kernel

/-- `copy_to_user`: the result and the user memory it leaves. -/
def copyToUser (s : State σ) (vctx userDst kernelSrc len : ℕ) (kernel user : Mem) :
    Option (ℤ × Mem) :=
  copyLoop s vctx len userWritable
    (fun copied addr chunk m => copy m addr (fun i => kernel (kernelSrc+copied+i)) chunk)
    rounds 0 userDst user

def Holds (r : Vregion) (x : ℕ) : Prop := r.start ≤ x ∧ x < r.start+4096*r.pages

instance (r : Vregion) (x : ℕ) : Decidable (Holds r x) := inferInstanceAs (Decidable (_ ∧ _))

/-- The first region in list order that holds `x`. -/
def firstRegion (s : State σ) (nodes : List ℕ) (x : ℕ) : Option ℕ :=
  nodes.find? (fun p => decide (Holds (s.regions p) x))

/-- Some region holds `x`, and the first one grants the access. -/
def Allowed (s : State σ) (nodes : List ℕ) (access : ℕ → Bool) (x : ℕ) : Prop :=
  ∃ p, firstRegion s nodes x = some p ∧ access (s.regions p).flags = true

/-- Regions start at a page and end before the address space does. -/
def PageRegions (s : State σ) (nodes : List ℕ) : Prop :=
  ∀ p ∈ nodes, (s.regions p).start % 4096 = 0 ∧ (s.regions p).start+4096*(s.regions p).pages < 2^64

variable {s : State σ} {vctx : ℕ} {nodes : List ℕ}

theorem vgetLoop_eq {a : ℕ} (hp : Path (link s vctx) a nodes 0) (hnz : ∀ x ∈ nodes, x ≠ 0)
    (hends : ∀ p ∈ nodes, (s.regions p).start+4096*(s.regions p).pages < 2^64) (x fuel : ℕ)
    (hfuel : nodes.length < fuel) :
    vgetLoop s.regions x fuel (link s vctx a) = some ((firstRegion s nodes x).getD 0) := by
  induction nodes generalizing a fuel with
  | nil =>
    obtain ⟨fuel, rfl⟩ := Nat.exists_eq_add_of_lt hfuel
    have hend : link s vctx a = 0 := hp
    rw [vgetLoop, if_pos (.inl hend), hend]
    rfl
  | cons p ps ih =>
    rw [List.length_cons] at hfuel
    obtain ⟨fuel, rfl⟩ : ∃ k, fuel = k+1 := ⟨fuel-1, by omega⟩
    have hne := hnz p (by simp)
    have hend : regionEnd (s.regions p) = (s.regions p).start+4096*(s.regions p).pages :=
      wrap_of_lt (hends p (by simp))
    rw [hp.1, vgetLoop, hend, firstRegion, List.find?_cons]
    by_cases hx : Holds (s.regions p) x
    · rw [if_pos (.inr hx), decide_eq_true hx]
      rfl
    · have hstop : ¬(p = 0 ∨ (x ≥ (s.regions p).start ∧
          x < (s.regions p).start+4096*(s.regions p).pages)) := fun h => hx (h.resolve_left hne)
      rw [if_neg hstop, decide_eq_false hx, next_link s vctx hne]
      exact ih hp.2 (fun y hy => hnz y (List.mem_cons_of_mem p hy))
        (fun y hy => hends y (List.mem_cons_of_mem p hy)) fuel (by omega)

/-- `vget` returns the first region that holds the address. -/
theorem vget_eq (hl : Listed s vctx nodes) (hctx : vctx ≠ 0) (hr : PageRegions s nodes) (x : ℕ) :
    vget vctx x s = some ((firstRegion s nodes x).getD 0) := by
  rw [vget]
  split_ifs with hnull
  · have hroot := hnull.resolve_left hctx
    have hpath := hl.path
    cases nodes with
    | nil => rfl
    | cons p ps =>
      have hfirst : link s vctx 0 = p := hpath.1
      rw [link_zero, hroot] at hfirst
      exact absurd hfirst.symm (hl.nonzero List.mem_cons_self)
  · have hwalk := vgetLoop_eq hl.path (fun _ hp => hl.nonzero hp) (fun p hp => (hr p hp).2) x
      rounds hl.length_lt
    rwa [link_zero] at hwalk

/-- All addresses of a page have the same first region. -/
theorem firstRegion_page (hr : PageRegions s nodes) {x y : ℕ} (hpage : x/4096 = y/4096) :
    firstRegion s nodes x = firstRegion s nodes y := by
  rw [firstRegion, firstRegion]
  induction nodes with
  | nil => rfl
  | cons p ps ih =>
    have hstart := (hr p (by simp)).1
    have hsame : decide (Holds (s.regions p) x) = decide (Holds (s.regions p) y) := by
      rw [decide_eq_decide, Holds, Holds]
      omega
    rw [List.find?_cons, List.find?_cons, hsame, ih fun q hq => hr q (List.mem_cons_of_mem p hq)]

theorem allowed_page (hr : PageRegions s nodes) (access : ℕ → Bool) {x y : ℕ}
    (hpage : x/4096 = y/4096) : Allowed s nodes access x ↔ Allowed s nodes access y := by
  rw [Allowed, Allowed, firstRegion_page hr hpage]

/-- The test made before a chunk is the access right to its first byte. -/
theorem vget_allowed (hl : Listed s vctx nodes) (hctx : vctx ≠ 0) (hr : PageRegions s nodes)
    (access : ℕ → Bool) (x : ℕ) :
    ∃ r, vget vctx x s = some r ∧
      ((r = 0 ∨ access (s.regions r).flags = false) ↔ ¬Allowed s nodes access x) := by
  refine ⟨_, vget_eq hl hctx hr x, ?_⟩
  rw [Allowed]
  cases hfirst : firstRegion s nodes x with
  | none => simp
  | some p =>
    have hne := hl.nonzero (List.mem_of_find?_eq_some hfirst)
    simp [hne]

/-- The chunk goes to the end of the page or of the request. -/
theorem chunk_eq (rest addr : ℕ) :
    minSize rest (4096-(addr &&& (4096-1))) = min rest (4096-addr % 4096) := by
  rw [show (4096-1 : ℕ) = 2^12-1 by rfl, Nat.and_two_pow_sub_one_eq_mod, minSize]
  split_ifs <;> omega

/-- The loop copies up to the first byte without access and no further: `d`
bytes are allowed and moved, and it succeeds exactly when these are all. -/
theorem copyLoop_eq (hl : Listed s vctx nodes) (hctx : vctx ≠ 0) (hr : PageRegions s nodes)
    (access : ℕ → Bool) (move : ℕ → ℕ → ℕ → Mem → Mem)
    (hnone : ∀ copied addr m, move copied addr 0 m = m)
    (hjoin : ∀ copied addr j k m,
      move (copied+j) (addr+j) k (move copied addr j m) = move copied addr (j+k) m)
    (u len fuel copied : ℕ) (m : Mem) (hu : u+len < 2^64) (hcopied : copied ≤ len)
    (hfuel : len-copied < fuel) :
    ∃ d, copied+d ≤ len ∧ (∀ x ∈ Range (u+copied) d, Allowed s nodes access x) ∧
      (copied+d < len → ¬Allowed s nodes access (u+copied+d)) ∧
      copyLoop s vctx len access move fuel copied (u+copied) m =
        some (if copied+d = len then 0 else -1, move copied (u+copied) d m) := by
  induction fuel generalizing copied m with
  | zero => omega
  | succ fuel ih =>
    by_cases hmore : copied < len
    · obtain ⟨r, hget, htest⟩ := vget_allowed hl hctx hr access (u+copied)
      rw [copyLoop, if_pos hmore, hget, Option.bind_some]
      by_cases hallow : Allowed s nodes access (u+copied)
      · have hchunk := chunk_eq (len-copied) (u+copied)
        have hw : wrap (u+copied+min (len-copied) (4096-(u+copied) % 4096)) =
            u+(copied+min (len-copied) (4096-(u+copied) % 4096)) := by
          rw [wrap_of_lt (by omega)]
          omega
        rw [if_neg fun h => htest.mp h hallow]
        dsimp only
        rw [hchunk, hw]
        obtain ⟨d, hd, hall, hstop, heq⟩ := ih (copied+min (len-copied) (4096-(u+copied) % 4096))
          (move copied (u+copied) (min (len-copied) (4096-(u+copied) % 4096)) m) (by omega)
          (by omega)
        refine ⟨min (len-copied) (4096-(u+copied) % 4096)+d, by omega, fun x hx => ?_, ?_, ?_⟩
        · rw [mem_range] at hx
          by_cases hin : x < u+copied+min (len-copied) (4096-(u+copied) % 4096)
          · exact (allowed_page hr access (by omega)).mp hallow
          · exact hall x (by rw [mem_range]; omega)
        · intro hless
          have := hstop (by omega)
          rwa [show u+copied+(min (len-copied) (4096-(u+copied) % 4096)+d) =
            u+(copied+min (len-copied) (4096-(u+copied) % 4096))+d by omega]
        · rw [heq, ← Nat.add_assoc, ← Nat.add_assoc, hjoin, Nat.add_assoc copied]
      · rw [if_pos (htest.mpr hallow)]
        refine ⟨0, by omega, fun x hx => absurd hx (by simp), fun _ => hallow, ?_⟩
        rw [hnone, if_neg (by omega)]
    · refine ⟨0, by omega, fun x hx => absurd hx (by simp), fun h => absurd h hmore, ?_⟩
      rw [copyLoop, if_neg hmore, hnone, if_pos (by omega)]

/-- What a copy to or from user memory guarantees of its result and of the
memory `m'` it leaves: the first `d` bytes, all of them allowed, are copied to
`dst` and nothing else changes. -/
structure Exact (allowed : ℕ → Prop) (u len dst d : ℕ) (source : ℕ → UInt8) (m : Mem) (r : ℤ)
    (m' : Mem) : Prop where
  result : r = 0 ∨ r = -1
  succeeds : r = 0 ↔ ∀ x ∈ Range u len, allowed x
  complete : r = 0 ↔ d = len
  part : d ≤ len
  granted : ∀ x ∈ Range u d, allowed x
  copied : ∀ i < d, m' (dst+i) = source i
  frame : Set.EqOn m' m (Range dst d)ᶜ

theorem copy_exact {allowed : ℕ → Prop} {u len dst d : ℕ} {source : ℕ → UInt8} {m : Mem}
    (hd : d ≤ len) (hall : ∀ x ∈ Range u d, allowed x) (hstop : d < len → ¬allowed (u+d)) :
    Exact allowed u len dst d source m (if d = len then 0 else -1) (copy m dst source d) := by
  have hresult : (if d = len then (0 : ℤ) else -1) = 0 ↔ d = len := by
    split_ifs with h <;> simp [h]
  refine ⟨?_, ?_, hresult, hd, hall, fun i hi => ?_, fun x hx => copy_outside _ _ _ _ _ hx⟩
  · split_ifs
    · exact .inl rfl
    · exact .inr rfl
  · rw [hresult]
    constructor
    · rintro rfl
      exact hall
    · intro hevery
      by_contra hne
      exact hstop (by omega) (hevery (u+d) (by rw [mem_range]; omega))
  · rw [copy_inside _ _ _ _ _ (by rw [mem_range]; omega), Nat.add_sub_cancel_left]

/-- Both copies return. They succeed exactly when the first region of every
user address grants the access, copy all bytes then, and otherwise copy only
bytes whose access is granted. -/
theorem user_copies_exact (s : State σ) (vctx : ℕ) (nodes : List ℕ) (hl : Listed s vctx nodes)
    (hctx : vctx ≠ 0) (hr : PageRegions s nodes) (user kernel : Mem) (u k len : ℕ)
    (hu : u+len < 2^64) :
    (∃ r d user', copyToUser s vctx u k len kernel user = some (r, user') ∧
      Exact (Allowed s nodes userWritable) u len u d (fun i => kernel (k+i)) user r user') ∧
    (∃ r d kernel', copyFromUser s vctx k u len user kernel = some (r, kernel') ∧
      Exact (Allowed s nodes userReadable) u len k d (fun i => user (u+i)) kernel r kernel') := by
  have hfuel : len-0 < rounds := by
    rw [rounds]
    omega
  constructor
  · obtain ⟨d, hd, hall, hstop, heq⟩ := copyLoop_eq hl hctx hr userWritable
      (fun copied addr chunk m => copy m addr (fun i => kernel (k+copied+i)) chunk)
      (fun copied addr m => copy_none m addr _)
      (fun copied addr i j m => by
        rw [← copy_join]
        simp only [Nat.add_assoc])
      u len rounds 0 user hu (Nat.zero_le len) hfuel
    rw [Nat.zero_add] at hd hstop heq
    exact ⟨_, d, _, heq, copy_exact hd hall hstop⟩
  · obtain ⟨d, hd, hall, hstop, heq⟩ := copyLoop_eq hl hctx hr userReadable
      (fun copied addr chunk m => copy m (k+copied) (fun i => user (addr+i)) chunk)
      (fun copied addr m => copy_none m _ _)
      (fun copied addr i j m => by
        rw [← copy_join]
        simp only [Nat.add_assoc])
      u len rounds 0 kernel hu (Nat.zero_le len) hfuel
    rw [Nat.zero_add] at hd hstop heq
    exact ⟨_, d, _, heq, copy_exact hd hall hstop⟩

/-- A writable page followed by a read-only one. -/
def pairState : State Unit where
  phys := ⟨fun _ => 0, ()⟩
  regions := fun p =>
    if p = 0x100 then ⟨0x1000, 1, vmmPresent ||| vmmUser ||| vmmWrite, 0x200, 0⟩
    else ⟨0x2000, 1, vmmPresent ||| vmmUser, 0, 0x100⟩
  ctxs := fun _ => ⟨0x100, 0, 0⟩

theorem pairState_listed : Listed pairState 0x50 [0x100, 0x200] where
  path := ⟨rfl, rfl, rfl⟩
  nodup := by decide
  pointer := by decide

theorem pairState_pages : PageRegions pairState [0x100, 0x200] := by
  unfold PageRegions
  decide

theorem user_copies_exact_pair :
    (∃ r d user', copyToUser pairState 0x50 0x1ff0 0x9000 32 (fun _ => 7) (fun _ => 0) =
        some (r, user') ∧
      Exact (Allowed pairState [0x100, 0x200] userWritable) 0x1ff0 32 0x1ff0 d
        (fun _ => 7) (fun _ => 0) r user') ∧
    (∃ r d kernel', copyFromUser pairState 0x50 0x9000 0x1ff0 32 (fun _ => 0) (fun _ => 7) =
        some (r, kernel') ∧
      Exact (Allowed pairState [0x100, 0x200] userReadable) 0x1ff0 32 0x9000 d
        (fun _ => 0) (fun _ => 7) r kernel') :=
  user_copies_exact pairState 0x50 [0x100, 0x200] pairState_listed (by decide) pairState_pages
    (fun _ => 0) (fun _ => 7) 0x1ff0 0x9000 32 (by decide)

example : (copyToUser pairState 0x50 0x1ff0 0x9000 16 (fun _ => 7) (fun _ => 0)).map Prod.fst =
    some 0 := by decide +kernel

example : (copyToUser pairState 0x50 0x1ff0 0x9000 17 (fun _ => 7) (fun _ => 0)).map Prod.fst =
    some (-1) := by decide +kernel

end Emk.UserCopy
