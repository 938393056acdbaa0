import Emk.MachineWord
import Emk.ReadLog

/-!
# Strings and memory blocks

`lib/string.c`. Every byte read is logged. A loop that looks for the end of a
string is given one round for every address: one that is still going then has
come around and never ends.
-/

set_option autoImplicit false

namespace Emk.StringLib
open Emk.ByteMemory Emk.MachineWord Emk.Calls Emk.ReadLog

def byteAt (a : ℕ) : Call (Scan Mem) UInt8 := fun t => (some (t.globals a), logged t [a])

def setByte (a : ℕ) (c : UInt8) : Call (Scan Mem) Unit := assign fun m => fill m a c 1

/-- `pdest[i] = psrc[i]`. -/
def moveByte (dest src i : ℕ) : Call (Scan Mem) Unit := do
  let c ← byteAt (wrap (src+i))
  setByte (wrap (dest+i)) c

/-- The loop that counts `i` up, with `n` bytes to go. -/
def copyUp (dest src : ℕ) : ℕ → ℕ → Call (Scan Mem) Unit
  | _, 0 => pure ()
  | i, n+1 => do
    moveByte dest src i
    copyUp dest src (i+1) n

/-- The loop that counts `i` down. -/
def copyDown (dest src : ℕ) : ℕ → Call (Scan Mem) Unit
  | 0 => pure ()
  | i+1 => do
    moveByte dest src i
    copyDown dest src i

def memmove (dest src n : ℕ) : Call (Scan Mem) ℕ := do
  (if src > dest then copyUp dest src 0 n
    else if src < dest then copyDown dest src n
    else pure ())
  pure dest

section Blocks
variable {m : Mem} {dest src n : ℕ}

/-- The state after one byte has been moved. -/
def moved (t : Scan Mem) (a b : ℕ) : Scan Mem :=
  logged { t with globals := fill t.globals a (t.globals b) 1 } [b]

theorem moveByte_bind {α : Type} {i : ℕ} (f : Unit → Call (Scan Mem) α) (t : Scan Mem)
    (hdest : dest+i < 2^64) (hsrc : src+i < 2^64) :
    (moveByte dest src i >>= f) t = f () (moved t (dest+i) (src+i)) := by
  rw [moveByte, wrap_of_lt hdest, wrap_of_lt hsrc]
  rfl

/-- The memory `m` with `n` bytes of it moved from `src` to `dest` at once. -/
def snapshot (m : Mem) (dest src n : ℕ) : Mem := copy m dest (fun k => m (src+k)) n

theorem snapshot_inside {i : ℕ} (hi : i < n) : snapshot m dest src n (dest+i) = m (src+i) := by
  have hin : dest+i ∈ Range dest n := by
    rw [mem_range]
    omega
  rw [snapshot, copy_inside _ _ _ _ _ hin, Nat.add_sub_cancel_left]

theorem snapshot_outside {x : ℕ} (hx : x ∉ Range dest n) : snapshot m dest src n x = m x :=
  copy_outside _ _ _ _ _ hx

/-- Going up, the bytes below `i` are moved and those from `i` on are still to
be read: no byte written lies at or above the one read next. -/
theorem copyUp_apply (dest src i n : ℕ) (hdest : dest+(i+n) ≤ 2^64) (hsrc : src+(i+n) ≤ 2^64)
    (hdir : dest ≤ src ∨ src+(i+n) ≤ dest) (t : Scan Mem)
    (ht : t.globals = snapshot m dest src i) :
    ∃ l, (∀ x ∈ l, x ∈ Range src (i+n)) ∧ copyUp dest src i n t =
      (some (), logged { t with globals := snapshot m dest src (i+n) } l) := by
  induction n generalizing i t with
  | zero =>
    refine ⟨[], by simp, ?_⟩
    rw [copyUp, logged_nil, Nat.add_zero, ← ht]
    rfl
  | succ n ih =>
    have hunread : t.globals (src+i) = m (src+i) := by
      rw [ht]
      exact copy_outside _ _ _ _ _ (by rw [mem_range]; omega)
    have hnext : (moved t (dest+i) (src+i)).globals = snapshot m dest src (i+1) := by
      rw [snapshot, ← copy_join, copy_one, ← snapshot, ← ht, Nat.add_zero, ← hunread]
      rfl
    have hlen : i+1+n = i+(n+1) := by omega
    obtain ⟨l, hl, heq⟩ := ih (i+1) (by omega) (by omega) (by omega) _ hnext
    rw [hlen] at hl heq
    refine ⟨(src+i)::l, ?_, ?_⟩
    · intro x hx
      rcases List.mem_cons.mp hx with rfl | hx
      · rw [mem_range]
        omega
      · exact hl x hx
    · rw [copyUp, moveByte_bind _ t (by omega) (by omega), heq, logged, logged, moved, logged,
        List.append_assoc, List.singleton_append]

/-- Going down, the bytes from `i` on are moved and those below `i` are still
to be read: no byte written lies below the one read last. -/
theorem copyDown_apply (i j : ℕ) (hdest : dest+(i+j) ≤ 2^64) (hsrc : src+(i+j) ≤ 2^64)
    (hdir : src ≤ dest) (t : Scan Mem)
    (ht : t.globals = copy m (dest+i) (fun k => m (src+(i+k))) j) :
    ∃ l, (∀ x ∈ l, x ∈ Range src (i+j)) ∧ copyDown dest src i t =
      (some (), logged { t with globals := snapshot m dest src (i+j) } l) := by
  induction i generalizing j t with
  | zero =>
    refine ⟨[], by simp, ?_⟩
    simp only [Nat.zero_add, Nat.add_zero] at ht
    rw [copyDown, logged_nil, Nat.zero_add, snapshot, ← ht]
    rfl
  | succ i ih =>
    have hunread : t.globals (src+i) = m (src+i) := by
      rw [ht]
      exact copy_outside _ _ _ _ _ (by rw [mem_range]; omega)
    have hnext : (moved t (dest+i) (src+i)).globals =
        copy m (dest+i) (fun k => m (src+(i+k))) (1+j) := by
      change fill t.globals (dest+i) (t.globals (src+i)) 1 = _
      rw [hunread, ht, ← copy_join_front, copy_one]
      simp only [← Nat.add_assoc, Nat.add_zero]
    have hlen : i+(1+j) = i+1+j := by omega
    obtain ⟨l, hl, heq⟩ := ih (1+j) (by omega) (by omega) _ hnext
    rw [hlen] at hl heq
    refine ⟨(src+i)::l, ?_, ?_⟩
    · intro x hx
      rcases List.mem_cons.mp hx with rfl | hx
      · rw [mem_range]
        omega
      · exact hl x hx
    · rw [copyDown, moveByte_bind _ t (by omega) (by omega), heq, logged, logged, moved, logged,
        List.append_assoc, List.singleton_append]

theorem copyUp_start (hdest : dest+n ≤ 2^64) (hsrc : src+n ≤ 2^64)
    (hdir : dest ≤ src ∨ src+n ≤ dest) (t : Scan Mem) :
    ∃ l, (∀ x ∈ l, x ∈ Range src n) ∧ copyUp dest src 0 n t =
      (some (), logged { t with globals := snapshot t.globals dest src n } l) := by
  have h := copyUp_apply dest src 0 n (by rwa [Nat.zero_add]) (by rwa [Nat.zero_add])
    (by rwa [Nat.zero_add]) t (copy_none t.globals dest _).symm
  rwa [Nat.zero_add] at h

theorem copyDown_start (hdest : dest+n ≤ 2^64) (hsrc : src+n ≤ 2^64) (hdir : src ≤ dest)
    (t : Scan Mem) :
    ∃ l, (∀ x ∈ l, x ∈ Range src n) ∧ copyDown dest src n t =
      (some (), logged { t with globals := snapshot t.globals dest src n } l) :=
  copyDown_apply n 0 hdest hsrc hdir t (copy_none _ _ _).symm

theorem memmove_apply (hdest : dest+n ≤ 2^64) (hsrc : src+n ≤ 2^64) (t : Scan Mem) :
    ∃ l, (∀ x ∈ l, x ∈ Range src n) ∧ memmove dest src n t =
      (some dest, logged { t with globals := snapshot t.globals dest src n } l) := by
  rcases lt_trichotomy src dest with hlt | rfl | hgt
  · obtain ⟨l, hl, heq⟩ := copyDown_start hdest hsrc hlt.le t
    refine ⟨l, hl, ?_⟩
    rw [memmove, if_neg (by omega), if_pos hlt, bind_of_returned heq, pure_apply]
  · refine ⟨[], by simp, ?_⟩
    rw [memmove, if_neg (lt_irrefl src), if_neg (lt_irrefl src), logged_nil, snapshot, copy_self]
    rfl
  · obtain ⟨l, hl, heq⟩ := copyUp_start hdest hsrc (.inl hgt.le) t
    refine ⟨l, hl, ?_⟩
    rw [memmove, if_pos hgt, bind_of_returned heq, pure_apply]

/-- `memmove` moves the source as it was before the call, however the two
ranges overlap, and changes nothing else. -/
theorem memmove_snapshot (t : Scan Mem) (dest src n : ℕ) (hdest : dest+n ≤ 2^64)
    (hsrc : src+n ≤ 2^64) :
    ∃ t', memmove dest src n t = (some dest, t') ∧
      (∀ i < n, t'.globals (dest+i) = t.globals (src+i)) ∧
      Set.EqOn t'.globals t.globals (Range dest n)ᶜ := by
  obtain ⟨l, -, heq⟩ := memmove_apply hdest hsrc t
  exact ⟨_, heq, fun i hi => snapshot_inside hi, fun x hx => snapshot_outside hx⟩

theorem memmove_snapshot_overlap :
    ∃ t', memmove 12 10 5 ⟨fun a => UInt8.ofNat a, [], none⟩ = (some 12, t') ∧
      (∀ i < 5, t'.globals (12+i) = UInt8.ofNat (10+i)) ∧
      Set.EqOn t'.globals (fun a => UInt8.ofNat a) (Range 12 5)ᶜ :=
  memmove_snapshot ⟨fun a => UInt8.ofNat a, [], none⟩ 12 10 5 (by decide) (by decide)

end Blocks

section Strings
variable {m : Mem} {R : Set ℕ} {a b : ℕ} {cs ks : List UInt8}

/-- The characters `cs` and the terminating `NUL` at `a`. -/
def Spells (m : Mem) : ℕ → List UInt8 → Prop
  | a, [] => m a = 0
  | a, c::cs => m a = c ∧ c ≠ 0 ∧ Spells m (a+1) cs

instance decidableSpells (m : Mem) : ∀ a cs, Decidable (Spells m a cs)
  | a, [] => inferInstanceAs (Decidable (m a = 0))
  | a, c::cs =>
    have := decidableSpells m (a+1) cs
    inferInstanceAs (Decidable (m a = c ∧ c ≠ 0 ∧ Spells m (a+1) cs))

/-- A string of C: it does not start at `NULL` and lies in the address space. -/
structure CString (m : Mem) (a : ℕ) (cs : List UInt8) : Prop where
  nonnull : a ≠ 0
  fits : a+cs.length < 2^64
  spells : Spells m a cs

/-- A part of a string up to its end, in the memory that may be read. -/
structure Text (m : Mem) (R : Set ℕ) (a : ℕ) (cs : List UInt8) : Prop where
  fits : a+cs.length < 2^64
  spells : Spells m a cs
  within : Range a (cs.length+1) ⊆ R

theorem Spells.nonzero (h : Spells m a cs) : ∀ c ∈ cs, c ≠ 0 := by
  induction cs generalizing a with
  | nil => simp
  | cons c cs ih =>
    intro d hd
    rcases List.mem_cons.mp hd with rfl | hd
    · exact h.2.1
    · exact ih h.2.2 d hd

/-- Characters copied elsewhere and terminated there. -/
theorem Spells.copied {m' : Mem} (h : Spells m a (ks ++ cs))
    (heq : ∀ i < ks.length, m' (b+i) = m (a+i)) (hend : m' (b+ks.length) = 0) :
    Spells m' b ks := by
  induction ks generalizing a b with
  | nil => exact hend
  | cons c ks ih =>
    refine ⟨(heq 0 (by simp)).trans h.1, h.2.1, ih h.2.2 (fun i hi => ?_) ?_⟩
    · have := heq (i+1) (by simpa using hi)
      rwa [Nat.add_comm i, ← Nat.add_assoc, ← Nat.add_assoc] at this
    · rwa [List.length_cons, Nat.add_comm ks.length, ← Nat.add_assoc] at hend

theorem CString.text (h : CString m a cs) (hR : Range a (cs.length+1) ⊆ R) : Text m R a cs :=
  ⟨h.fits, h.spells, hR⟩

theorem Text.mem (h : Text m R a cs) : a ∈ R := h.within (by simp)

theorem Text.tail {c : UInt8} (h : Text m R a (c::cs)) : Text m R (a+1) cs := by
  have hfits := h.fits
  rw [List.length_cons] at hfits
  refine ⟨by omega, h.spells.2.2, fun x hx => h.within ?_⟩
  rw [List.length_cons]
  rw [mem_range] at hx ⊢
  omega

theorem Text.drop (h : Text m R a (ks ++ cs)) : Text m R (a+ks.length) cs := by
  induction ks generalizing a with
  | nil => exact h
  | cons c ks ih =>
    have := ih h.tail
    rwa [Nat.add_assoc, Nat.add_comm 1, ← List.length_cons] at this

end Strings

end Emk.StringLib
