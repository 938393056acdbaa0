import Mathlib.Data.List.Basic

/-!
# A cursor that deletes under itself

A list is scanned cyclically over `size` places, of which it may fill only
the first ones. A dead element under the cursor is deleted and the rest moves
up, so the cursor passes over the element behind it. The scan ends at the
first live element under the cursor, at the place where it started, or when
nothing is left.
-/

set_option autoImplicit false

namespace Emk.CursorScan

structure Reel (α : Type*) where
  items : List α
  cursor : ℕ

variable {α : Type*} (dead : α → Prop) [DecidablePred dead] (size : ℕ)

def visit (q : Reel α) : Option α × Reel α :=
  let c := (q.cursor+1) % size
  match q.items[c]? with
  | none => (none, ⟨q.items, c⟩)
  | some x => if dead x then (none, ⟨q.items.eraseIdx c, c⟩) else (some x, ⟨q.items, c⟩)

def scan (start : ℕ) : ℕ → Reel α → Option (Option α × Reel α)
  | 0, _ => none
  | fuel+1, q =>
    let r := visit dead size q
    if r.1 = none ∧ r.2.cursor ≠ start ∧ r.2.items ≠ [] then scan start fuel r.2 else some r

/-- What `m` visits to consecutive places do to a list: the place where a live
element was found and the list that is left. -/
def sweep : ℕ → List α → Option ℕ × List α
  | 0, xs => (none, xs)
  | _+1, [] => (none, [])
  | m+1, x::xs =>
    if dead x then
      match xs with
      | [] => (none, [])
      | y::ys => ((sweep m ys).1.map (·+1), y::(sweep m ys).2)
    else (some 0, x::xs)

variable {dead size}

section Sweep
variable {m : ℕ} {xs : List α}

theorem sweep_live {x : α} (hx : ¬ dead x) : sweep dead (m+1) (x::xs) = (some 0, x::xs) := by
  rw [sweep.eq_def]
  exact if_neg hx

theorem sweep_skip {x y : α} (hx : dead x) :
    sweep dead (m+1) (x::y::xs) = ((sweep dead m xs).1.map (·+1), y::(sweep dead m xs).2) := by
  rw [sweep.eq_def]
  exact if_pos hx

/-- A sweep looks at every second element. -/
theorem sweep_none_iff (m : ℕ) (xs : List α) :
    (sweep dead m xs).1 = none ↔ ∀ j < m, ∀ x ∈ xs[2*j]?, dead x := by
  induction m, xs using sweep.induct dead with
  | case1 xs => simp [sweep]
  | case2 m => simp [sweep]
  | case3 m x hx =>
    rw [sweep.eq_def]
    dsimp only
    rw [if_pos hx]
    refine iff_of_true rfl (fun j _ y hy => ?_)
    cases j with
    | zero => exact Option.some.inj hy ▸ hx
    | succ j => exact absurd hy (by simp [Nat.mul_add])
  | case4 m x hx y ys ih =>
    rw [sweep_skip hx, Option.map_eq_none_iff, ih]
    constructor
    · intro h j hj z hz
      cases j with
      | zero => exact Option.some.inj hz ▸ hx
      | succ j => exact h j (by omega) z hz
    · exact fun h j hj z hz => h (j+1) (by omega) z hz
  | case5 m x xs hx =>
    rw [sweep_live hx]
    refine iff_of_false (by simp) (fun h => hx ?_)
    exact h 0 (by omega) x rfl

/-- A sweep to the end of the list leaves every other element. -/
theorem sweep_left (m : ℕ) (xs : List α) (hnone : (sweep dead m xs).1 = none)
    (hm : xs.length ≤ 2*m) (t : ℕ) : (sweep dead m xs).2[t]? = xs[2*t+1]? := by
  induction m, xs using sweep.induct dead generalizing t with
  | case1 xs =>
    obtain rfl : xs = [] := List.eq_nil_of_length_eq_zero (by omega)
    simp [sweep]
  | case2 m => simp [sweep]
  | case3 m x hx =>
    rw [sweep.eq_def]
    dsimp only
    rw [if_pos hx]
    simp
  | case4 m x hx y ys ih =>
    rw [sweep_skip hx] at hnone ⊢
    rw [List.length_cons, List.length_cons] at hm
    cases t with
    | zero => rfl
    | succ t => exact ih (Option.map_eq_none_iff.mp hnone) (by omega) t
  | case5 m x xs hx =>
    rw [sweep_live hx] at hnone
    exact absurd hnone (by simp)

theorem sweep_found (m : ℕ) (xs : List α) {i : ℕ} (hfound : (sweep dead m xs).1 = some i) :
    i < m ∧ ∃ x, (sweep dead m xs).2[i]? = some x ∧ ¬ dead x := by
  induction m, xs using sweep.induct dead generalizing i with
  | case1 xs => exact absurd hfound (by simp [sweep])
  | case2 m => exact absurd hfound (by simp [sweep])
  | case3 m x hx =>
    rw [sweep.eq_def] at hfound
    dsimp only at hfound
    rw [if_pos hx] at hfound
    exact absurd hfound (by simp)
  | case4 m x hx y ys ih =>
    rw [sweep_skip hx] at hfound ⊢
    obtain ⟨j, hj, rfl⟩ := Option.map_eq_some_iff.mp hfound
    obtain ⟨hlt, z, hz, hlive⟩ := ih hj
    exact ⟨by omega, z, hz, hlive⟩
  | case5 m x xs hx =>
    rw [sweep_live hx] at hfound ⊢
    obtain rfl : 0 = i := Option.some.inj hfound
    exact ⟨by omega, x, rfl, hx⟩

/-- What a sweep finds stood at an even place, and everything at even places
before it was dead. -/
theorem sweep_found_at (m : ℕ) (xs : List α) {i : ℕ} (hfound : (sweep dead m xs).1 = some i) :
    (sweep dead m xs).2[i]? = xs[2*i]? ∧ ∀ j < i, ∀ x ∈ xs[2*j]?, dead x := by
  induction m, xs using sweep.induct dead generalizing i with
  | case1 xs => exact absurd hfound (by simp [sweep])
  | case2 m => exact absurd hfound (by simp [sweep])
  | case3 m x hx => exact absurd hfound (by simp [sweep, hx])
  | case4 m x hx y ys ih =>
    rw [sweep_skip hx] at hfound ⊢
    obtain ⟨i, hi, rfl⟩ := Option.map_eq_some_iff.mp hfound
    obtain ⟨hat, hdead⟩ := ih hi
    refine ⟨hat, fun j hj z hz => ?_⟩
    cases j with
    | zero => exact Option.some.inj hz ▸ hx
    | succ j => exact hdead j (by omega) z hz
  | case5 m x xs hx =>
    rw [sweep_live hx] at hfound ⊢
    obtain rfl : 0 = i := Option.some.inj hfound
    exact ⟨rfl, fun j hj => absurd hj (Nat.not_lt_zero j)⟩

/-- A sweep that finds nothing leaves the second element first. -/
theorem sweep_first (hnone : (sweep dead (m+1) xs).1 = none) :
    (sweep dead (m+1) xs).2[0]? = xs[1]? := by
  match xs with
  | [] => rfl
  | [x] =>
    by_cases hx : dead x
    · simp [sweep, hx]
    · rw [sweep_live hx] at hnone
      exact absurd hnone (by simp)
  | x::y::ys =>
    by_cases hx : dead x
    · rw [sweep_skip hx]
      rfl
    · rw [sweep_live hx] at hnone
      exact absurd hnone (by simp)

end Sweep

section Scan
variable {b c : ℕ} {pre rest : List α}

theorem visit_past (hb : (c+1) % size = b) (hpre : pre.length ≤ b) :
    visit dead size ⟨pre, c⟩ = (none, ⟨pre, b⟩) := by
  rw [visit]
  dsimp only
  rw [hb, List.getElem?_eq_none hpre]

theorem visit_at (hb : (c+1) % size = b) (hpre : pre.length = b) (x : α) (rest : List α) :
    visit dead size ⟨pre ++ x::rest, c⟩ =
      if dead x then (none, ⟨pre ++ rest, b⟩) else (some x, ⟨pre ++ x::rest, b⟩) := by
  subst hpre
  have herase : (pre ++ x::rest).eraseIdx pre.length = pre ++ rest := by
    rw [List.eraseIdx_append_of_length_le (Nat.le_refl _), Nat.sub_self, List.eraseIdx_cons_zero]
  rw [visit]
  dsimp only
  rw [hb, List.getElem?_append_right (Nat.le_refl _), Nat.sub_self, List.getElem?_cons_zero]
  dsimp only
  rw [herase]

variable (fuel start : ℕ)

/-- A visit that finds nothing, away from the start and with something left. -/
theorem scan_on {q q' : Reel α} (hv : visit dead size q = (none, q')) (hcur : q'.cursor ≠ start)
    (hitems : q'.items ≠ []) : scan dead size start (fuel+1) q = scan dead size start fuel q' := by
  rw [scan, hv]
  exact if_pos ⟨rfl, hcur, hitems⟩

theorem scan_end {q q' : Reel α} (hv : visit dead size q = (none, q')) (hcur : q'.cursor = start) :
    scan dead size start (fuel+1) q = some (none, q') := by
  rw [scan, hv]
  exact if_neg (fun h => h.2.1 hcur)

theorem scan_hit {q q' : Reel α} {x : α} (hv : visit dead size q = (some x, q')) :
    scan dead size start (fuel+1) q = some (some x, q') := by
  rw [scan, hv]
  exact if_neg (fun h => nomatch h.1)

/-- The cursor stands before place `b`; the list reaches up to it or ends before it. -/
structure Faces (size : ℕ) (pre rest : List α) (c b : ℕ) : Prop where
  next : (c+1) % size = b
  reach : pre.length ≤ b
  tight : rest ≠ [] → pre.length = b

theorem Faces.past (h : Faces size pre rest c b) (hb : b+1 < size) : Faces size pre [] b (b+1) :=
  ⟨Nat.mod_eq_of_lt hb, Nat.le_succ_of_le h.reach, fun h => absurd rfl h⟩

theorem Faces.skip {x y : α} {xs : List α} (h : Faces size pre (x::y::xs) c b) (hb : b+1 < size) :
    Faces size (pre ++ [y]) xs b (b+1) := by
  have hlen : (pre ++ [y]).length = b+1 := by
    rw [List.length_append, h.tight (by simp), List.length_singleton]
  exact ⟨Nat.mod_eq_of_lt hb, Nat.le_of_eq hlen, fun _ => hlen⟩

theorem scan_found {m i : ℕ} (h : Faces size pre rest c b) (hm : b+m < size)
    (hstart : ∀ j < m, b+j ≠ start) (hfound : (sweep dead (m+1) rest).1 = some i) :
    scan dead size start (fuel+m+1) ⟨pre ++ rest, c⟩ =
      some ((sweep dead (m+1) rest).2[i]?, ⟨pre ++ (sweep dead (m+1) rest).2, b+i⟩) := by
  induction m generalizing pre rest c b i with
  | zero =>
    cases rest with
    | nil => exact absurd hfound (by simp [sweep])
    | cons x xs =>
      by_cases hx : dead x
      · have := (sweep_none_iff 1 (x::xs)).mpr (fun j hj y hy => by
          obtain rfl : j = 0 := by omega
          exact Option.some.inj hy ▸ hx)
        rw [this] at hfound
        exact absurd hfound (by simp)
      · rw [sweep_live hx] at hfound ⊢
        obtain rfl : 0 = i := Option.some.inj hfound
        rw [scan_hit _ _ ((visit_at h.next (h.tight (by simp)) x xs).trans (if_neg hx))]
        rfl
  | succ m ih =>
    cases rest with
    | nil => exact absurd hfound (by simp [sweep])
    | cons x xs =>
      by_cases hx : dead x
      · cases xs with
        | nil => exact absurd hfound (by simp [sweep, hx])
        | cons y ys =>
          rw [sweep_skip hx] at hfound ⊢
          obtain ⟨j, hj, rfl⟩ := Option.map_eq_some_iff.mp hfound
          have hon := scan_on (fuel+(m+1)) start
            ((visit_at h.next (h.tight (by simp)) x (y::ys)).trans (if_pos hx))
            (hstart 0 (by omega)) (by simp)
          rw [hon]
          have hrec := ih (h.skip (by omega)) (by omega)
            (fun j hj => by rw [Nat.add_right_comm]; exact hstart (j+1) (by omega)) hj
          rw [List.append_assoc, List.append_assoc, Nat.add_right_comm b] at hrec
          exact hrec
      · rw [sweep_live hx] at hfound ⊢
        obtain rfl : 0 = i := Option.some.inj hfound
        rw [scan_hit _ _ ((visit_at h.next (h.tight (by simp)) x xs).trans (if_neg hx))]
        rfl

/-- The first visit of a sweep that does not end there. -/
theorem visit_first (h : Faces size pre rest c b) {m : ℕ}
    (hnone : (sweep dead (m+1) rest).1 = none) :
    ∃ pre' rest', visit dead size ⟨pre ++ rest, c⟩ = (none, ⟨pre' ++ rest', b⟩) ∧
      (b+1 < size → Faces size pre' rest' b (b+1)) ∧ (sweep dead m rest').1 = none ∧
      pre ++ (sweep dead (m+1) rest).2 = pre' ++ (sweep dead m rest').2 ∧
      ∀ x ∈ pre ++ rest, ¬ dead x → x ∈ pre' ++ rest' := by
  cases rest with
  | nil =>
    refine ⟨pre, [], ?_, fun hb => h.past hb, by cases m <;> rfl, by cases m <;> rfl,
      fun x hx _ => hx⟩
    rw [List.append_nil]
    exact visit_past h.next h.reach
  | cons x xs =>
    have hx : dead x := by
      by_contra hx
      rw [sweep_live hx] at hnone
      exact absurd hnone (by simp)
    have hv := (visit_at h.next (h.tight (by simp)) x xs).trans (if_pos hx)
    have hkeep : ∀ y ∈ pre ++ x::xs, ¬ dead y → y ∈ pre ++ xs := by
      intro y hy hlive
      have hne : y ≠ x := fun he => hlive (he ▸ hx)
      simp only [List.mem_append, List.mem_cons] at hy ⊢
      tauto
    cases xs with
    | nil =>
      refine ⟨pre, [], hv, fun hb => h.past hb, by cases m <;> rfl, ?_, hkeep⟩
      rw [sweep.eq_def]
      dsimp only
      rw [if_pos hx]
      cases m <;> rfl
    | cons y ys =>
      rw [sweep_skip hx] at hnone ⊢
      refine ⟨pre ++ [y], ys, ?_, fun hb => h.skip hb, Option.map_eq_none_iff.mp hnone, ?_, ?_⟩
      · rw [hv, List.append_assoc, List.singleton_append]
      · rw [List.append_assoc, List.singleton_append]
      · rw [List.append_assoc, List.singleton_append]
        exact hkeep

theorem scan_none {m : ℕ} (h : Faces size pre rest c b) (hm : b+m < size)
    (hstart : ∀ j < m, b+j ≠ start) (hlive : ∃ x ∈ pre ++ rest, ¬ dead x)
    (hnone : (sweep dead (m+1) rest).1 = none) :
    scan dead size start (fuel+m+1) ⟨pre ++ rest, c⟩ =
      if b+m = start then some (none, ⟨pre ++ (sweep dead (m+1) rest).2, b+m⟩)
      else scan dead size start fuel ⟨pre ++ (sweep dead (m+1) rest).2, b+m⟩ := by
  induction m generalizing pre rest c b with
  | zero =>
    obtain ⟨pre', rest', hv, -, -, heq, hkeep⟩ := visit_first h hnone
    rw [heq]
    by_cases hs : b+0 = start
    · rw [if_pos hs]
      exact scan_end fuel start hv hs
    · rw [if_neg hs]
      obtain ⟨x, hx, hxl⟩ := hlive
      exact scan_on fuel start hv hs (List.ne_nil_of_mem (hkeep x hx hxl))
  | succ m ih =>
    obtain ⟨pre', rest', hv, hf, hnone', heq, hkeep⟩ := visit_first h hnone
    obtain ⟨x, hx, hxl⟩ := hlive
    have hx' := hkeep x hx hxl
    rw [heq]
    have hon := scan_on (fuel+(m+1)) start hv (hstart 0 (by omega))
      (List.ne_nil_of_mem hx')
    rw [hon]
    have hrec := ih (hf (by omega)) (by omega)
      (fun j hj => by rw [Nat.add_right_comm]; exact hstart (j+1) (by omega)) ⟨x, hx', hxl⟩ hnone'
    rw [Nat.add_right_comm b] at hrec
    exact hrec

end Scan

section Around

/-- The element the scan found, or the first one that is left. -/
def pick (r : Option α × Reel α) : Option α × Reel α :=
  match r.1 with
  | some _ => r
  | none => (r.2.items[0]?, ⟨r.2.items, 0⟩)

/-- Every second element behind `c` is dead, so is every second one from the
front on, which passes over `c` itself, so are those that the first half
leaves under the cursor, and so is the one that ends up first. -/
structure Stranded (dead : α → Prop) (xs : List α) (c : ℕ) : Prop where
  odd : c % 2 = 1
  high : 3 ≤ c
  front : ∀ j, 2*j < c → ∀ y ∈ xs[2*j]?, dead y
  first : ∀ y ∈ xs[1]?, dead y
  behind : ∀ j < xs.length, ∀ y ∈ xs[c+1+2*j]?, dead y
  left : ∀ j, 2*j < c → ∀ y ∈ xs[c+2+4*j]?, dead y

instance decidableStranded (xs : List α) (c : ℕ) : Decidable (Stranded dead xs c) :=
  decidable_of_iff (c % 2 = 1 ∧ 3 ≤ c ∧ (∀ j < c, 2*j < c → ∀ y ∈ xs[2*j]?, dead y) ∧
      (∀ y ∈ xs[1]?, dead y) ∧ (∀ j < xs.length, ∀ y ∈ xs[c+1+2*j]?, dead y) ∧
      ∀ j < c, 2*j < c → ∀ y ∈ xs[c+2+4*j]?, dead y)
    ⟨fun ⟨h1, h2, h3, h4, h5, h6⟩ => ⟨h1, h2, fun j hj => h3 j (by omega) hj, h4, h5,
      fun j hj => h6 j (by omega) hj⟩,
      fun h => ⟨h.odd, h.high, fun j _ hj => h.front j hj, h.first, h.behind,
        fun j _ hj => h.left j hj⟩⟩

variable {c : ℕ} {low high : List α} {x : α}

theorem get_low (hc : low.length = c) {i : ℕ} (hi : i < c) (x : α) (high : List α) :
    (low ++ x::high)[i]? = low[i]? := List.getElem?_append_left (by omega)

theorem get_mid (hc : low.length = c) : (low ++ x::high)[c]? = some x := by
  rw [List.getElem?_append_right (by omega), hc, Nat.sub_self, List.getElem?_cons_zero]

theorem get_high (hc : low.length = c) (i : ℕ) : (low ++ x::high)[c+1+i]? = high[i]? := by
  rw [List.getElem?_append_right (by omega), hc, show c+1+i-c = i+1 by omega,
    List.getElem?_cons_succ]

/-- A list cut behind the cursor, which may stand past its end. -/
structure Cut (front behind : List α) (c : ℕ) : Prop where
  reach : front.length ≤ c+1
  tight : behind ≠ [] → front.length = c+1

variable {front behind : List α}

theorem cut_mid (hc : low.length = c) (x : α) (high : List α) : Cut (low ++ [x]) high c := by
  have hlen : (low ++ [x]).length = c+1 := by
    rw [List.length_append, hc, List.length_singleton]
  exact ⟨Nat.le_of_eq hlen, fun _ => hlen⟩

theorem Cut.faces (h : Cut front behind c) (hsize : c+1 < size) :
    Faces size front behind c (c+1) :=
  ⟨Nat.mod_eq_of_lt hsize, h.reach, h.tight⟩

theorem scan_behind_found (fuel : ℕ) (h : Cut front behind c) {i : ℕ}
    (hfound : (sweep dead (size-1-c) behind).1 = some i) :
    scan dead size c (fuel+size) ⟨front ++ behind, c⟩ =
      some ((sweep dead (size-1-c) behind).2[i]?,
        ⟨front ++ (sweep dead (size-1-c) behind).2, c+1+i⟩) := by
  obtain ⟨m, hm⟩ : ∃ m, size-1-c = m+1 := by
    refine ⟨size-1-c-1, ?_⟩
    by_contra hne
    rw [show size-1-c = 0 by omega] at hfound
    exact absurd hfound (by simp [sweep])
  rw [hm] at hfound ⊢
  have hfaces : Faces size front behind c (c+1) := h.faces (by omega)
  have hs := scan_found (fuel+c+1) c hfaces (by omega)
    (fun j _ => by omega) hfound
  rw [show fuel+c+1+m+1 = fuel+size by omega] at hs
  exact hs

theorem scan_behind_none (fuel : ℕ) (h : Cut front behind c)
    (hlive : ∃ y ∈ front ++ behind, ¬ dead y) (hsize : c < size)
    (hnone : (sweep dead (size-1-c) behind).1 = none) :
    scan dead size c (fuel+size) ⟨front ++ behind, c⟩ =
      scan dead size c (fuel+c+1) ⟨front ++ (sweep dead (size-1-c) behind).2, size-1⟩ := by
  by_cases hm : size-1-c = 0
  · rw [hm, sweep, show fuel+size = fuel+c+1 by omega, show size-1 = c by omega]
  obtain ⟨m, hm⟩ : ∃ m, size-1-c = m+1 := ⟨size-1-c-1, by omega⟩
  rw [hm] at hnone ⊢
  have hfaces : Faces size front behind c (c+1) := h.faces (by omega)
  have hs := scan_none (fuel+c+1) c hfaces (by omega)
    (fun j _ => by omega) hlive hnone
  rw [if_neg (by omega), show fuel+c+1+m+1 = fuel+size by omega,
    show c+1+m = size-1 by omega] at hs
  exact hs

theorem scan_high_found (fuel : ℕ) (hc : low.length = c) {i : ℕ}
    (hfound : (sweep dead (size-1-c) high).1 = some i) :
    scan dead size c (fuel+size) ⟨low ++ x::high, c⟩ =
      some ((sweep dead (size-1-c) high).2[i]?,
        ⟨low ++ x::(sweep dead (size-1-c) high).2, c+1+i⟩) := by
  have hs := scan_behind_found fuel (cut_mid hc x high) hfound
  rw [List.append_assoc, List.append_assoc] at hs
  exact hs

theorem scan_high_none (fuel : ℕ) (hx : ¬ dead x) (hc : low.length = c) (hsize : c < size)
    (hnone : (sweep dead (size-1-c) high).1 = none) :
    scan dead size c (fuel+size) ⟨low ++ x::high, c⟩ =
      scan dead size c (fuel+c+1) ⟨low ++ x::(sweep dead (size-1-c) high).2, size-1⟩ := by
  have hs := scan_behind_none fuel (cut_mid hc x high) ⟨x, by simp, hx⟩ hsize hnone
  rw [List.append_assoc, List.append_assoc] at hs
  exact hs

theorem faces_front (hsize : c < size) (xs : List α) : Faces size [] xs (size-1) 0 :=
  ⟨by rw [Nat.sub_add_cancel (by omega), Nat.mod_self], Nat.le_refl 0, fun _ => rfl⟩

theorem scan_low (fuel : ℕ) (hsize : c < size) {xs : List α} (hlive : ∃ y ∈ xs, ¬ dead y) :
    scan dead size c (fuel+c+1) ⟨xs, size-1⟩ =
      some (((sweep dead (c+1) xs).1.bind ((sweep dead (c+1) xs).2[·]?)),
        ⟨(sweep dead (c+1) xs).2, (sweep dead (c+1) xs).1.getD c⟩) := by
  cases hs : (sweep dead (c+1) xs).1 with
  | none =>
    have h := scan_none fuel c (faces_front hsize xs) (by omega)
      (fun j _ => by omega) hlive hs
    rw [if_pos (by omega), List.nil_append, List.nil_append, Nat.zero_add] at h
    exact h
  | some i =>
    have h := scan_found fuel c (faces_front hsize xs) (by omega)
      (fun j _ => by omega) hs
    rw [List.nil_append, List.nil_append, Nat.zero_add] at h
    exact h

/-- The second half of the round finds nothing. -/
theorem stranded_low {rest : List α} (hc : low.length = c)
    (hrest : ∀ t, rest[t]? = high[2*t+1]?) (hs : Stranded dead (low ++ x::high) c) :
    (sweep dead (c+1) (low ++ x::rest)).1 = none := by
  rw [sweep_none_iff]
  intro j hj y hy
  have hodd := hs.odd
  by_cases hlt : 2*j < c
  · rw [get_low hc hlt, ← get_low hc hlt x high] at hy
    exact hs.front j hlt y hy
  · obtain ⟨i, hi⟩ : ∃ i, 2*j = c+1+2*i := ⟨(2*j-c-1)/2, by omega⟩
    rw [hi, get_high hc, hrest, ← get_high (x := x) hc,
      show c+1+(2*(2*i)+1) = c+2+4*i by omega] at hy
    exact hs.left i (by omega) y hy

theorem stranded_iff {rest : List α} (hx : ¬ dead x) (hc : low.length = c)
    (hrest : ∀ t, rest[t]? = high[2*t+1]?) (hhigh : ∀ j, ∀ y ∈ high[2*j]?, dead y)
    (hlow : (sweep dead (c+1) (low ++ x::rest)).1 = none) :
    ∃ y, (sweep dead (c+1) (low ++ x::rest)).2[0]? = some y ∧
      (dead y ↔ Stranded dead (low ++ x::high) c) := by
  have hdead := (sweep_none_iff (c+1) (low ++ x::rest)).mp hlow
  have hodd : c % 2 = 1 := by
    by_contra heven
    have := hdead (c/2) (by omega) x
    rw [show 2*(c/2) = c by omega, get_mid hc] at this
    exact hx (this rfl)
  match low, hc, hdead with
  | [a], hc, hdead =>
    have ha : dead a := hdead 0 (by omega) a rfl
    obtain rfl : c = 1 := hc.symm
    refine ⟨x, ?_, iff_of_false hx (fun hs => absurd hs.high (by omega))⟩
    rw [List.singleton_append, sweep_skip ha]
    rfl
  | a::b::low, hc, hdead =>
    have ha : dead a := hdead 0 (by omega) a rfl
    refine ⟨b, ?_, fun hb => ⟨hodd, ?_, ?_, ?_, ?_, ?_⟩, fun hs => hs.first b rfl⟩
    · rw [List.cons_append, List.cons_append, sweep_skip ha]
      rfl
    · rw [List.length_cons, List.length_cons] at hc
      omega
    · intro j hj y hy
      refine hdead j (by omega) y ?_
      rw [get_low hc hj] at hy ⊢
      exact hy
    · intro y hy
      exact Option.some.inj hy ▸ hb
    · intro j _ y hy
      rw [get_high hc] at hy
      exact hhigh j y hy
    · intro j hj y hy
      refine hdead ((c+1)/2+j) (by omega) y ?_
      rw [show 2*((c+1)/2+j) = c+1+2*j by omega, get_high hc, hrest, ← get_high (x := x) hc,
        show c+1+(2*(2*j)+1) = c+2+4*j by omega]
      exact hy
  | [], hc, _ =>
    rw [List.length_nil] at hc
    omega

/-- Once around from a live element: the scan ends, and what is picked is dead
exactly when the scan was stranded. -/
theorem pick_dead_iff (fuel : ℕ) (hx : ¬ dead x) (hc : low.length = c)
    (hsize : c+1+high.length ≤ size) :
    ∃ r y, scan dead size c (fuel+size) ⟨low ++ x::high, c⟩ = some r ∧ (pick r).1 = some y ∧
      (pick r).2.items[(pick r).2.cursor]? = some y ∧
      (dead y ↔ Stranded dead (low ++ x::high) c) := by
  cases hhigh : (sweep dead (size-1-c) high).1 with
  | some i =>
    obtain ⟨hi, y, hy, hlive⟩ := sweep_found _ _ hhigh
    refine ⟨_, y, scan_high_found fuel hc hhigh, ?_, ?_, iff_of_false hlive (fun hs => ?_)⟩
    · rw [hy]
      rfl
    · rw [hy]
      exact (get_high hc i).trans hy
    · have hnone := (sweep_none_iff (size-1-c) high).mpr (fun j _ z hz => by
        obtain ⟨hlt, -⟩ := List.getElem?_eq_some_iff.mp hz
        refine hs.behind j ?_ z (by rw [get_high hc]; exact hz)
        rw [List.length_append, List.length_cons]
        omega)
      rw [hnone] at hhigh
      exact absurd hhigh (by simp)
  | none =>
    have hrest := sweep_left (size-1-c) high hhigh (by omega)
    have hdead : ∀ j, ∀ y ∈ high[2*j]?, dead y := by
      intro j y hy
      by_cases hj : j < size-1-c
      · exact (sweep_none_iff _ _).mp hhigh j hj y hy
      · rw [List.getElem?_eq_none (by omega)] at hy
        exact absurd hy (by simp)
    have hscan := scan_high_none fuel hx hc (by omega) hhigh
    rw [scan_low fuel (by omega) ⟨x, by simp, hx⟩] at hscan
    cases hlow : (sweep dead (c+1) (low ++ x::(sweep dead (size-1-c) high).2)).1 with
    | some i =>
      obtain ⟨-, y, hy, hlive⟩ := sweep_found _ _ hlow
      rw [hlow, Option.bind_some, hy] at hscan
      refine ⟨_, y, hscan, rfl, hy, iff_of_false hlive (fun hs => ?_)⟩
      rw [stranded_low hc hrest hs] at hlow
      exact absurd hlow (by simp)
    | none =>
      obtain ⟨y, hy, hiff⟩ := stranded_iff hx hc hrest hdead hlow
      rw [hlow] at hscan
      exact ⟨_, y, hscan, hy, hy, hiff⟩

/-- Without dead elements the cursor goes to the next place of the list. -/
theorem scan_live (fuel : ℕ) (hlive : ∀ y ∈ low ++ x::high, ¬ dead y) (hc : low.length = c)
    (hsize : c+1+high.length ≤ size) :
    scan dead size c (fuel+size) ⟨low ++ x::high, c⟩ =
      some ((low ++ x::high)[(c+1) % (low ++ x::high).length]?,
        ⟨low ++ x::high, (c+1) % (low ++ x::high).length⟩) := by
  have hlen : (low ++ x::high).length = c+1+high.length := by
    rw [List.length_append, List.length_cons, hc]
    omega
  cases high with
  | cons z zs =>
    have hz : ¬ dead z := hlive z (by simp)
    rw [List.length_cons] at hsize hlen
    obtain ⟨m, hm⟩ : ∃ m, size-1-c = m+1 := ⟨size-1-c-1, by omega⟩
    have hsweep : sweep dead (size-1-c) (z::zs) = (some 0, z::zs) := by
      rw [hm]
      exact sweep_live hz
    have hs := scan_high_found fuel (x := x) hc (i := 0) (by rw [hsweep])
    rw [hsweep] at hs
    rw [hs, hlen, Nat.mod_eq_of_lt (by omega), get_high (i := 0) hc]
  | nil =>
    have hsweep : sweep dead (size-1-c) ([] : List α) = (none, []) := by
      cases size-1-c <;> rfl
    have hs := scan_high_none fuel (hlive x (by simp)) hc (by omega)
      (by rw [hsweep] : (sweep dead (size-1-c) []).1 = none)
    rw [hsweep, scan_low fuel (by omega) ⟨x, by simp, hlive x (by simp)⟩] at hs
    obtain ⟨w, ws, hw⟩ : ∃ w ws, low ++ [x] = w::ws := List.exists_cons_of_ne_nil (by simp)
    have hdead : ¬ dead w := hlive w (by simp [hw])
    rw [hw, sweep_live hdead] at hs
    rw [List.length_nil] at hlen
    rw [hlen, Nat.add_zero, Nat.mod_self, hw, hs]
    rfl

end Around

end Emk.CursorScan
