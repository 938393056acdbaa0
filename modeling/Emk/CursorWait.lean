import Emk.CursorScan

/-!
# How long a live element waits

A scan can pass over a live element only by deleting something before it, and
then the element has moved up. So its place, and among equal places the way
that the cursor still has to go, count the scans down that do not pick it.
-/

set_option autoImplicit false

namespace Emk.CursorScan

/-- The visits until the cursor at `c` comes to place `i`. -/
def ahead (size c i : ℕ) : ℕ := if c < i then i-c else i+size-c

/-- A round for each place before the element, and the way to its own place. -/
def wait (size c i : ℕ) : ℕ := size*i+ahead size c i

section Ahead
variable {size c i j : ℕ}

theorem ahead_pos (hc : c < size) : 0 < ahead size c i := by
  rw [ahead]
  split_ifs <;> omega

theorem ahead_le (hi : i < size) : ahead size c i ≤ size := by
  rw [ahead]
  split_ifs <;> omega

theorem ahead_self (c : ℕ) : ahead size c c = size := by
  rw [ahead, if_neg (Nat.lt_irrefl c), Nat.add_sub_cancel_left]

/-- One visit is one place less to go, unless it gets there. -/
theorem ahead_next (hc : c < size) (hi : i < size) (hne : (c+1) % size ≠ i) :
    ahead size ((c+1) % size) i+1 = ahead size c i := by
  by_cases hlast : c+1 = size
  · rw [hlast, Nat.mod_self] at hne ⊢
    rw [ahead, ahead, if_pos (by omega), if_neg (by omega)]
    omega
  · rw [Nat.mod_eq_of_lt (by omega)] at hne ⊢
    rw [ahead, ahead]
    split_ifs <;> omega

theorem ahead_arrived (hc : c < size) (hi : i < size) (he : (c+1) % size = i) :
    ahead size c i = 1 := by
  by_cases hlast : c+1 = size
  · rw [hlast, Nat.mod_self] at he
    rw [ahead, if_neg (by omega)]
    omega
  · rw [Nat.mod_eq_of_lt (by omega)] at he
    rw [ahead, if_pos (by omega)]
    omega

/-- What is nearer among all places is nearer among the first ones. -/
theorem ahead_shrink {n d : ℕ} (hn : n ≤ size) (hc : c < n) (hd : d < n)
    (h : ahead size d i < ahead size c i) : ahead n d i < ahead n c i := by
  rw [ahead, ahead] at *
  split_ifs at * <;> omega

/-- An element that has moved up waits less, wherever the cursor is. -/
theorem wait_lt_of_place {d : ℕ} (hc : c < size) (hji : j < i) (hi : i < size) :
    wait size d j < wait size c i := by
  have hround : size*(j+1) ≤ size*i := Nat.mul_le_mul_left size hji
  rw [Nat.mul_succ] at hround
  have hpos : 0 < ahead size c i := ahead_pos hc
  have hle : ahead size d j ≤ size := ahead_le (by omega)
  rw [wait, wait]
  omega

theorem wait_le (hi : i < size) : wait size c i ≤ size*(i+1) := by
  rw [wait, Nat.mul_succ]
  exact Nat.add_le_add_left (ahead_le hi) _

end Ahead

section Scan
variable {α : Type*} {dead : α → Prop} [DecidablePred dead] {size start fuel i : ℕ} {q : Reel α}
  {r : Option α × Reel α} {p : α}

/-- A visit finds the element, or comes nearer to it, or moves it up. -/
theorem visit_wait (hc : q.cursor < size) (hi : i < size) (hp : q.items[i]? = some p)
    (hlive : ¬ dead p) :
    ((visit dead size q).1 = some p ∧ (visit dead size q).2.items[i]? = some p) ∨
      (∃ j < i, (visit dead size q).2.items[j]? = some p) ∨
      (ahead size (visit dead size q).2.cursor i+1 = ahead size q.cursor i ∧
        (visit dead size q).2.items[i]? = some p) := by
  rw [visit]
  by_cases he : (q.cursor+1) % size = i
  · rw [he, hp]
    dsimp only
    rw [if_neg hlive]
    exact .inl ⟨rfl, hp⟩
  · have hnext := ahead_next hc hi he
    cases hx : q.items[(q.cursor+1) % size]? with
    | none => exact .inr (.inr ⟨hnext, hp⟩)
    | some x =>
      dsimp only
      by_cases hdead : dead x
      · rw [if_pos hdead]
        by_cases hlt : (q.cursor+1) % size < i
        · refine .inr (.inl ⟨i-1, by omega, ?_⟩)
          rw [List.getElem?_eraseIdx, if_neg (by omega), Nat.sub_add_cancel (by omega), hp]
        · refine .inr (.inr ⟨hnext, ?_⟩)
          rw [List.getElem?_eraseIdx, if_pos (by omega), hp]
      · rw [if_neg hdead]
        exact .inr (.inr ⟨hnext, hp⟩)

variable (dead) in
theorem visit_cursor : (visit dead size q).2.cursor = (q.cursor+1) % size := by
  rw [visit]
  split
  · rfl
  · split_ifs <;> rfl

theorem visit_cursor_lt (hsize : 0 < size) : (visit dead size q).2.cursor < size := by
  rw [visit_cursor]
  exact Nat.mod_lt _ hsize

/-- A live element stays and does not move back. -/
theorem scan_place (hc : q.cursor < size) (hi : i < size) (hp : q.items[i]? = some p)
    (hlive : ¬ dead p) (hr : scan dead size start fuel q = some r) :
    ∃ j ≤ i, r.2.items[j]? = some p := by
  induction fuel generalizing q i with
  | zero => exact nomatch hr
  | succ fuel ih =>
    obtain ⟨j, hj, hp'⟩ : ∃ j ≤ i, (visit dead size q).2.items[j]? = some p := by
      rcases visit_wait hc hi hp hlive with ⟨-, h⟩ | ⟨j, hj, h⟩ | ⟨-, h⟩
      · exact ⟨i, Nat.le_refl i, h⟩
      · exact ⟨j, Nat.le_of_lt hj, h⟩
      · exact ⟨i, Nat.le_refl i, h⟩
    rw [scan] at hr
    split_ifs at hr
    · obtain ⟨j', hj', hp''⟩ := ih (visit_cursor_lt (by omega)) (by omega) hp' hr
      exact ⟨j', by omega, hp''⟩
    · exact Option.some.inj hr ▸ ⟨j, hj, hp'⟩

/-- A scan that has to pass the element before it may end finds it, or comes
nearer to it, or moves it up. -/
theorem scan_wait (hc : q.cursor < size) (hs : start < size) (hi : i < size)
    (hp : q.items[i]? = some p) (hlive : ¬ dead p)
    (hstart : ahead size q.cursor i ≤ ahead size q.cursor start)
    (hr : scan dead size start fuel q = some r) :
    r.1 = some p ∨ (∃ j < i, r.2.items[j]? = some p) ∨
      (r.1 ≠ none ∧ ahead size r.2.cursor i < ahead size q.cursor i ∧
        r.2.items[i]? = some p) := by
  induction fuel generalizing q with
  | zero => exact absurd hr (by simp [scan])
  | succ fuel ih =>
    rw [scan] at hr
    rcases visit_wait hc hi hp hlive with ⟨hfound, -⟩ | ⟨j, hj, hp'⟩ | ⟨hnear, hp'⟩
    · rw [if_neg (fun h => absurd (hfound.symm.trans h.1) (Option.some_ne_none p))] at hr
      exact Option.some.inj hr ▸ .inl hfound
    · refine .inr (.inl ?_)
      split_ifs at hr
      · obtain ⟨j', hj', hp''⟩ := scan_place (visit_cursor_lt (by omega)) (by omega) hp' hlive hr
        exact ⟨j', by omega, hp''⟩
      · exact Option.some.inj hr ▸ ⟨j, hj, hp'⟩
    · -- the element is still ahead, and so is the place where the scan would end
      have hpos : 0 < ahead size (visit dead size q).2.cursor i :=
        ahead_pos (visit_cursor_lt (by omega))
      have hstay : (q.cursor+1) % size ≠ start := by
        intro he
        have := ahead_arrived hc hs he
        omega
      have hleft := ahead_next hc hs hstay
      rw [← visit_cursor dead] at hstay hleft
      split_ifs at hr with hgo
      · rcases ih (visit_cursor_lt (by omega)) hp' (by omega) hr with h | h | ⟨hsome, hlt, h⟩
        · exact .inl h
        · exact .inr (.inl h)
        · exact .inr (.inr ⟨hsome, by omega, h⟩)
      · obtain rfl := Option.some.inj hr
        refine .inr (.inr ⟨fun hnone => hgo ⟨hnone, hstay, ?_⟩, by omega, hp'⟩)
        exact List.ne_nil_of_mem (List.mem_of_getElem? hp')

/-- What a scan finds stands under the cursor. -/
theorem scan_at (hr : scan dead size start fuel q = some r) (hsome : r.1 ≠ none) :
    r.2.items[r.2.cursor]? = r.1 := by
  induction fuel generalizing q with
  | zero => exact nomatch hr
  | succ fuel ih =>
    rw [scan] at hr
    split_ifs at hr
    · exact ih hr
    · obtain rfl := Option.some.inj hr
      revert hsome
      rw [visit]
      cases hx : q.items[(q.cursor+1) % size]? with
      | none => exact fun hsome => absurd rfl hsome
      | some x =>
        dsimp only
        split_ifs
        · exact fun hsome => absurd rfl hsome
        · exact fun _ => hx

/-- What is picked stands under the cursor. -/
theorem pick_at (hr : scan dead size start fuel q = some r) :
    (pick r).2.items[(pick r).2.cursor]? = (pick r).1 := by
  cases hx : r.1 with
  | none =>
    rw [pick, hx]
  | some x =>
    rw [pick, hx]
    dsimp only
    exact scan_at hr (by rw [hx]; exact Option.some_ne_none x)

/-- Once around: a live element is picked, or it waits less than before among
any number of places that holds the cursor. -/
theorem pick_wait {n : ℕ} (hn : n ≤ size) (hc : q.cursor < n) (hi : i < n)
    (hp : q.items[i]? = some p) (hlive : ¬ dead p)
    (hr : scan dead size q.cursor fuel q = some r) (hc' : (pick r).2.cursor < n) :
    (pick r).1 = some p ∨ ∃ j ≤ i, (pick r).2.items[j]? = some p ∧
      wait n (pick r).2.cursor j < wait n q.cursor i := by
  have hitems : (pick r).2.items = r.2.items := by
    rw [pick]
    split <;> rfl
  rw [hitems]
  have hstart : ahead size q.cursor i ≤ ahead size q.cursor q.cursor := by
    rw [ahead_self]
    exact ahead_le (by omega)
  rcases scan_wait (by omega) (by omega) (by omega) hp hlive hstart hr with
    hfound | ⟨j, hj, hp'⟩ | ⟨hsome, hlt, hp'⟩
  · refine .inl ?_
    rw [pick, hfound]
    exact hfound
  · exact .inr ⟨j, by omega, hp', wait_lt_of_place hc hj hi⟩
  · refine .inr ⟨i, Nat.le_refl i, hp', ?_⟩
    obtain ⟨x, hx⟩ := Option.ne_none_iff_exists'.mp hsome
    rw [pick, hx] at hc' ⊢
    exact Nat.add_lt_add_left (ahead_shrink hn hc hc' hlt) _

end Scan

end Emk.CursorScan
