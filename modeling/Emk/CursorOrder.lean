import Emk.CursorScan

/-!
# What the cursor passes over

A live element is expected to be picked when it is the first one in cyclic
order behind the cursor. Behind the cursor only every second place is looked
at, and so it is on the way back up to the cursor, where what the first half
has left has moved up.
-/

set_option autoImplicit false

namespace Emk.CursorScan

variable {α : Type*} {dead : α → Prop} {size c i : ℕ} {xs front behind rest : List α} {p : α}

/-- The elements at even places are dead. -/
def AlternateDead (dead : α → Prop) (xs : List α) : Prop := ∀ j, ∀ x ∈ xs[2*j]?, dead x

theorem alternateDead_iff : (∀ j < xs.length, ∀ x ∈ xs[2*j]?, dead x) ↔ AlternateDead dead xs := by
  refine ⟨fun h j x hx => h j ?_ x hx, fun h j _ => h j⟩
  obtain ⟨hlt, -⟩ := List.getElem?_eq_some_iff.mp hx
  omega

instance decidableAlternateDead [DecidablePred dead] (xs : List α) :
    Decidable (AlternateDead dead xs) :=
  decidable_of_iff (∀ j < xs.length, ∀ x ∈ xs[2*j]?, dead x) alternateDead_iff

/-- The first live element behind the cursor has an even number of dead ones
before it, or there is none and the first live one of the front stands at an
even place. Otherwise every second element of both parts is dead, and the
element is found on the way back, or ends up as the first one that is left. -/
def Reached (dead : α → Prop) [DecidablePred dead] (front behind : List α) : Prop :=
  match behind.findIdx? (fun y => ¬ dead y) with
  | some d => d % 2 = 0 ∨ (AlternateDead dead behind ∧ AlternateDead dead front ∧
      (front.length+d/2 = 1 ∨
        ((front.length+d/2) % 2 = 0 ∧ front.length+d/2+2 ≤ 2*front.length)))
  | none =>
    match front.findIdx? (fun y => ¬ dead y) with
    | some i => i % 2 = 0 ∨ (i = 1 ∧ AlternateDead dead front)
    | none => True

instance decidableReached [DecidablePred dead] (front behind : List α) :
    Decidable (Reached dead front behind) := by
  unfold Reached
  split
  · exact inferInstance
  · split
    · exact inferInstance
    · exact inferInstance

/-- The first live element of a list and its place. -/
structure FirstAt (dead : α → Prop) (xs : List α) (i : ℕ) (p : α) : Prop where
  here : xs[i]? = some p
  live : ¬ dead p
  before : ∀ j < i, ∀ y ∈ xs[j]?, dead y

/-- The first live element comes first among those at even places, or stands
at an odd one. -/
theorem FirstAt.even_iff (h : FirstAt dead xs i p) {k : ℕ} {y : α} (hy : xs[2*k]? = some y)
    (hlive : ¬ dead y) (hbefore : ∀ j < k, ∀ z ∈ xs[2*j]?, dead z) : 2*k = i ↔ i % 2 = 0 := by
  refine ⟨fun he => by omega, fun heven => ?_⟩
  by_contra hne
  by_cases hlt : 2*k < i
  · exact hlive (h.before (2*k) hlt y hy)
  · have hdead := hbefore (i/2) (by omega)
    rw [show 2*(i/2) = i by omega] at hdead
    exact h.live (hdead p h.here)

/-- The first live element of two lists is one of the first, or the first is
dead and it is one of the second. -/
theorem FirstAt.append_cases (h : FirstAt dead (behind ++ front) i p) :
    FirstAt dead behind i p ∨
      ((∀ y ∈ behind, dead y) ∧ FirstAt dead front (i-behind.length) p) := by
  by_cases hlt : i < behind.length
  · refine .inl ⟨?_, h.live, fun j hj y hy => h.before j hj y ?_⟩
    · rw [← h.here, List.getElem?_append_left hlt]
    · rw [List.getElem?_append_left (by omega)]
      exact hy
  · refine .inr ⟨fun y hy => ?_, ?_, h.live, fun j hj y hy => ?_⟩
    · obtain ⟨j, hj, rfl⟩ := List.getElem_of_mem hy
      refine h.before j (by omega) _ ?_
      rw [List.getElem?_append_left hj]
      exact List.getElem?_eq_getElem hj
    · rw [← h.here, List.getElem?_append_right (by omega)]
    · refine h.before (behind.length+j) (by omega) y ?_
      rw [List.getElem?_append_right (by omega), Nat.add_sub_cancel_left]
      exact hy

/-- Where every second element is dead, a live one stands at an odd place. -/
theorem FirstAt.odd (h : FirstAt dead xs i p) (halt : AlternateDead dead xs) : i % 2 = 1 := by
  by_contra heven
  have hdead := halt (i/2) p
  rw [show 2*(i/2) = i by omega] at hdead
  exact h.live (hdead h.here)

section Find
variable [DecidablePred dead]

theorem firstAt_of_find (h : xs.find? (fun y => ¬ dead y) = some p) :
    ∃ i, FirstAt dead xs i p := by
  obtain ⟨hp, i, hi, he, hbefore⟩ := List.find?_eq_some_iff_getElem.mp h
  refine ⟨i, List.getElem?_eq_some_iff.mpr ⟨hi, he⟩, by simpa using hp, fun j hj y hy => ?_⟩
  obtain ⟨hlt, rfl⟩ := List.getElem?_eq_some_iff.mp hy
  simpa using hbefore j hj

theorem FirstAt.findIdx (h : FirstAt dead xs i p) :
    xs.findIdx? (fun y => ¬ dead y) = some i := by
  obtain ⟨hi, he⟩ := List.getElem?_eq_some_iff.mp h.here
  refine List.findIdx?_eq_some_iff_getElem.mpr ⟨hi, ?_, fun j hj => ?_⟩
  · rw [he]
    simpa using h.live
  · have := h.before j hj xs[j] (List.getElem?_eq_getElem _)
    simpa using this

theorem findIdx_none (h : ∀ y ∈ xs, dead y) : xs.findIdx? (fun y => ¬ dead y) = none := by
  rw [List.findIdx?_eq_none_iff]
  intro y hy
  simpa using h y hy

end Find

/-- Where the elements that the first half has left stood before. -/
def place (n q : ℕ) : ℕ := if q < n then q else n+(2*(q-n)+1)

theorem left_place (hrest : ∀ t, rest[t]? = behind[2*t+1]?) (q : ℕ) :
    (front ++ rest)[q]? = (front ++ behind)[place front.length q]? := by
  rw [place]
  split_ifs with hq
  · rw [List.getElem?_append_left hq, List.getElem?_append_left hq]
  · rw [List.getElem?_append_right (by omega), List.getElem?_append_right (by omega), hrest,
      Nat.add_sub_cancel_left]

theorem left_inj (hrest : ∀ t, rest[t]? = behind[2*t+1]?) (hnodup : (front ++ behind).Nodup)
    {q q' : ℕ} (hq : (front ++ rest)[q]? = some p) (hq' : (front ++ rest)[q']? = some p) :
    q = q' := by
  rw [left_place hrest] at hq hq'
  obtain ⟨hlt, -⟩ := List.getElem?_eq_some_iff.mp hq
  have := (List.getElem?_inj hlt hnodup).mp (hq.trans hq'.symm)
  simp only [place] at this
  split_ifs at this <;> omega

theorem reached_behind [DecidablePred dead] {d : ℕ} (hp : FirstAt dead behind d p) :
    Reached dead front behind ↔ d % 2 = 0 ∨ (AlternateDead dead behind ∧ AlternateDead dead front ∧
      (front.length+d/2 = 1 ∨
        ((front.length+d/2) % 2 = 0 ∧ front.length+d/2+2 ≤ 2*front.length))) := by
  rw [Reached, hp.findIdx]

theorem reached_front [DecidablePred dead] (hb : ∀ y ∈ behind, dead y)
    (hp : FirstAt dead front i p) :
    Reached dead front behind ↔ i % 2 = 0 ∨ (i = 1 ∧ AlternateDead dead front) := by
  rw [Reached, findIdx_none hb, hp.findIdx]

/-- What the way back up to the cursor picks: the first live element at an even
place, or the second element if there is none. -/
def LowPick (dead : α → Prop) (c : ℕ) (ys : List α) (o : Option α) : Prop :=
  (∃ k ≤ c, ∃ y, o = some y ∧ ys[2*k]? = some y ∧ ¬ dead y ∧ ∀ j < k, ∀ z ∈ ys[2*j]?, dead z) ∨
    (o = ys[1]? ∧ ∀ j ≤ c, ∀ z ∈ ys[2*j]?, dead z)

theorem pick_low [DecidablePred dead] (fuel : ℕ) (hsize : c < size) {ys : List α}
    (hlive : ∃ y ∈ ys, ¬ dead y) :
    ∃ r, scan dead size c (fuel+c+1) ⟨ys, size-1⟩ = some r ∧
      (pick r).2.items[(pick r).2.cursor]? = (pick r).1 ∧ LowPick dead c ys (pick r).1 := by
  have hscan := @scan_low _ dead _ size c fuel hsize ys hlive
  cases hs : (sweep dead (c+1) ys).1 with
  | some k =>
    obtain ⟨hk, y, hy, hylive⟩ := sweep_found _ _ hs
    obtain ⟨hat, hbefore⟩ := sweep_found_at _ _ hs
    rw [hs, Option.bind_some, hy] at hscan
    exact ⟨_, hscan, hy, .inl ⟨k, by omega, y, rfl, hat.symm.trans hy, hylive, hbefore⟩⟩
  | none =>
    rw [hs] at hscan
    refine ⟨_, hscan, rfl, .inr ⟨sweep_first hs, fun j hj => ?_⟩⟩
    exact (sweep_none_iff (c+1) ys).mp hs j (by omega)

section Low
variable [DecidablePred dead] {o : Option α} (hrest : ∀ t, rest[t]? = behind[2*t+1]?)
  (hnodup : (front ++ behind).Nodup) (ho : LowPick dead c (front ++ rest) o)
include hrest hnodup ho

theorem low_front (hcut : Cut front behind c) (hb : ∀ y ∈ behind, dead y)
    (hp : FirstAt dead front i p) : o = some p ↔ Reached dead front behind := by
  have hi := (List.getElem?_eq_some_iff.mp hp.here).1
  have hreach := hcut.reach
  have hat : (front ++ rest)[i]? = some p := by rw [List.getElem?_append_left hi, hp.here]
  rw [reached_front hb hp]
  rcases ho with ⟨k, hk, y, rfl, hy, hylive, hbefore⟩ | ⟨rfl, hdead⟩
  · have hlt : 2*k < front.length := by
      by_contra hge
      rw [List.getElem?_append_right (by omega), hrest] at hy
      exact hylive (hb y (List.mem_of_getElem? hy))
    have hfront : front[2*k]? = some y := by rw [← hy, List.getElem?_append_left hlt]
    have heven := hp.even_iff hfront hylive (fun j hj z hz => by
      refine hbefore j hj z ?_
      rw [List.getElem?_append_left (by omega)]
      exact hz)
    rw [or_iff_left (fun h => hylive (h.2 k y hfront)), ← heven]
    constructor
    · rintro he
      obtain rfl := Option.some.inj he
      exact left_inj hrest hnodup hy hat
    · rintro rfl
      exact hy.symm.trans hat
  · constructor
    · intro he
      obtain rfl := left_inj hrest hnodup he hat
      refine .inr ⟨rfl, fun j z hz => ?_⟩
      obtain ⟨hj, -⟩ := List.getElem?_eq_some_iff.mp hz
      refine hdead j (by omega) z ?_
      rw [List.getElem?_append_left hj]
      exact hz
    · rintro (heven | ⟨rfl, -⟩)
      · have := hdead (i/2) (by omega) p
        rw [show 2*(i/2) = i by omega] at this
        exact absurd (this hat) hp.live
      · exact hat

theorem low_behind (hcut : Cut front behind c) (halt : AlternateDead dead behind)
    (hp : FirstAt dead behind i p) : o = some p ↔ Reached dead front behind := by
  have hi := (List.getElem?_eq_some_iff.mp hp.here).1
  have hlen := hcut.tight (List.ne_nil_of_length_pos (by omega))
  have hodd := hp.odd halt
  have hat : (front ++ rest)[front.length+i/2]? = some p := by
    rw [List.getElem?_append_right (by omega), hrest, ← hp.here]
    congr 1
    omega
  have hleft : ∀ {j}, j < front.length → (front ++ rest)[j]? = front[j]? :=
    fun hj => List.getElem?_append_left hj
  rw [reached_behind hp, or_iff_right (by omega), and_iff_right halt]
  rcases ho with ⟨k, hk, y, rfl, hy, hylive, hbefore⟩ | ⟨rfl, hdead⟩
  · constructor
    · intro he
      obtain rfl := Option.some.inj he
      have hplace := left_inj hrest hnodup hy hat
      refine ⟨fun j z hz => ?_, .inr ⟨by omega, by omega⟩⟩
      obtain ⟨hj, -⟩ := List.getElem?_eq_some_iff.mp hz
      refine hbefore j (by omega) z ?_
      rw [hleft hj]
      exact hz
    · rintro ⟨hfront, hplace⟩
      have hlow : front.length ≤ 2*k := by
        by_contra hlt
        rw [hleft (by omega)] at hy
        exact hylive (hfront k y hy)
      suffices h : 2*k = front.length+i/2 by rw [← hy, h, hat]
      by_contra hne
      by_cases hlt : 2*k < front.length+i/2
      · rw [List.getElem?_append_right hlow, hrest] at hy
        exact hylive (hp.before _ (by omega) y hy)
      · have := hbefore ((front.length+i/2)/2) (by omega) p
        rw [show 2*((front.length+i/2)/2) = front.length+i/2 by omega] at this
        exact hp.live (this hat)
  · constructor
    · intro he
      have hplace := left_inj hrest hnodup he hat
      refine ⟨fun j z hz => ?_, .inl hplace.symm⟩
      obtain ⟨hj, -⟩ := List.getElem?_eq_some_iff.mp hz
      refine hdead j (by omega) z ?_
      rw [hleft hj]
      exact hz
    · rintro ⟨-, hplace | ⟨heven, hle⟩⟩
      · rw [← hplace]
        exact hat
      · have := hdead ((front.length+i/2)/2) (by omega) p
        rw [show 2*((front.length+i/2)/2) = front.length+i/2 by omega] at this
        exact absurd (this hat) hp.live

end Low

section Around
variable [DecidablePred dead] (fuel : ℕ) (hcut : Cut front behind c)
  (hnodup : (front ++ behind).Nodup)
include hcut hnodup

/-- The scan ends behind the cursor. -/
theorem pick_behind {k d : ℕ} (hhigh : (sweep dead (size-1-c) behind).1 = some k)
    (hfirst : FirstAt dead (behind ++ front) d p) :
    ∃ r, scan dead size c (fuel+size) ⟨front ++ behind, c⟩ = some r ∧
      (pick r).2.items[(pick r).2.cursor]? = (pick r).1 ∧
      ((pick r).1 = some p ↔ Reached dead front behind) := by
  obtain ⟨-, y, hy, hylive⟩ := sweep_found _ _ hhigh
  obtain ⟨hat, hbefore⟩ := sweep_found_at _ _ hhigh
  have hyb : behind[2*k]? = some y := hat.symm.trans hy
  have hin := List.mem_of_getElem? hyb
  have hp := hfirst.append_cases.resolve_right fun h => hylive (h.1 y hin)
  have hscan := scan_behind_found fuel hcut hhigh
  rw [hy] at hscan
  refine ⟨_, hscan, ?_, ?_⟩
  · have hitem : (front ++ (sweep dead (size-1-c) behind).2)[front.length+k]? = some y := by
      rw [List.getElem?_append_right (by omega), Nat.add_sub_cancel_left, hy]
    rw [← hcut.tight (List.ne_nil_of_mem hin)]
    exact hitem
  · rw [reached_behind hp, or_iff_left (fun h => hylive (h.1 k y hyb)),
      ← hp.even_iff hyb hylive hbefore]
    constructor
    · intro he
      obtain rfl := Option.some.inj he
      exact (List.getElem?_inj (List.getElem?_eq_some_iff.mp hyb).1
        (List.nodup_append.mp hnodup).2.1).mp (hyb.trans hp.here.symm)
    · rintro rfl
      exact hyb.symm.trans hp.here

/-- The scan finds nothing behind the cursor and comes back up to it. -/
theorem pick_around {d : ℕ} (hsize : c < size) (hlen : (front ++ behind).length ≤ size)
    (hhigh : (sweep dead (size-1-c) behind).1 = none)
    (hfirst : FirstAt dead (behind ++ front) d p) :
    ∃ r, scan dead size c (fuel+size) ⟨front ++ behind, c⟩ = some r ∧
      (pick r).2.items[(pick r).2.cursor]? = (pick r).1 ∧
      ((pick r).1 = some p ↔ Reached dead front behind) := by
  have hroom : behind.length ≤ size-1-c := by
    rw [List.length_append] at hlen
    by_cases hnil : behind = []
    · rw [hnil, List.length_nil]
      omega
    · have := hcut.tight hnil
      omega
  have halt : AlternateDead dead behind := by
    intro j y hy
    obtain ⟨hj, -⟩ := List.getElem?_eq_some_iff.mp hy
    exact (sweep_none_iff _ _).mp hhigh j (by omega) y hy
  have hrest := sweep_left (size-1-c) behind hhigh (by omega)
  have hlive : ∃ y ∈ front ++ behind, ¬ dead y :=
    ⟨p, List.mem_append.mpr (List.mem_append.mp (List.mem_of_getElem? hfirst.here)).symm,
      hfirst.live⟩
  have hscan := scan_behind_none fuel hcut hlive hsize hhigh
  rcases hfirst.append_cases with hp | ⟨hdead, hp⟩
  · have hodd := hp.odd halt
    have hleft : (sweep dead (size-1-c) behind).2[d/2]? = some p := by
      rw [hrest, show 2*(d/2)+1 = d by omega, hp.here]
    obtain ⟨r, hr, hitem, hpick⟩ := pick_low fuel hsize
      ⟨p, List.mem_append_right front (List.mem_of_getElem? hleft), hp.live⟩
    exact ⟨r, hscan.trans hr, hitem, low_behind hrest hnodup hpick hcut halt hp⟩
  · obtain ⟨r, hr, hitem, hpick⟩ := pick_low fuel hsize
      ⟨p, List.mem_append_left (sweep dead (size-1-c) behind).2 (List.mem_of_getElem? hp.here),
        hp.live⟩
    exact ⟨r, hscan.trans hr, hitem, low_front hrest hnodup hpick hcut hdead hp⟩

/-- Once around: the scan ends, and it picks the first live element behind the
cursor exactly when that one is reached. -/
theorem pick_first_iff (hsize : c < size) (hlen : (front ++ behind).length ≤ size)
    (hfirst : (behind ++ front).find? (fun y => ¬ dead y) = some p) :
    ∃ r, scan dead size c (fuel+size) ⟨front ++ behind, c⟩ = some r ∧
      (pick r).2.items[(pick r).2.cursor]? = (pick r).1 ∧
      ((pick r).1 = some p ↔ Reached dead front behind) := by
  obtain ⟨d, hd⟩ := firstAt_of_find hfirst
  cases hhigh : (sweep dead (size-1-c) behind).1 with
  | some k => exact pick_behind fuel hcut hnodup hhigh hd
  | none => exact pick_around fuel hcut hnodup hsize hlen hhigh hd

end Around

end Emk.CursorScan
