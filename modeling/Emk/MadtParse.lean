import Emk.Madt

/-!
# What parsing the MADT finds and reads

The loop visits the records that cover the body of the table, and the lists
hold the first of each type. It reads the table only, but for one byte: a
record that begins with the last byte of the table has its length behind it.
-/

set_option autoImplicit false

namespace Emk.Madt
open Emk.ByteMemory Emk.Calls Emk.ReadLog Emk.Acpi

variable {m : Mem} {madt : ℕ}

/-- The globals after the entry at `o`. -/
def noted (m : Mem) (madt : ℕ) (g : Globals) (o : ℕ) : Globals :=
  (caseOf (typeAt m madt o)).note m (madt+44+o) g

theorem noted_list (g : Globals) (o : ℕ) (k : Kind) :
    (noted m madt g o).list k =
      if typeAt m madt o = k.form.type ∧ (g.list k).length < 256 then
        g.list k ++ [madt+44+o] else g.list k := by
  rw [noted]
  cases hc : caseOf (typeAt m madt o) with
  | listed k' =>
    have htype := caseOf_listed.mp hc
    by_cases hk : k = k'
    · rw [hk, Case.note, record]
      dsimp only
      rw [Function.update_self]
      simp only [htype, true_and]
    · rw [if_neg, Case.note, record]
      · exact Function.update_of_ne hk _ _
      · rintro ⟨h, -⟩
        rw [caseOf_listed.mpr h] at hc
        exact hk (Case.listed.inj hc)
  | addrOvr =>
    rw [if_neg, Case.note]
    rintro ⟨h, -⟩
    rw [caseOf_listed.mpr h] at hc
    cases hc
  | unknown =>
    rw [if_neg, Case.note]
    rintro ⟨h, -⟩
    rw [caseOf_listed.mpr h] at hc
    cases hc

theorem noted_lapicAddr (g : Globals) (o : ℕ) :
    (noted m madt g o).lapicAddr =
      if typeAt m madt o = madtEntryLapicAddrOvr.type then load m (madt+44+o+4) 8
      else g.lapicAddr := by
  rw [noted]
  by_cases h : typeAt m madt o = madtEntryLapicAddrOvr.type
  · rw [if_pos h, caseOf_addrOvr.mpr h]
    rfl
  · rw [if_neg h]
    cases hc : caseOf (typeAt m madt o) with
    | listed k => rfl
    | addrOvr => exact absurd (caseOf_addrOvr.mp hc) h
    | unknown => rfl

/-- A list takes entries until it is full. -/
theorem foldl_list (es : List ℕ) (g : Globals) (k : Kind) (hfull : (g.list k).length ≤ 256) :
    (es.foldl (noted m madt) g).list k =
      (g.list k ++ (es.filter (fun o => typeAt m madt o = k.form.type)).map (madt+44+·)).take
        256 := by
  induction es generalizing g with
  | nil => simp [List.take_of_length_le hfull]
  | cons o es ih =>
    have hstep := @noted_list m madt g o k
    rw [List.foldl_cons]
    by_cases htype : typeAt m madt o = k.form.type
    · rw [List.filter_cons_of_pos (by simpa using htype), List.map_cons]
      by_cases hroom : (g.list k).length < 256
      · rw [if_pos ⟨htype, hroom⟩] at hstep
        rw [ih _ (by rw [hstep, List.length_append, List.length_singleton]; omega), hstep,
          List.append_assoc, List.singleton_append]
      · have hlen : (g.list k).length = 256 := by omega
        rw [if_neg (fun h => hroom h.2)] at hstep
        rw [ih _ (hstep ▸ hfull), hstep, List.take_append_of_le_length hlen.ge,
          List.take_append_of_le_length hlen.ge]
    · rw [if_neg (fun h => htype h.1)] at hstep
      rw [List.filter_cons_of_neg (by simpa using htype), ih _ (hstep ▸ hfull), hstep]

/-- The last override wins. -/
theorem foldl_lapicAddr (es : List ℕ) (g : Globals) :
    (es.foldl (noted m madt) g).lapicAddr =
      (((es.filter (fun o => typeAt m madt o = madtEntryLapicAddrOvr.type)).getLast?).map
        (fun o => load m (madt+44+o+4) 8)).getD g.lapicAddr := by
  induction es generalizing g with
  | nil => rfl
  | cons o es ih =>
    rw [List.foldl_cons, ih, noted_lapicAddr]
    by_cases htype : typeAt m madt o = madtEntryLapicAddrOvr.type
    · rw [if_pos htype, List.filter_cons_of_pos (by simpa using htype), List.getLast?_cons]
      cases (es.filter fun o => typeAt m madt o = madtEntryLapicAddrOvr.type).getLast? <;> rfl
    · rw [if_neg htype, List.filter_cons_of_neg (by simpa using htype)]

section Loop
variable {fuel o : ℕ} {t : Scan Globals}

theorem parseLoop_end (ho : ¬ o < total m madt-44) :
    parseLoop m madt (fuel+1) o t =
      (some (), logged t (List.range' (madt+sdtLength) 4)) := by
  rw [parseLoop, peek_bind, if_neg ho]
  rfl

theorem parseLoop_round (ho : o < total m madt-44) :
    parseLoop m madt (fuel+1) o t =
      (parseEntry m madt o >>= fun length => parseLoop m madt fuel (o+length))
        (logged t (List.range' (madt+sdtLength) 4)) := by
  rw [parseLoop, peek_bind, if_pos ho]

/-- A loop that returns has visited the records that cover the rest of the
body. -/
theorem parseLoop_returns (ho : o ≤ total m madt-44) {t' : Scan Globals}
    (h : parseLoop m madt fuel o t = (some (), t')) :
    ∃ es, Covers (lengthAt m madt) o es (total m madt-44) ∧ (∀ e ∈ es, WellSized m madt e) ∧
      t'.globals = es.foldl (noted m madt) t.globals := by
  induction fuel generalizing o t with
  | zero => exact absurd (Prod.mk.inj h).1 (by simp)
  | succ fuel ih =>
    by_cases hlt : o < total m madt-44
    · rw [parseLoop_round hlt] at h
      obtain ⟨l, -, -, ⟨-, text, heq⟩ | ⟨⟨hpos, hfit, hsize⟩, heq⟩⟩ := parseEntry_cases hlt
        (logged t (List.range' (madt+sdtLength) 4))
      · rw [bind_of_never heq] at h
        exact absurd (Prod.mk.inj h).1 (by simp)
      · rw [bind_of_returned heq] at h
        obtain ⟨es, hcovers, hall, hglobals⟩ := ih hfit h
        refine ⟨o::es, ⟨rfl, hpos, hcovers⟩, ?_, hglobals⟩
        exact List.forall_mem_cons.mpr ⟨hsize, hall⟩
    · rw [parseLoop_end hlt] at h
      obtain ⟨-, rfl⟩ := Prod.mk.inj h
      exact ⟨[], by rw [Covers]; omega, fun _ he => absurd he List.not_mem_nil, rfl⟩

/-- With a round for each byte the loop returns or panics. -/
theorem parseLoop_halts (hfuel : total m madt-44 < o+fuel) (ho : o ≤ total m madt-44) :
    (parseLoop m madt fuel o t).1 = some () ∨
      ∃ text, (parseLoop m madt fuel o t).2.panic = some text := by
  induction fuel generalizing o t with
  | zero => omega
  | succ fuel ih =>
    by_cases hlt : o < total m madt-44
    · rw [parseLoop_round hlt]
      obtain ⟨l, -, -, ⟨-, text, heq⟩ | ⟨⟨hpos, hfit, hsize⟩, heq⟩⟩ := parseEntry_cases hlt
        (logged t (List.range' (madt+sdtLength) 4))
      · rw [bind_of_never heq]
        exact .inr ⟨text, rfl⟩
      · rw [bind_of_returned heq]
        exact ih (by omega) hfit
    · rw [parseLoop_end hlt]
      exact .inl rfl

/-- Accepted records lead from `o` to the last byte of the table. -/
def Dangling (m : Mem) (madt o : ℕ) : Prop :=
  ∃ es e, Covers (lengthAt m madt) o es e ∧ (∀ x ∈ es, WellSized m madt x) ∧
    e+45 = total m madt

theorem dangling_step :
    Dangling m madt o ↔ o+45 = total m madt ∨ (0 < lengthAt m madt o ∧ WellSized m madt o ∧
      Dangling m madt (o+lengthAt m madt o)) := by
  constructor
  · rintro ⟨_ | ⟨x, es⟩, e, hcovers, hall, hlast⟩
    · obtain rfl : o = e := hcovers
      exact .inl hlast
    · obtain ⟨rfl, hpos, hrest⟩ := hcovers
      obtain ⟨hx, hes⟩ := List.forall_mem_cons.mp hall
      exact .inr ⟨hpos, hx, es, e, hrest, hes, hlast⟩
  · rintro (hlast | ⟨hpos, hx, es, e, hcovers, hall, hlast⟩)
    · exact ⟨[], o, rfl, fun _ h => absurd h List.not_mem_nil, hlast⟩
    · exact ⟨o::es, e, ⟨rfl, hpos, hcovers⟩, List.forall_mem_cons.mpr ⟨hx, hall⟩, hlast⟩

theorem Dangling.le (h : Dangling m madt o) : o+45 ≤ total m madt := by
  obtain ⟨es, e, hcovers, -, hlast⟩ := h
  have := hcovers.le
  omega

/-- The loop leaves the table exactly when accepted records lead to its last
byte. -/
theorem parseLoop_reads (hfuel : total m madt-44 < o+fuel) (ho : o ≤ total m madt-44)
    (htotal : 44 ≤ total m madt) :
    ∃ l, (parseLoop m madt fuel o t).2.reads = t.reads ++ l ∧
      ((∀ a ∈ l, a ∈ Range madt (total m madt)) ↔ ¬ Dangling m madt o) := by
  have hlength : ∀ a ∈ List.range' (madt+sdtLength) 4, a ∈ Range madt (total m madt) := by
    intro a ha
    rw [List.mem_range'_1, sdtLength] at ha
    rw [mem_range]
    omega
  induction fuel generalizing o t with
  | zero => omega
  | succ fuel ih =>
    by_cases hlt : o < total m madt-44
    · rw [parseLoop_round hlt]
      obtain ⟨l, hhead, hl, ⟨hno, text, heq⟩ | ⟨⟨hpos, hfit, hsize⟩, heq⟩⟩ := parseEntry_cases hlt
        (logged t (List.range' (madt+sdtLength) 4))
      all_goals
        have hentry : (∀ a ∈ l, a ∈ Range madt (total m madt)) ↔ o+45 ≠ total m madt := by
          constructor
          · intro hall
            have := hall _ hhead
            rw [mem_range] at this
            omega
          · intro hne a ha
            rcases hl a ha with hin | rfl
            · exact hin
            · rw [mem_range]
              omega
      · refine ⟨List.range' (madt+sdtLength) 4 ++ l, ?_, ?_⟩
        · rw [bind_of_never heq]
          exact List.append_assoc _ _ _
        · rw [List.forall_mem_append, hentry, dangling_step, not_or]
          refine ⟨fun h => ⟨h.2, ?_⟩, fun h => ⟨hlength, h.1⟩⟩
          rintro ⟨hpos, hsize, hrest⟩
          have := hrest.le
          exact hno ⟨hpos, by omega, hsize⟩
      · obtain ⟨l', hreads, hiff⟩ := ih (o := o+lengthAt m madt o)
          (t := { logged (logged t (List.range' (madt+sdtLength) 4)) l with
            globals := (caseOf (typeAt m madt o)).note m (madt+44+o)
              (logged t (List.range' (madt+sdtLength) 4)).globals }) (by omega) hfit
        refine ⟨List.range' (madt+sdtLength) 4 ++ l ++ l', ?_, ?_⟩
        · rw [bind_of_returned heq, hreads]
          simp only [logged, List.append_assoc]
        · rw [List.forall_mem_append, List.forall_mem_append, hentry, hiff,
            dangling_step (o := o), not_or]
          exact ⟨fun h => ⟨h.1.2, fun h' => h.2 h'.2.2⟩,
            fun h => ⟨⟨hlength, h.1⟩, fun h' => h.2 ⟨hpos, hsize, h'⟩⟩⟩
    · rw [parseLoop_end hlt]
      refine ⟨List.range' (madt+sdtLength) 4, rfl, fun _ h => ?_, fun _ => hlength⟩
      have := h.le
      omega

end Loop

section Init
variable {hhdmOffset : ℕ} {acpi : AcpiState} {t : Scan Globals}

theorem total_lt (m : Mem) (madt : ℕ) : total m madt < 2^32 := load_lt m (madt+sdtLength) 4

/-- The state in which the loop begins. -/
def begun (m : Mem) (madt : ℕ) (t : Scan Globals) : Scan Globals :=
  { logged t (List.range' (madt+sdtLength) 4 ++ List.range' (madt+36) 4) with
    globals := { t.globals with lapicAddr := load m (madt+36) 4 } }

theorem parseTable_loop (h : 44 ≤ total m madt) :
    parseTable m madt t = parseLoop m madt rounds 0 (begun m madt t) := by
  rw [parseTable, peek_bind, if_neg (not_lt.mpr h), peek_bind, assign_bind, logged_logged]
  rfl

theorem parseTable_small (h : total m madt < 44) :
    (parseTable m madt t).1 = none ∧
      (parseTable m madt t).2.panic = some "MADT table is too small" := by
  rw [parseTable, peek_bind, if_pos h]
  exact ⟨rfl, rfl⟩

theorem parseTable_halts (hnone : (parseTable m madt t).1 = none) :
    ∃ text, (parseTable m madt t).2.panic = some text := by
  by_cases h : 44 ≤ total m madt
  · rw [parseTable_loop h] at hnone ⊢
    have := total_lt m madt
    refine (parseLoop_halts ?_ (Nat.zero_le _)).resolve_left (by rw [hnone]; simp)
    rw [rounds]
    omega
  · exact ⟨_, (parseTable_small (not_le.mp h)).2⟩

/-- What a completed run found. -/
structure Faithful (m : Mem) (madt : ℕ) (g : Globals) : Prop where
  entries : ∃ es, Covers (lengthAt m madt) 0 es (total m madt-44) ∧
    (∀ k, g.list k =
      ((es.filter (fun o => typeAt m madt o = k.form.type)).map (madt+44+·)).take 256) ∧
    g.lapicAddr =
      (((es.filter (fun o => typeAt m madt o = madtEntryLapicAddrOvr.type)).getLast?).map
        (fun o => load m (madt+44+o+4) 8)).getD (load m (madt+36) 4)
  inside : ∀ k, ∀ x ∈ g.list k, madt+44 ≤ x ∧ x+k.form.size ≤ madt+total m madt

theorem parseTable_faithful (hlists : ∀ k, t.globals.list k = [])
    (hdone : (parseTable m madt t).1 = some ()) :
    44 ≤ total m madt ∧ Faithful m madt (parseTable m madt t).2.globals := by
  have h : 44 ≤ total m madt := by
    by_contra hno
    rw [(parseTable_small (not_le.mp hno)).1] at hdone
    exact absurd hdone (by simp)
  rw [parseTable_loop h] at hdone ⊢
  obtain ⟨es, hcovers, hsized, hglobals⟩ := parseLoop_returns (Nat.zero_le _)
    (Prod.ext hdone rfl)
  have hlist : ∀ k, (parseLoop m madt rounds 0 (begun m madt t)).2.globals.list k =
      ((es.filter (fun o => typeAt m madt o = k.form.type)).map (madt+44+·)).take 256 := by
    intro k
    have hempty : (begun m madt t).globals.list k = [] := hlists k
    rw [hglobals, foldl_list es _ k (by rw [hempty]; decide), hempty, List.nil_append]
  refine ⟨h, ⟨es, hcovers, hlist, ?_⟩, fun k x hx => ?_⟩
  · rw [hglobals, foldl_lapicAddr]
    rfl
  · rw [hlist k] at hx
    obtain ⟨o, ho, rfl⟩ := List.mem_map.mp (List.mem_of_mem_take hx)
    obtain ⟨hin, htype⟩ := List.mem_filter.mp ho
    have hsize := hsized o hin
    have hbody := (hcovers.inside hin).2.1
    rw [WellSized, caseOf_listed.mpr (of_decide_eq_true htype)] at hsize
    change k.form.size ≤ _ at hsize
    omega

/-- Parsing ends for every table. When it completes, the entries cover the
body, the lists hold the first 256 of each type, and the last override gives
the address of the local APIC. -/
theorem madtInit_faithful (m : Mem) (hhdmOffset : ℕ) (acpi : AcpiState) :
    ((madtInit m hhdmOffset acpi boot).1 = none →
      ∃ text, (madtInit m hhdmOffset acpi boot).2.panic = some text) ∧
    ((madtInit m hhdmOffset acpi boot).1 = some () →
      ∃ madt, (acpiFindTable m hhdmOffset acpi apicSignature boot).1 = some madt ∧ madt ≠ 0 ∧
        44 ≤ total m madt ∧ Faithful m madt (madtInit m hhdmOffset acpi boot).2.globals) := by
  have hreads : OnlyReads (G := Globals) (acpiFindTable m hhdmOffset acpi apicSignature) :=
    acpiFindTable_reads acpi apicSignature
  obtain ⟨madt, l, hfind⟩ := hreads boot
  rw [madtInit, bind_of_returned hfind, hfind]
  by_cases h0 : madt = 0
  · rw [if_pos h0]
    exact ⟨fun _ => ⟨_, rfl⟩, fun h => absurd h (by simp [halt])⟩
  · rw [if_neg h0]
    refine ⟨parseTable_halts, fun hdone => ⟨madt, rfl, h0, ?_⟩⟩
    exact parseTable_faithful (fun _ => rfl) hdone

/-- Parsing a table reads bytes of the table only, exactly when no accepted
entries lead to its last byte. -/
theorem madtInit_reads_iff (m : Mem) (hhdmOffset : ℕ) (acpi : AcpiState) (madt : ℕ)
    (hfind : (acpiFindTable m hhdmOffset acpi apicSignature boot).1 = some madt) (h0 : madt ≠ 0)
    (htotal : 44 ≤ total m madt) :
    ∃ l, (madtInit m hhdmOffset acpi boot).2.reads =
        (acpiFindTable m hhdmOffset acpi apicSignature boot).2.reads ++ l ∧
      ((∀ a ∈ l, a ∈ Range madt (total m madt)) ↔ ¬ Dangling m madt 0) := by
  rw [madtInit, bind_of_fst_some hfind, if_neg h0, parseTable_loop htotal]
  have hfuel : total m madt-44 < 0+rounds := by
    have := total_lt m madt
    rw [rounds]
    omega
  obtain ⟨l, hreads, hiff⟩ := parseLoop_reads hfuel (Nat.zero_le _) htotal
    (t := begun m madt (acpiFindTable m hhdmOffset acpi apicSignature boot).2)
  refine ⟨List.range' (madt+sdtLength) 4 ++ List.range' (madt+36) 4 ++ l, ?_, ?_⟩
  · rw [hreads]
    simp only [begun, logged, List.append_assoc]
  · rw [List.forall_mem_append, hiff]
    refine and_iff_right (fun a ha => ?_)
    rw [List.mem_append, List.mem_range'_1, List.mem_range'_1, sdtLength] at ha
    rw [mem_range]
    omega

end Init

/-- Bytes at their addresses, and zero elsewhere. -/
def bytes (l : List (ℕ × UInt8)) : Mem := fun a => (l.lookup a).getD 0

/-- A root table at `0x100` with one table, at `0x1200`, with this length and body. -/
def tableOf (length : UInt8) (body : List (ℕ × UInt8)) : Mem :=
  bytes ([(0x104, 40), (0x125, 2), (0x1200, 0x41), (0x1201, 0x50), (0x1202, 0x49), (0x1203, 0x43),
    (0x1204, length), (0x1226, 0xe0), (0x1227, 0xfe)] ++ body)

/-- One local APIC. -/
def lapicTable : Mem := tableOf 52 [(0x122d, 8), (0x1230, 1)]

/-- One byte of an entry of a type without a structure. -/
def stubTable : Mem := tableOf 45 [(0x122c, 0xff)]

example : (madtInit lapicTable 0x1000 ⟨false, 0x100⟩ boot).1 = some () ∧
    (madtInit lapicTable 0x1000 ⟨false, 0x100⟩ boot).2.globals.list .lapic = [0x122c] ∧
    (madtInit lapicTable 0x1000 ⟨false, 0x100⟩ boot).2.globals.lapicAddr = 0xfee00000 := by
  decide +kernel

theorem madtInit_reads_iff_lapic :
    ∃ l, (madtInit lapicTable 0x1000 ⟨false, 0x100⟩ boot).2.reads =
        (acpiFindTable lapicTable 0x1000 ⟨false, 0x100⟩ apicSignature boot).2.reads ++ l ∧
      ∀ a ∈ l, a ∈ Range 0x1200 52 := by
  obtain ⟨l, hreads, hiff⟩ := madtInit_reads_iff lapicTable 0x1000 ⟨false, 0x100⟩ 0x1200
    (by decide +kernel) (by decide) (by decide +kernel)
  have htotal : total lapicTable 0x1200 = 52 := by decide +kernel
  have hlength : lengthAt lapicTable 0x1200 0 = 8 := by decide +kernel
  rw [htotal, dangling_step, htotal, hlength] at hiff
  refine ⟨l, hreads, hiff.mpr ?_⟩
  rintro (hlast | ⟨-, -, hrest⟩)
  · exact absurd hlast (by decide)
  · have := hrest.le
    omega

/-- Of a table that ends with the first byte of an entry, the byte behind it
is read. -/
theorem madtInit_reads_behind :
    (acpiFindTable stubTable 0x1000 ⟨false, 0x100⟩ apicSignature boot).1 = some 0x1200 ∧
    total stubTable 0x1200 = 45 ∧
    ∃ l, (madtInit stubTable 0x1000 ⟨false, 0x100⟩ boot).2.reads =
        (acpiFindTable stubTable 0x1000 ⟨false, 0x100⟩ apicSignature boot).2.reads ++ l ∧
      ¬ ∀ a ∈ l, a ∈ Range 0x1200 45 := by
  refine ⟨by decide +kernel, by decide +kernel, [0x1204, 0x1205, 0x1206, 0x1207, 0x1224, 0x1225,
    0x1226, 0x1227, 0x1204, 0x1205, 0x1206, 0x1207, 0x122d], by decide +kernel, fun h => ?_⟩
  have := h 0x122d (by decide)
  rw [mem_range] at this
  omega

end Emk.Madt
