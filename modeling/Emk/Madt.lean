import Emk.Acpi

/-!
# Parsing the MADT

`sys/acpi/madt.c`. The body of the table is a sequence of entries that begin
with their type and their length. Entries of six types are remembered by
their addresses, up to 256 of each; one type replaces the address of the local
APIC; entries of other types are skipped.
-/

set_option autoImplicit false

namespace Emk.Madt
open Emk.ByteMemory Emk.Calls Emk.ReadLog Emk.Acpi

/-- The number of a type, the size of its structure, the fields that are
logged, as offsets and widths, and the complaint about a short entry. -/
structure EntryForm where
  type : ℕ
  size : ℕ
  fields : List (ℕ × ℕ)
  tooSmall : String

def madtEntryLapic : EntryForm :=
  ⟨0, 8, [(2, 1), (3, 1), (4, 4)], "MADT Local APIC entry too small"⟩

def madtEntryIoapic : EntryForm :=
  ⟨1, 12, [(2, 1), (4, 4), (8, 4)], "MADT I/O APIC entry too small"⟩

def madtEntryIoapicSrcOvr : EntryForm :=
  ⟨2, 10, [(2, 1), (3, 1), (4, 4), (8, 2)], "MADT I/O APIC ISO entry too small"⟩

def madtEntryIoapicNmiSrc : EntryForm :=
  ⟨3, 10, [(2, 1), (6, 4), (4, 2)], "MADT I/O APIC NMI Source entry too small"⟩

def madtEntryLapicNmi : EntryForm :=
  ⟨4, 6, [(2, 1), (5, 1), (3, 2)], "MADT Local APIC NMI entry too small"⟩

def madtEntryLapicAddrOvr : EntryForm :=
  ⟨5, 12, [(4, 8)], "MADT LAPIC Address Override entry too small"⟩

def madtEntryLx2apic : EntryForm :=
  ⟨9, 16, [(4, 4), (12, 4), (8, 4)], "MADT Local x2APIC entry too small"⟩

/-- The types with a list of their own. -/
inductive Kind
  | lapic
  | ioapic
  | iso
  | ioapicNmi
  | lapicNmi
  | lx2apic
  deriving DecidableEq

def Kind.form : Kind → EntryForm
  | .lapic => madtEntryLapic
  | .ioapic => madtEntryIoapic
  | .iso => madtEntryIoapicSrcOvr
  | .ioapicNmi => madtEntryIoapicNmiSrc
  | .lapicNmi => madtEntryLapicNmi
  | .lx2apic => madtEntryLx2apic

/-- The lists of entries, each with its length, and the address of the local
APIC. -/
structure Globals where
  list : Kind → List ℕ
  lapicAddr : ℕ

/-- The globals as the loader zeroes them. -/
def boot : Scan Globals := ⟨⟨fun _ => [], 0⟩, [], none⟩

def record (k : Kind) (entry : ℕ) (g : Globals) : Globals :=
  let l := if (g.list k).length < 256 then g.list k ++ [entry] else g.list k
  { g with list := Function.update g.list k l }

inductive Case
  | listed (k : Kind)
  | addrOvr
  | unknown
  deriving DecidableEq

/-- The cases of the switch. -/
def caseOf : ℕ → Case
  | 0 => .listed .lapic
  | 1 => .listed .ioapic
  | 2 => .listed .iso
  | 3 => .listed .ioapicNmi
  | 4 => .listed .lapicNmi
  | 5 => .addrOvr
  | 9 => .listed .lx2apic
  | _ => .unknown

section Code
variable (m : Mem)

/-- The body of a case, after the check of the entry's size. -/
def sized (f : EntryForm) (entry : ℕ) (body : Call (Scan Globals) Unit) :
    Call (Scan Globals) Unit := do
  let length ← peek m (entry+1) 1
  if length < f.size then halt f.tooSmall
  else do
    body
    peekAll m entry f.fields

def entrySwitch (entry : ℕ) : Case → Call (Scan Globals) Unit
  | .listed k => sized m k.form entry (assign (record k entry))
  | .addrOvr => sized m madtEntryLapicAddrOvr entry do
      let addr ← peek m (entry+4) 8
      assign fun g => { g with lapicAddr := addr }
  | .unknown => do
      let _ ← peek m entry 1
      pure ()

/-- One round of the loop; returns by how much the offset grows. -/
def parseEntry (madt offset : ℕ) : Call (Scan Globals) ℕ := do
  let entry := madt+44+offset
  let length ← peek m (entry+1) 1
  if length = 0 then halt "Invalid MADT entry length or overflow"
  else do
    let total ← peek m (madt+sdtLength) 4
    if offset+length > total-44 then halt "Invalid MADT entry length or overflow"
    else do
      let type ← peek m entry 1
      entrySwitch m entry (caseOf type)
      peek m (entry+1) 1

def parseLoop (madt : ℕ) : ℕ → ℕ → Call (Scan Globals) Unit
  | 0, _ => never
  | fuel+1, offset => do
    let total ← peek m (madt+sdtLength) 4
    if offset < total-44 then do
      let length ← parseEntry m madt offset
      parseLoop madt fuel (offset+length)
    else pure ()

def rounds : ℕ := 2^64

def parseTable (madt : ℕ) : Call (Scan Globals) Unit := do
  let total ← peek m (madt+sdtLength) 4
  if total < 44 then halt "MADT table is too small"
  else do
    let base ← peek m (madt+36) 4
    assign fun g => { g with lapicAddr := base }
    parseLoop m madt rounds 0

/-- `APIC`. -/
def apicSignature : List UInt8 := [0x41, 0x50, 0x49, 0x43]

def madtInit (hhdmOffset : ℕ) (acpi : AcpiState) : Call (Scan Globals) Unit := do
  let madt ← acpiFindTable m hhdmOffset acpi apicSignature
  if madt = 0 then halt "Failed to find MADT table" else parseTable m madt

end Code

/-- What a case of the switch asks of the length of an entry. -/
def Case.minSize : Case → ℕ
  | .listed k => k.form.size
  | .addrOvr => madtEntryLapicAddrOvr.size
  | .unknown => 0

def Case.note (m : Mem) (entry : ℕ) : Case → Globals → Globals
  | .listed k, g => record k entry g
  | .addrOvr, g => { g with lapicAddr := load m (entry+4) 8 }
  | .unknown, g => g

theorem caseOf_listed {type : ℕ} {k : Kind} : caseOf type = .listed k ↔ type = k.form.type := by
  constructor
  · intro h
    unfold caseOf at h
    split at h <;> cases h <;> rfl
  · rintro rfl
    cases k <;> rfl

theorem caseOf_addrOvr {type : ℕ} :
    caseOf type = .addrOvr ↔ type = madtEntryLapicAddrOvr.type := by
  constructor
  · intro h
    unfold caseOf at h
    split at h
    all_goals first | rfl | cases h
  · rintro rfl
    rfl

theorem form_fields (k : Kind) : ∀ f ∈ k.form.fields, f.1+f.2 ≤ k.form.size := by
  cases k <;> decide

variable {m : Mem} {madt : ℕ}

abbrev lengthAt (m : Mem) (madt o : ℕ) : ℕ := load m (madt+44+o+1) 1

abbrev typeAt (m : Mem) (madt o : ℕ) : ℕ := load m (madt+44+o) 1

abbrev total (m : Mem) (madt : ℕ) : ℕ := load m (madt+sdtLength) 4

/-- An entry is as large as its type demands. -/
def WellSized (m : Mem) (madt o : ℕ) : Prop :=
  (caseOf (typeAt m madt o)).minSize ≤ lengthAt m madt o

instance decidableWellSized (o : ℕ) : Decidable (WellSized m madt o) :=
  inferInstanceAs (Decidable (_ ≤ _))

/-- The entry at `o` does not stop the parser. -/
def Accepted (m : Mem) (madt o : ℕ) : Prop :=
  0 < lengthAt m madt o ∧ o+lengthAt m madt o ≤ total m madt-44 ∧ WellSized m madt o

theorem sized_small {f : EntryForm} {entry : ℕ} (body : Call (Scan Globals) Unit)
    (h : load m (entry+1) 1 < f.size) (t : Scan Globals) :
    sized m f entry body t =
      (none, { logged t (List.range' (entry+1) 1) with panic := some f.tooSmall }) := by
  rw [sized, peek_bind, if_pos h]
  rfl

theorem sized_fits {f : EntryForm} {entry : ℕ} {body : Call (Scan Globals) Unit}
    (h : f.size ≤ load m (entry+1) 1) {t : Scan Globals} {g : Globals} {l : List ℕ}
    (hbody : body (logged t (List.range' (entry+1) 1)) =
      (some (), { logged t (List.range' (entry+1) 1 ++ l) with globals := g })) :
    sized m f entry body t = (some (),
      { logged t (List.range' (entry+1) 1 ++ l ++ fieldBytes entry f.fields) with
        globals := g }) := by
  rw [sized, peek_bind, if_neg (not_lt.mpr h), bind_of_returned hbody, peekAll_apply]
  simp only [logged, List.append_assoc]

theorem sized_bytes {f : EntryForm} {entry n : ℕ} {l : List ℕ} (hsize : f.size ≤ n)
    (hfields : ∀ x ∈ f.fields, x.1+x.2 ≤ f.size) (hl : ∀ a ∈ l, entry ≤ a ∧ a < entry+f.size) :
    ∀ a ∈ List.range' (entry+1) 1 ++ l ++ fieldBytes entry f.fields,
      entry ≤ a ∧ (a < entry+n ∨ a ≤ entry+1) := by
  intro a ha
  rw [List.mem_append, List.mem_append, List.mem_range'_1] at ha
  rcases ha with (hhead | hbody) | hlog
  · omega
  · have := hl a hbody
    omega
  · have := mem_fieldBytes hfields hlog
    omega

/-- The switch stops at a short entry, and otherwise notes it; it reads bytes
of the entry only. -/
theorem entrySwitch_cases (entry : ℕ) (c : Case) (t : Scan Globals) :
    (load m (entry+1) 1 < c.minSize ∧ ∃ text,
      entrySwitch m entry c t =
        (none, { logged t (List.range' (entry+1) 1) with panic := some text })) ∨
    (c.minSize ≤ load m (entry+1) 1 ∧ ∃ l,
      entrySwitch m entry c t =
        (some (), { logged t l with globals := c.note m entry t.globals }) ∧
      ∀ a ∈ l, entry ≤ a ∧ (a < entry+load m (entry+1) 1 ∨ a ≤ entry+1)) := by
  by_cases h : load m (entry+1) 1 < c.minSize
  · refine .inl ⟨h, ?_⟩
    cases c with
    | listed k => exact ⟨_, sized_small _ h t⟩
    | addrOvr => exact ⟨_, sized_small _ h t⟩
    | unknown => exact absurd h (Nat.not_lt_zero _)
  · rw [not_lt] at h
    refine .inr ⟨h, ?_⟩
    cases c with
    | listed k =>
      refine ⟨_, sized_fits (l := []) h ?_, sized_bytes h (form_fields k) (by simp)⟩
      rw [List.append_nil]
      rfl
    | addrOvr =>
      refine ⟨_, sized_fits (l := List.range' (entry+4) 8) h ?_,
        sized_bytes h (by decide) (fun a ha => ?_)⟩
      · rw [peek_bind, logged_logged]
        rfl
      · rw [List.mem_range'_1] at ha
        change entry ≤ a ∧ a < entry+12
        omega
    | unknown =>
      refine ⟨List.range' entry 1, rfl, fun a ha => ?_⟩
      rw [List.mem_range'_1] at ha
      omega

/-- One round of the loop: it reads the length of its entry, which may lie
behind the table, and otherwise bytes of the table. -/
theorem parseEntry_cases {o : ℕ} (ho : o < total m madt-44) (t : Scan Globals) :
    ∃ l, madt+44+o+1 ∈ l ∧
      (∀ a ∈ l, a ∈ Range madt (total m madt) ∨ a = madt+44+o+1) ∧
      ((¬ Accepted m madt o ∧ ∃ text, parseEntry m madt o t =
          (none, { logged t l with panic := some text })) ∨
        (Accepted m madt o ∧ parseEntry m madt o t = (some (lengthAt m madt o),
          { logged t l with globals :=
            (caseOf (typeAt m madt o)).note m (madt+44+o) t.globals }))) := by
  let Near : ℕ → Prop := fun a => a ∈ Range madt (total m madt) ∨ a = madt+44+o+1
  have hhead : ∀ a ∈ List.range' (madt+44+o+1) 1, Near a := by
    intro a ha
    rw [List.mem_range'_1] at ha
    exact .inr (by omega)
  have hself : madt+44+o+1 ∈ List.range' (madt+44+o+1) 1 := by simp
  have htotal : ∀ a ∈ List.range' (madt+sdtLength) 4, Near a := by
    intro a ha
    rw [List.mem_range'_1, sdtLength] at ha
    exact .inl (by rw [mem_range]; omega)
  have htype : ∀ a ∈ List.range' (madt+44+o) 1, Near a := by
    intro a ha
    rw [List.mem_range'_1] at ha
    exact .inl (by rw [mem_range]; omega)
  by_cases hzero : lengthAt m madt o = 0
  · refine ⟨List.range' (madt+44+o+1) 1, hself, hhead, .inl ⟨fun h => absurd h.1 (by omega), ?_⟩⟩
    refine ⟨"Invalid MADT entry length or overflow", ?_⟩
    rw [parseEntry, peek_bind, if_pos hzero]
    rfl
  by_cases hfit : o+lengthAt m madt o > total m madt-44
  · refine ⟨List.range' (madt+44+o+1) 1 ++ List.range' (madt+sdtLength) 4,
      List.mem_append_left _ hself, List.forall_mem_append.mpr ⟨hhead, htotal⟩,
      .inl ⟨fun h => absurd h.2.1 (by omega), ?_⟩⟩
    refine ⟨"Invalid MADT entry length or overflow", ?_⟩
    rw [parseEntry, peek_bind, if_neg hzero, peek_bind, if_pos hfit, logged_logged]
    rfl
  -- what is read before the entry's own case
  let before := List.range' (madt+44+o+1) 1 ++ List.range' (madt+sdtLength) 4 ++
    List.range' (madt+44+o) 1
  have hbefore : ∀ a ∈ before, Near a :=
    List.forall_mem_append.mpr ⟨List.forall_mem_append.mpr ⟨hhead, htotal⟩, htype⟩
  have hrun : parseEntry m madt o t =
      (entrySwitch m (madt+44+o) (caseOf (typeAt m madt o)) >>= fun _ =>
        peek m (madt+44+o+1) 1) (logged t before) := by
    rw [parseEntry, peek_bind, if_neg hzero, peek_bind, if_neg hfit, peek_bind, logged_logged,
      logged_logged, ← List.append_assoc]
  rcases entrySwitch_cases (m := m) (madt+44+o) (caseOf (typeAt m madt o)) (logged t before) with
    ⟨hsmall, text, heq⟩ | ⟨hsize, l, heq, hl⟩
  · refine ⟨before ++ List.range' (madt+44+o+1) 1, List.mem_append_right _ hself,
      List.forall_mem_append.mpr ⟨hbefore, hhead⟩,
      .inl ⟨fun h => absurd h.2.2 (not_le.mpr hsmall), text, ?_⟩⟩
    rw [hrun, bind_of_never heq, logged_logged]
  · have hown : ∀ a ∈ l, Near a := by
      intro a ha
      have hin := hl a ha
      rw [lengthAt] at hfit
      simp only [Near, mem_range]
      omega
    refine ⟨before ++ l ++ List.range' (madt+44+o+1) 1, List.mem_append_right _ hself,
      List.forall_mem_append.mpr ⟨List.forall_mem_append.mpr ⟨hbefore, hown⟩, hhead⟩,
      .inr ⟨⟨by omega, by omega, hsize⟩, ?_⟩⟩
    rw [hrun, bind_of_returned heq]
    simp only [peek, logged, List.append_assoc]

end Emk.Madt
