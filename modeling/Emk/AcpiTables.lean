import Emk.Acpi

/-!
# The tables that the firmware lists

`acpi_init` of `sys/acpi.c`, which picks the root table, and what
`acpi_find_table` finds in it: the first table of the list with the signature
asked for, having read nothing but the root table and signatures.
-/

set_option autoImplicit false

namespace Emk.AcpiTables
open Emk.ByteMemory Emk.MachineWord Emk.DirectMap Emk.Calls Emk.ReadLog Emk.Acpi

/-- `"RSD PTR"` -/
def rsdpSignature : List UInt8 := [0x52, 0x53, 0x44, 0x20, 0x50, 0x54, 0x52]

/-- The places of the fields of `acpi_rsdp_t` and `acpi_xsdp_t`. -/
def rsdpRevision : ℕ := 15
def rsdpRsdtAddress : ℕ := 16
def xsdpXsdtAddress : ℕ := 28

section Code
variable (m : Mem) (hhdmOffset : ℕ)

/-- `vallocat` maps the page of the record; no response of the loader is `none`. -/
def acpiInit (vallocat : ℕ → ℕ) : Option ℕ → Call (Scan AcpiState) Unit
  | none => halt "No RSDP provided"
  | some address =>
    if address = 0 then halt "No RSDP provided"
    else do
      let rsdp := vallocat address
      let valid ← sameBytes m rsdp rsdpSignature
      if valid = false then halt "Invalid RSDP signature!"
      else do
        let revision ← peek m (rsdp+rsdpRevision) 1
        if revision ≠ 0 then do
          assign fun g => { g with usesXsdt := true }
          let xsdt ← peek m (rsdp+xsdpXsdtAddress) 8
          assign fun g => { g with rsdtPtr := higherHalf hhdmOffset xsdt }
        else do
          let rsdt ← peek m (rsdp+rsdpRsdtAddress) 4
          assign fun g => { g with rsdtPtr := higherHalf hhdmOffset rsdt }

/-- The width of an entry of the root table. -/
def width (acpi : AcpiState) : ℕ := if acpi.usesXsdt then 8 else 4

def rootLength (acpi : AcpiState) : ℕ := load m (acpi.rsdtPtr+sdtLength) 4

/-- Where the `i`-th listed table lies. -/
def tableAt (acpi : AcpiState) (i : ℕ) : ℕ :=
  higherHalf hhdmOffset
    (load m (acpi.rsdtPtr+sdtHeaderSize+width acpi*i) (width acpi))

/-- The number of tables that a root table of this length lists. -/
def listed (acpi : AcpiState) : ℕ := (rootLength m acpi-sdtHeaderSize) / width acpi

/-- The bytes at an address spell the name. -/
def spelled (name : List UInt8) (a : ℕ) : Bool :=
  decide ((List.range' a name.length).map m = name)

/-- The state after `acpi_init` for a record at this address. -/
def rootOf (rsdp : ℕ) : AcpiState :=
  if load m (rsdp+rsdpRevision) 1 ≠ 0 then
    ⟨true, higherHalf hhdmOffset (load m (rsdp+xsdpXsdtAddress) 8)⟩
  else ⟨false, higherHalf hhdmOffset (load m (rsdp+rsdpRsdtAddress) 4)⟩

end Code

variable {m : Mem} {hhdmOffset : ℕ} {G : Type}

theorem spelled_cons (c : UInt8) (cs : List UInt8) (a : ℕ) :
    spelled m (c::cs) a = (decide (m a = c) && spelled m cs (a+1)) := by
  simp [spelled, List.range'_succ]

theorem load_one (m : Mem) (a : ℕ) : load m a 1 = (m a).toNat := by
  rw [load, load, Nat.mul_zero, Nat.add_zero]

/-- The comparison reads a first part of the bytes. -/
theorem sameBytes_apply (cs : List UInt8) (a : ℕ) (t : Scan G) :
    ∃ l, (∀ x ∈ l, x ∈ Range a cs.length) ∧
      sameBytes m a cs t = (some (spelled m cs a), logged t l) := by
  induction cs generalizing a t with
  | nil => exact ⟨[], by simp, by rw [logged_nil]; rfl⟩
  | cons c cs ih =>
    rw [sameBytes, peek_bind, load_one, spelled_cons]
    by_cases hc : m a = c
    · obtain ⟨l, hl, hrun⟩ := ih (a+1) (logged t (List.range' a 1))
      refine ⟨List.range' a 1 ++ l, fun x hx => ?_, ?_⟩
      · rw [mem_range, List.length_cons]
        rcases List.mem_append.mp hx with hx | hx
        · rw [List.mem_range'_1] at hx
          omega
        · have := hl x hx
          rw [mem_range] at this
          omega
      · rw [if_neg (by rw [hc]; simp), hrun, logged_logged, decide_eq_true hc, Bool.true_and]
    · refine ⟨List.range' a 1, fun x hx => ?_, ?_⟩
      · rw [List.mem_range'_1] at hx
        rw [mem_range, List.length_cons]
        omega
      · rw [if_pos (fun he => hc (UInt8.toNat_inj.mp he)), decide_eq_false hc, Bool.false_and]
        rfl

/-- What a search may read: the root table, and the names of the tables up to
the first one that has the name. -/
def Searched (m : Mem) (hhdmOffset : ℕ) (acpi : AcpiState) (name : List UInt8) (x : ℕ) : Prop :=
  x ∈ Range acpi.rsdtPtr (rootLength m acpi) ∨
    ∃ i < listed m acpi, (∀ j < i, spelled m name (tableAt m hhdmOffset acpi j) = false) ∧
      x ∈ Range (tableAt m hhdmOffset acpi i) name.length

section Search
variable {acpi : AcpiState} {name : List UInt8}

theorem listed_fits (hlen : sdtHeaderSize ≤ rootLength m acpi) {i : ℕ} (hi : i < listed m acpi) :
    sdtHeaderSize+width acpi*i+width acpi ≤ rootLength m acpi := by
  have h := Nat.div_mul_le_self (rootLength m acpi-sdtHeaderSize) (width acpi)
  have hmul : (i+1)*width acpi ≤ listed m acpi*width acpi := Nat.mul_le_mul_right _ hi
  rw [Nat.add_mul, Nat.one_mul, Nat.mul_comm i] at hmul
  rw [← listed] at h
  omega

variable (hhdmOffset name) in
/-- The loop from the `i`-th entry on, when none before it has the name. -/
theorem findLoop_apply (hlen : sdtHeaderSize ≤ rootLength m acpi) (n i : ℕ)
    (hn : i+n = listed m acpi)
    (hbefore : ∀ j < i, spelled m name (tableAt m hhdmOffset acpi j) = false) (t : Scan G) :
    ∃ l, (∀ x ∈ l, Searched m hhdmOffset acpi name x) ∧
      findLoop m hhdmOffset (acpi.rsdtPtr+sdtHeaderSize) (width acpi) name n i t =
        (some ((((List.range' i n).map (tableAt m hhdmOffset acpi)).find?
          (spelled m name)).getD 0), logged t l) := by
  induction n generalizing i t with
  | zero => exact ⟨[], by simp, by rw [logged_nil]; rfl⟩
  | succ n ih =>
    have hi : i < listed m acpi := by omega
    have hfits := listed_fits hlen hi
    rw [findLoop, peek_bind]
    change ∃ l, _ ∧ (sameBytes m (tableAt m hhdmOffset acpi i) name >>= _) _ = _
    obtain ⟨l, hl, hsame⟩ := sameBytes_apply (m := m) name (tableAt m hhdmOffset acpi i)
      (logged t (List.range' (acpi.rsdtPtr+sdtHeaderSize+width acpi*i) (width acpi)))
    rw [bind_of_returned hsame, List.range'_succ, List.map_cons]
    have hread : ∀ x ∈ List.range' (acpi.rsdtPtr+sdtHeaderSize+width acpi*i) (width acpi) ++ l,
        Searched m hhdmOffset acpi name x := by
      intro x hx
      rcases List.mem_append.mp hx with hx | hx
      · rw [List.mem_range'_1] at hx
        exact .inl (by rw [mem_range]; omega)
      · exact .inr ⟨i, hi, hbefore, hl x hx⟩
    rcases hfound : spelled m name (tableAt m hhdmOffset acpi i) with _ | _
    · obtain ⟨l', hl', hrun⟩ := ih (i+1) (by omega) (fun j hj => by
        rcases Nat.lt_succ_iff_lt_or_eq.mp hj with hj | rfl
        · exact hbefore j hj
        · exact hfound) (logged (logged t _) l)
      refine ⟨List.range' (acpi.rsdtPtr+sdtHeaderSize+width acpi*i) (width acpi) ++ l ++ l',
        fun x hx => (List.mem_append.mp hx).elim (hread x) (hl' x), ?_⟩
      rw [List.find?_cons_of_neg (by simp [hfound]), if_neg (by simp), hrun, logged_logged,
        logged_logged, List.append_assoc]
    · refine ⟨_, hread, ?_⟩
      rw [List.find?_cons_of_pos hfound, if_pos rfl, logged_logged]
      rfl

end Search

/-- The statics before `acpi_init`. -/
def boot : Scan AcpiState := ⟨⟨false, 0⟩, [], none⟩

theorem wrap_length {n : ℕ} (hlen : sdtHeaderSize ≤ n) (hlt : n < 2^32) :
    wrap (n+(2^64-sdtHeaderSize)) = n-sdtHeaderSize := by
  rw [sdtHeaderSize] at hlen
  rw [wrap, sdtHeaderSize]
  omega

theorem entries_eq {acpi : AcpiState} (hlen : sdtHeaderSize ≤ rootLength m acpi) :
    wrap (rootLength m acpi+(2^64-sdtHeaderSize)) / width acpi % 2^32 = listed m acpi := by
  have hlt : rootLength m acpi < 2^32 := load_lt m (acpi.rsdtPtr+sdtLength) 4
  rw [wrap_length hlen hlt]
  apply Nat.mod_eq_of_lt
  apply Nat.lt_of_le_of_lt (Nat.div_le_self _ _)
  exact Nat.lt_of_le_of_lt (Nat.sub_le _ _) hlt

theorem acpiFindTable_apply {acpi : AcpiState} (hlen : sdtHeaderSize ≤ rootLength m acpi)
    (name : List UInt8) (t : Scan G) :
    ∃ l, (∀ x ∈ l, Searched m hhdmOffset acpi name x) ∧
      acpiFindTable m hhdmOffset acpi name t =
        (some ((((List.range (listed m acpi)).map (tableAt m hhdmOffset acpi)).find?
          (spelled m name)).getD 0), logged t l) := by
  have hrun : acpiFindTable m hhdmOffset acpi name t =
      findLoop m hhdmOffset (acpi.rsdtPtr+sdtHeaderSize) (width acpi) name
        (wrap (rootLength m acpi+(2^64-sdtHeaderSize)) / width acpi % 2^32) 0
        (logged t (List.range' (acpi.rsdtPtr+sdtLength) 4)) := by
    rw [acpiFindTable, peek_bind, rootLength, width]
  obtain ⟨l, hl, hloop⟩ := findLoop_apply hhdmOffset name hlen
    (listed m acpi) 0 (Nat.zero_add _) (fun j hj => absurd hj (Nat.not_lt_zero j))
    (logged t (List.range' (acpi.rsdtPtr+sdtLength) 4))
  refine ⟨List.range' (acpi.rsdtPtr+sdtLength) 4 ++ l, fun x hx => ?_, ?_⟩
  · rcases List.mem_append.mp hx with hx | hx
    · rw [List.mem_range'_1, sdtLength] at hx
      rw [sdtHeaderSize] at hlen
      exact .inl (by rw [mem_range]; omega)
    · exact hl x hx
  · rw [hrun, entries_eq hlen, hloop, logged_logged, List.range_eq_range']

theorem acpiInit_returned {vallocat : ℕ → ℕ} {rsdp : Option ℕ} {t : Scan AcpiState}
    (ht : t.globals = ⟨false, 0⟩)
    (h : (acpiInit m hhdmOffset vallocat rsdp t).1 = some ()) :
    ∃ address, rsdp = some address ∧ spelled m rsdpSignature (vallocat address) = true ∧
      (acpiInit m hhdmOffset vallocat rsdp t).2.globals =
        rootOf m hhdmOffset (vallocat address) := by
  rcases rsdp with _ | address
  · exact absurd h (by simp [acpiInit, halt])
  · refine ⟨address, rfl, ?_⟩
    rw [acpiInit] at h ⊢
    split_ifs at h ⊢ with h0
    · exact absurd h (by simp [halt])
    · obtain ⟨l, -, hsame⟩ := sameBytes_apply (m := m) rsdpSignature (vallocat address) t
      rw [bind_of_returned hsame] at h ⊢
      split_ifs at h ⊢ with hsig
      · exact absurd h (by simp [halt])
      · refine ⟨by simpa using hsig, ?_⟩
        rw [peek_bind, rootOf]
        split_ifs with hrev
        · rw [assign_bind, peek_bind]
          rfl
        · rw [peek_bind]
          change (⟨t.globals.usesXsdt, _⟩ : AcpiState) = _
          rw [ht]

/-- Once `acpi_init` has returned, with a root table that is at least a header
long, a table is found exactly when the root table lists one with that name,
and it is the first one listed; nothing is read but the root table and names. -/
theorem acpi_find_first (m : Mem) (hhdmOffset : ℕ) (vallocat : ℕ → ℕ) (rsdp : Option ℕ)
    (h : (acpiInit m hhdmOffset vallocat rsdp boot).1 = some ()) :
    let acpi := (acpiInit m hhdmOffset vallocat rsdp boot).2.globals
    (∃ address, rsdp = some address ∧ spelled m rsdpSignature (vallocat address) = true ∧
      acpi = rootOf m hhdmOffset (vallocat address)) ∧
    (sdtHeaderSize ≤ rootLength m acpi → ∀ (name : List UInt8) (t : Scan G),
      ∃ l, (∀ x ∈ l, Searched m hhdmOffset acpi name x) ∧
        acpiFindTable m hhdmOffset acpi name t =
          (some ((((List.range (listed m acpi)).map (tableAt m hhdmOffset acpi)).find?
            (spelled m name)).getD 0), logged t l)) :=
  ⟨acpiInit_returned rfl h, fun hlen name t => acpiFindTable_apply hlen name t⟩

def place (a : ℕ) (cs : List UInt8) (m : Mem) : Mem := copy m a (fun k => cs.getD k 0) cs.length

/-- A record at `0x100` whose root table, at `0x1200`, lists two tables. -/
def firmware : Mem :=
  place 0x100 rsdpSignature <| place 0x1900 [0x46, 0x41, 0x43, 0x50] <|
    place 0x1A00 [0x41, 0x50, 0x49, 0x43] <| store (store (store (store (fun _ => 0) 0x110 4 0x200)
      0x1204 4 44) 0x1224 4 0x900) 0x1228 4 0xA00

theorem acpi_find_first_small :
    (acpiInit firmware 0x1000 id (some 0x100) boot).1 = some () ∧
      (acpiFindTable firmware 0x1000 ⟨false, 0x1200⟩ [0x41, 0x50, 0x49, 0x43] boot).1 =
        some 0x1A00 := by
  have hinit : (acpiInit firmware 0x1000 id (some 0x100) boot).1 = some () := by decide +kernel
  have hroot : (acpiInit firmware 0x1000 id (some 0x100) boot).2.globals = ⟨false, 0x1200⟩ := by
    have huses : (acpiInit firmware 0x1000 id (some 0x100) boot).2.globals.usesXsdt = false := by
      decide +kernel
    have hptr : (acpiInit firmware 0x1000 id (some 0x100) boot).2.globals.rsdtPtr = 0x1200 := by
      decide +kernel
    rw [← huses, ← hptr]
  have h := (acpi_find_first (G := AcpiState) firmware 0x1000 id (some 0x100) hinit).2
  rw [hroot] at h
  obtain ⟨l, -, hfind⟩ := h (by decide +kernel) [0x41, 0x50, 0x49, 0x43] boot
  refine ⟨hinit, ?_⟩
  rw [hfind]
  exact congrArg some (by decide +kernel)

end Emk.AcpiTables
