import Mathlib.Logic.Function.Basic
import Emk.MachineWord

/-!
# The descriptor table and the task state segment

`arch/gdt.c`. All CPUs share one table and one task state segment, and each
CPU writes them again before it loads its registers from them. An operation
here is one access of that sequence; a descriptor that the processor refuses
is a fault.
-/

set_option autoImplicit false

namespace Emk.Gdt

def gdtKernelCode : ℕ := 0x80 ||| 0x00 ||| 0x18 ||| 0x08 ||| 0x02
def gdtKernelData : ℕ := 0x80 ||| 0x00 ||| 0x10 ||| 0x02
def gdtUserCode : ℕ := 0x80 ||| 0x60 ||| 0x18 ||| 0x08 ||| 0x02
def gdtUserData : ℕ := 0x80 ||| 0x60 ||| 0x10 ||| 0x02
def gdtTss : ℕ := 0xE9
def gdtGranularityLongMode : ℕ := 0x20
def gdtGranularityFlat : ℕ := 0x80 ||| gdtGranularityLongMode

def sizeofGdt : ℕ := 7*8
def sizeofTss : ℕ := 104

structure GdtEntry where
  limitLow : ℕ
  baseLow : ℕ
  baseMiddle : ℕ
  access : ℕ
  granularity : ℕ
  baseHigh : ℕ
  deriving DecidableEq, Repr

structure GdtSystemEntry extends GdtEntry where
  baseUpper : ℕ
  reserved : ℕ
  deriving DecidableEq, Repr

/-- The word of a packed entry. -/
def GdtEntry.word (e : GdtEntry) : ℕ :=
  e.limitLow+2^16*e.baseLow+2^32*e.baseMiddle+2^40*e.access+2^48*e.granularity+2^56*e.baseHigh

def GdtSystemEntry.upper (e : GdtSystemEntry) : ℕ := e.baseUpper+2^32*e.reserved

/-- The entry for a task state segment at this address. -/
def tssEntry (base : ℕ) : GdtSystemEntry :=
  let limit := sizeofTss-1
  { limitLow := limit &&& 0xFFFF
    baseLow := base &&& 0xFFFF
    baseMiddle := base >>> 16 &&& 0xFF
    access := gdtTss
    granularity := limit >>> 16 &&& 0x0F
    baseHigh := base >>> 24 &&& 0xFF
    baseUpper := base >>> 32
    reserved := 0 }

/-- The fields of the task state segment that are not left zero. -/
structure Tss where
  rsp0 : ℕ := 0
  ioMapBase : ℕ := 0
  deriving DecidableEq, Repr

structure GdtPtr where
  limit : ℕ := 0
  base : ℕ := 0
  deriving DecidableEq, Repr

/-- `gdt`, word by word, `gdt_ptr` and `tss`. -/
structure Tables where
  gdt : ℕ → ℕ := fun _ => 0
  gdtPtr : GdtPtr := {}
  tss : Tss := {}

/-- A task state segment as the processor finds it in the table. -/
structure TaskRegister where
  base : ℕ
  limit : ℕ
  dpl : ℕ
  busy : Bool
  deriving DecidableEq, Repr

/-- The registers of one CPU that are loaded from the tables. The base of
`%gs` is zero or points to a record of `cpu_locals`. -/
structure Core where
  gsBase : Option ℕ := none
  kernelGsBase : Option ℕ := none
  code : ℕ := 0
  data : ℕ := 0
  tr : Option TaskRegister := none
  deriving DecidableEq, Repr

/-- What `init_cpu` does to the tables; `rest` stands for what lies between
`gdt_init` and `tss_init`, and after them. -/
inductive Op where
  | setCpuLocal (cpu : ℕ)
  | entry (i : ℕ) (e : GdtEntry)
  | gdtPtr
  | flush
  | rest
  | clearTss
  | rsp0 (stack : ℕ)
  | ioMapBase
  | tssEntry
  | flushTss
  deriving DecidableEq, Repr

def gdtInit : List Op :=
  [.entry 0 ⟨0, 0, 0, 0x00, 0x00, 0⟩, .entry 1 ⟨0, 0, 0, gdtKernelCode, gdtGranularityFlat, 0⟩,
    .entry 2 ⟨0, 0, 0, gdtKernelData, gdtGranularityFlat, 0⟩,
    .entry 3 ⟨0, 0, 0, gdtUserCode, gdtGranularityLongMode, 0⟩,
    .entry 4 ⟨0, 0, 0, gdtUserData, 0x00, 0⟩, .gdtPtr, .flush]

def tssInit (stack : ℕ) : List Op :=
  [.clearTss, .rsp0 stack, .ioMapBase, .tssEntry, .flush, .flushTss]

/-- `set_cpu_local` and `init_cpu` -/
def initCpu (kstackTop cpu : ℕ) : List Op :=
  [.setCpuLocal cpu] ++ gdtInit ++ [.rest] ++ tssInit kstackTop ++ [.rest]

section Processor

def present (w : ℕ) : Bool := decide (w / 2^47 % 2 = 1)

def dpl (w : ℕ) : ℕ := w / 2^45 % 2^2

/-- Code of 64 bits that the kernel can return to. -/
def isKernelCode (w : ℕ) : Bool :=
  present w && decide (w / 2^43 % 2^2 = 3 ∧ dpl w = 0 ∧ w / 2^53 % 2^2 = 1)

/-- Data that may become the stack segment of the kernel. -/
def isKernelData (w : ℕ) : Bool :=
  present w && decide (w / 2^43 % 2^2 = 2 ∧ w / 2^41 % 2 = 1 ∧ dpl w = 0)

/-- How the processor takes the two words of a system entry apart. -/
def readTss (lo hi : ℕ) : Option TaskRegister :=
  if lo / 2^40 % 2^5 = 9 ∨ lo / 2^40 % 2^5 = 11 then
    if present lo then some
      { base := lo / 2^16 % 2^24+2^24*(lo / 2^56 % 2^8)+2^32*(hi % 2^32)
        limit := lo % 2^16+2^16*(lo / 2^48 % 2^4)
        dpl := dpl lo
        busy := decide (lo / 2^40 % 2^5 = 11) }
    else none
  else none

variable (gdtAddress tssAddress : ℕ)

/-- `lgdt`, the far return to `0x8`, and `0x10` into the data segments, which
also gives `%gs` the base of that descriptor. -/
def flush (t : Tables) (c : Core) : Option Core :=
  if t.gdtPtr.base = gdtAddress ∧ 0x10+7 ≤ t.gdtPtr.limit ∧ isKernelCode (t.gdt 1) ∧
      isKernelData (t.gdt 2) ∧ t.gdt 2 / 2^16 % 2^24 = 0 ∧ t.gdt 2 / 2^56 = 0 then
    some { c with code := t.gdt 1, data := t.gdt 2, gsBase := none }
  else none

/-- `ltr` marks the descriptor busy and refuses one that is. -/
def flushTss (t : Tables) (c : Core) : Option (Tables × Core) :=
  match readTss (t.gdt 5) (t.gdt 6) with
  | some r =>
    if r.busy then none
    else some ({ t with gdt := Function.update t.gdt 5 (t.gdt 5+2^41) }, { c with tr := some r })
  | none => none

def exec (t : Tables) (c : Core) : Op → Option (Tables × Core)
  | .setCpuLocal cpu => some (t, { c with gsBase := some cpu })
  | .entry i e => some ({ t with gdt := Function.update t.gdt i e.word }, c)
  | .gdtPtr => some ({ t with gdtPtr := ⟨sizeofGdt-1, gdtAddress⟩ }, c)
  | .flush => (flush gdtAddress t c).map fun c => (t, c)
  | .rest => some (t, c)
  | .clearTss => some ({ t with tss := {} }, c)
  | .rsp0 stack => some ({ t with tss := { t.tss with rsp0 := stack } }, c)
  | .ioMapBase => some ({ t with tss := { t.tss with ioMapBase := sizeofTss } }, c)
  | .tssEntry =>
    let e := tssEntry tssAddress
    some ({ t with gdt := Function.update (Function.update t.gdt 5 e.word) 6 e.upper }, c)
  | .flushTss => flushTss t c

/-- The rest of a sequence, unless it faults. -/
def runOps (t : Tables) (c : Core) : List Op → Option (Tables × Core)
  | [] => some (t, c)
  | o::os => (exec gdtAddress tssAddress t c o).bind fun s => runOps s.1 s.2 os

end Processor

/-- The address survives being split over the fields of the entry. -/
theorem readTss_tssEntry {base : ℕ} (hbase : base < 2^64) :
    readTss (tssEntry base).word (tssEntry base).upper =
      some ⟨base, sizeofTss-1, 3, false⟩ := by
  have hlow : base &&& 0xFFFF = base % 2^16 := Nat.and_two_pow_sub_one_eq_mod base 16
  have hmid : base >>> 16 &&& 0xFF = base / 2^16 % 2^8 := by
    rw [Nat.shiftRight_eq_div_pow]
    exact Nat.and_two_pow_sub_one_eq_mod _ 8
  have hhigh : base >>> 24 &&& 0xFF = base / 2^24 % 2^8 := by
    rw [Nat.shiftRight_eq_div_pow]
    exact Nat.and_two_pow_sub_one_eq_mod _ 8
  have hupper : base >>> 32 = base / 2^32 := Nat.shiftRight_eq_div_pow _ _
  have hlimit : sizeofTss-1 &&& 0xFFFF = 103 ∧ (sizeofTss-1) >>> 16 &&& 0x0F = 0 := by decide
  have hsplit : base = base % 2^16+2^16*(base / 2^16 % 2^8)+2^24*(base / 2^24 % 2^8)+
      2^32*(base / 2^32) := by omega
  have ha := Nat.mod_lt base (show 0 < 2^16 by decide)
  have hb := Nat.mod_lt (base / 2^16) (show 0 < 2^8 by decide)
  have hc := Nat.mod_lt (base / 2^24) (show 0 < 2^8 by decide)
  have hd : base / 2^32 < 2^32 := by omega
  obtain ⟨lo, hlo⟩ : ∃ lo, lo = (tssEntry base).word := ⟨_, rfl⟩
  obtain ⟨hi, hhi⟩ : ∃ hi, hi = (tssEntry base).upper := ⟨_, rfl⟩
  rw [← hlo, ← hhi]
  rw [GdtEntry.word, tssEntry] at hlo
  rw [GdtSystemEntry.upper, tssEntry] at hhi
  dsimp only at hlo hhi
  rw [hlow, hmid, hhigh, hlimit.1, hlimit.2, gdtTss] at hlo
  rw [hupper] at hhi
  generalize base % 2^16 = a at *
  generalize base / 2^16 % 2^8 = b at *
  generalize base / 2^24 % 2^8 = c at *
  generalize base / 2^32 = d at *
  have haccess : lo / 2^40 = 0xE9+2^16*c := by omega
  have hkind : lo / 2^40 % 2^5 = 9 := by omega
  have hdpl : lo / 2^45 % 2^2 = 3 := by
    rw [show 2^45 = 2^40*2^5 by rfl, ← Nat.div_div_eq_div_mul, haccess]
    omega
  have hpresent : lo / 2^47 % 2 = 1 := by
    rw [show 2^47 = 2^40*2^7 by rfl, ← Nat.div_div_eq_div_mul, haccess]
    omega
  have hgran : lo / 2^48 % 2^4 = 0 := by
    rw [show 2^48 = 2^40*2^8 by rfl, ← Nat.div_div_eq_div_mul, haccess]
    omega
  have htop : lo / 2^56 % 2^8 = c := by
    rw [show 2^56 = 2^40*2^16 by rfl, ← Nat.div_div_eq_div_mul, haccess]
    omega
  have hbase' : lo / 2^16 % 2^24+2^24*(lo / 2^56 % 2^8)+2^32*(hi % 2^32) = base := by
    rw [htop]
    omega
  rw [readTss, present, dpl, hkind, hdpl, hpresent, hgran, hbase', if_pos (.inl rfl)]
  rw [show lo % 2^16 = 103 by omega]
  rfl

section Sequence
variable {gdtAddress tssAddress : ℕ} {t t' : Tables} {c c' : Core}

/-- The descriptors that the selectors of the kernel name. -/
structure Described (t : Tables) : Prop where
  kernelCode : t.gdt 1 = (⟨0, 0, 0, gdtKernelCode, gdtGranularityFlat, 0⟩ : GdtEntry).word
  kernelData : t.gdt 2 = (⟨0, 0, 0, gdtKernelData, gdtGranularityFlat, 0⟩ : GdtEntry).word
  userCode : t.gdt 3 = (⟨0, 0, 0, gdtUserCode, gdtGranularityLongMode, 0⟩ : GdtEntry).word
  userData : t.gdt 4 = (⟨0, 0, 0, gdtUserData, 0x00, 0⟩ : GdtEntry).word

/-- What `init_cpu` leaves in the registers of a CPU. -/
structure Loaded (tssAddress : ℕ) (c : Core) : Prop where
  code : c.code = (⟨0, 0, 0, gdtKernelCode, gdtGranularityFlat, 0⟩ : GdtEntry).word
  data : c.data = (⟨0, 0, 0, gdtKernelData, gdtGranularityFlat, 0⟩ : GdtEntry).word
  tr : c.tr = some ⟨tssAddress, sizeofTss-1, 3, false⟩
  gsBase : c.gsBase = none

theorem Described.entry (h : Described t) {i : ℕ} {e : GdtEntry} (he : .entry i e ∈ gdtInit) :
    Described { t with gdt := Function.update t.gdt i e.word } := by
  simp only [gdtInit, List.mem_cons, Op.entry.injEq, reduceCtorEq, List.not_mem_nil, or_false] at he
  obtain ⟨h1, h2, h3, h4⟩ := h
  rcases he with ⟨rfl, rfl⟩ | ⟨rfl, rfl⟩ | ⟨rfl, rfl⟩ | ⟨rfl, rfl⟩ | ⟨rfl, rfl⟩ <;>
    exact ⟨by simp [h1], by simp [h2], by simp [h3], by simp [h4]⟩

theorem Described.above (h : Described t) (hg : ∀ i < 5, t'.gdt i = t.gdt i) : Described t' :=
  ⟨(hg 1 (by decide)).trans h.kernelCode, (hg 2 (by decide)).trans h.kernelData,
    (hg 3 (by decide)).trans h.userCode, (hg 4 (by decide)).trans h.userData⟩

/-- Writing the shared table again changes no descriptor that is in use. -/
theorem Described.exec (h : Described t) {kstackTop cpu : ℕ} {o : Op}
    (ho : o ∈ initCpu kstackTop cpu)
    (hr : exec gdtAddress tssAddress t c o = some (t', c')) : Described t' := by
  have htop : ∀ (g : ℕ → ℕ) (v w : ℕ), ∀ i < 5,
      Function.update (Function.update g 5 v) 6 w i = g i := by
    intro g v w i hi
    rw [Function.update_of_ne (by omega), Function.update_of_ne (by omega)]
  cases o with
  | entry i e =>
    obtain ⟨rfl, -⟩ := Prod.mk.inj (Option.some.inj hr)
    apply h.entry
    simpa [initCpu, tssInit] using ho
  | flush =>
    obtain ⟨_, -, he⟩ := Option.map_eq_some_iff.mp hr
    obtain ⟨rfl, -⟩ := Prod.mk.inj he
    exact h
  | tssEntry =>
    obtain ⟨rfl, -⟩ := Prod.mk.inj (Option.some.inj hr)
    exact h.above (htop _ _ _)
  | flushTss =>
    rw [Gdt.exec, flushTss] at hr
    split at hr
    · split_ifs at hr
      obtain ⟨rfl, -⟩ := Prod.mk.inj (Option.some.inj hr)
      exact h.above fun i hi => Function.update_of_ne (by omega) _ _
    · exact absurd hr (by simp)
  | _ =>
    obtain ⟨rfl, -⟩ := Prod.mk.inj (Option.some.inj hr)
    exact ⟨h.kernelCode, h.kernelData, h.userCode, h.userData⟩

theorem flush_described (h : Described t) (hptr : t.gdtPtr = ⟨sizeofGdt-1, gdtAddress⟩) :
    flush gdtAddress t c = some { c with
      code := (⟨0, 0, 0, gdtKernelCode, gdtGranularityFlat, 0⟩ : GdtEntry).word
      data := (⟨0, 0, 0, gdtKernelData, gdtGranularityFlat, 0⟩ : GdtEntry).word
      gsBase := none } := by
  rw [flush, hptr, h.kernelCode, h.kernelData]
  exact if_pos ⟨rfl, (by decide : 0x10+7 ≤ sizeofGdt-1), by decide, by decide, by decide,
    by decide⟩

theorem runOps_cons {o : Op} {os : List Op}
    (h : exec gdtAddress tssAddress t c o = some (t', c')) :
    runOps gdtAddress tssAddress t c (o::os) = runOps gdtAddress tssAddress t' c' os := by
  rw [runOps, h, Option.bind_some]

theorem flush_runs (h : Described t) (hptr : t.gdtPtr = ⟨sizeofGdt-1, gdtAddress⟩) (os : List Op) :
    runOps gdtAddress tssAddress t c (.flush::os) = runOps gdtAddress tssAddress t { c with
      code := (⟨0, 0, 0, gdtKernelCode, gdtGranularityFlat, 0⟩ : GdtEntry).word
      data := (⟨0, 0, 0, gdtKernelData, gdtGranularityFlat, 0⟩ : GdtEntry).word
      gsBase := none } os := by
  apply runOps_cons
  rw [exec, flush_described h hptr, Option.map_some]

variable (gdtAddress tssAddress) in
theorem gdtInit_runs (t : Tables) (c : Core) (os : List Op) :
    ∃ t', Described t' ∧ t'.gdtPtr = ⟨sizeofGdt-1, gdtAddress⟩ ∧
      runOps gdtAddress tssAddress t c (gdtInit ++ os) = runOps gdtAddress tssAddress t' { c with
        code := (⟨0, 0, 0, gdtKernelCode, gdtGranularityFlat, 0⟩ : GdtEntry).word
        data := (⟨0, 0, 0, gdtKernelData, gdtGranularityFlat, 0⟩ : GdtEntry).word
        gsBase := none } os := by
  obtain ⟨t', ht⟩ : ∃ t', (gdtInit.dropLast.foldl (fun (s : Tables) o =>
    ((exec gdtAddress tssAddress s c o).map Prod.fst).getD s) t) = t' := ⟨_, rfl⟩
  have hdesc : Described t' := by
    rw [← ht]
    exact ⟨rfl, rfl, rfl, rfl⟩
  have hptr : t'.gdtPtr = ⟨sizeofGdt-1, gdtAddress⟩ := by
    rw [← ht]
    rfl
  refine ⟨t', hdesc, hptr, ?_⟩
  have hrun : runOps gdtAddress tssAddress t c (gdtInit ++ os) =
      runOps gdtAddress tssAddress t' c (.flush::os) := by
    rw [← ht]
    rfl
  rw [hrun, flush_runs hdesc hptr]

theorem flushTss_runs (htss : tssAddress < 2^64) (h5 : t.gdt 5 = (tssEntry tssAddress).word)
    (h6 : t.gdt 6 = (tssEntry tssAddress).upper) : ∃ t', flushTss t c =
      some (t', { c with tr := some ⟨tssAddress, sizeofTss-1, 3, false⟩ }) := by
  rw [flushTss, h5, h6, readTss_tssEntry htss]
  exact ⟨_, rfl⟩

/-- The tables when `%gs` and the task register are loaded for the last time. -/
def refreshed (tssAddress kstackTop : ℕ) (t : Tables) : Tables :=
  { t with
    gdt := Function.update (Function.update t.gdt 5 (tssEntry tssAddress).word) 6
      (tssEntry tssAddress).upper
    tss := ⟨kstackTop, sizeofTss⟩ }

@[simp] theorem refreshed_gdt (kstackTop : ℕ) (t : Tables) :
    (refreshed tssAddress kstackTop t).gdt = Function.update
      (Function.update t.gdt 5 (tssEntry tssAddress).word) 6 (tssEntry tssAddress).upper := rfl

theorem tssInit_runs (kstackTop : ℕ) (t : Tables) (c : Core) :
    runOps gdtAddress tssAddress t c ([.rest] ++ tssInit kstackTop ++ [.rest]) =
      runOps gdtAddress tssAddress (refreshed tssAddress kstackTop t) c
        [.flush, .flushTss, .rest] := by
  rw [tssInit, List.cons_append, List.nil_append, List.cons_append]
  calc runOps gdtAddress tssAddress t c _
    _ = runOps gdtAddress tssAddress t c _ := runOps_cons rfl
    _ = runOps gdtAddress tssAddress { t with tss := {} } c _ := runOps_cons rfl
    _ = runOps gdtAddress tssAddress { t with tss := ⟨kstackTop, 0⟩ } c _ := runOps_cons rfl
    _ = runOps gdtAddress tssAddress { t with tss := ⟨kstackTop, sizeofTss⟩ } c _ := runOps_cons rfl
    _ = runOps gdtAddress tssAddress (refreshed tssAddress kstackTop t) c _ := runOps_cons rfl

variable (gdtAddress) in
/-- Whatever the tables hold before, the sequence runs to its end when nothing
else writes them. -/
theorem initCpu_runs (htss : tssAddress < 2^64) (kstackTop cpu : ℕ) (t : Tables) (c : Core) :
    ∃ t' c', runOps gdtAddress tssAddress t c (initCpu kstackTop cpu) = some (t', c') ∧
      Loaded tssAddress c' ∧ c'.kernelGsBase = c.kernelGsBase := by
  obtain ⟨t₁, hdesc, hptr, hrun⟩ := gdtInit_runs gdtAddress tssAddress t
    { c with gsBase := some cpu } ([.rest] ++ tssInit kstackTop ++ [.rest])
  have hdesc₂ : Described (refreshed tssAddress kstackTop t₁) := hdesc.above fun i hi => by
    rw [refreshed_gdt, Function.update_of_ne (by omega), Function.update_of_ne (by omega)]
  have h5 : (refreshed tssAddress kstackTop t₁).gdt 5 = (tssEntry tssAddress).word := by
    rw [refreshed_gdt, Function.update_of_ne (by decide), Function.update_self]
  have h6 : (refreshed tssAddress kstackTop t₁).gdt 6 = (tssEntry tssAddress).upper := by
    rw [refreshed_gdt, Function.update_self]
  have hfirst : runOps gdtAddress tssAddress t c (initCpu kstackTop cpu) =
      runOps gdtAddress tssAddress t { c with gsBase := some cpu }
        (gdtInit ++ ([.rest] ++ tssInit kstackTop ++ [.rest])) := by
    rw [initCpu, List.append_assoc, List.append_assoc, List.append_assoc]
    exact runOps_cons rfl
  rw [hfirst, hrun, tssInit_runs, flush_runs hdesc₂ hptr, runOps, exec]
  obtain ⟨t₃, ht₃⟩ := flushTss_runs (c := { c with
    code := (⟨0, 0, 0, gdtKernelCode, gdtGranularityFlat, 0⟩ : GdtEntry).word
    data := (⟨0, 0, 0, gdtKernelData, gdtGranularityFlat, 0⟩ : GdtEntry).word
    gsBase := none }) htss h5 h6
  rw [ht₃]
  exact ⟨t₃, _, rfl, ⟨rfl, rfl, rfl, rfl⟩, rfl⟩

end Sequence

/-- A CPU that comes between the entry and the `ltr` of another one has it refused. -/
example : (runOps 0x1000 0x2000 {} {} [.tssEntry, .flushTss, .flushTss]).isNone = true := by
  decide +kernel

end Emk.Gdt
