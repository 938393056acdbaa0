import Emk.Calls
import Emk.Idt
import Emk.Sched
import Emk.StackWords

/-!
# The interrupt stubs

`arch/idt-stub.S`: the code through which the processor reaches a handler in C
and returns from it. The words that the processor and the stub push make up
the `register_ctx` that the handler gets. Addresses are those of the address
space in force; all accesses of this path are to multiples of eight. The
checks that `iretq` makes on the selectors are left out.
-/

set_option autoImplicit false

namespace Emk.IsrStub
open Emk.MachineWord Emk.Calls Emk.StackWords Emk.Idt
open Emk.Sched (RegisterCtx)

inductive Reg where
  | rax | rbx | rcx | rdx | rbp | rdi | rsi
  | r8 | r9 | r10 | r11 | r12 | r13 | r14 | r15
  deriving DecidableEq, Repr

inductive Special where
  | cr0 | cr2 | cr3 | cr4 | ds | es
  deriving DecidableEq, Repr

structure Cpu extends Core Reg where
  special : Special → ℕ
  rip : ℕ
  cs : ℕ
  rflags : ℕ
  ss : ℕ
  /-- of the arithmetic flags only this one is looked at -/
  zf : Bool
  gsBase : ℕ
  kernelGsBase : ℕ

inductive Instr where
  | pushq (r : Reg)
  | pushImm (value : ℕ)
  | popq (r : Reg)
  | movSpecial (source : Special) (r : Reg)
  | movRsp (r : Reg)
  | load (disp : ℕ) (r : Reg)
  | leaq (address : ℕ) (r : Reg)
  | shlq (count : ℕ) (r : Reg)
  | addq (source r : Reg)
  | addRsp (value : ℕ)
  | testw (mask : ℕ) (r : Reg)
  /-- jump over the instruction when the last test gave zero -/
  | jzOver (i : Instr)
  | cld
  | swapgs
  /-- call the function whose address lies where the register points to -/
  | callInd (r : Reg)
  | iretq
  deriving Repr

/-- The registers that the stub saves, in the order of its pushes. -/
def savedRegs : List Reg :=
  [.rax, .rbx, .rcx, .rdx, .rbp, .rdi, .rsi, .r8, .r9, .r10, .r11, .r12, .r13, .r14, .r15]

def specials : List Special := [.cr0, .cr2, .cr3, .cr4, .ds, .es]

section Code
variable (realHandlers : ℕ)

/-- `isr_handler_stub` up to the call. -/
def entry : List Instr :=
  savedRegs.map .pushq ++ specials.flatMap (fun s => [.movSpecial s .rax, .pushq .rax]) ++
    [.cld, .load 168 .rax, .testw 3 .rax, .jzOver .swapgs, .movRsp .rdi, .load 168 .rbx,
      .shlq 3 .rbx, .leaq realHandlers .rax, .addq .rbx .rax]

/-- What follows the call; the first 48 bytes are not restored. -/
def exit : List Instr :=
  [.addRsp 48] ++ savedRegs.reverse.map .popq ++ [.addRsp 16, .iretq]

def isrHandlerStub : List Instr := entry realHandlers ++ [.callInd .rax] ++ exit

/-- The vectors for which the stub pushes no word in place of an error code. -/
def errorVectors : List ℕ := [8, 10, 11, 12, 13, 14, 17, 30]

def isr (index : ℕ) : List Instr :=
  (if index ∈ errorVectors then [] else [.pushImm 0]) ++ [.pushImm index] ++
    isrHandlerStub realHandlers

end Code

/-- A processor and the rest of the kernel's state. -/
structure Node (W : Type) where
  cpu : Cpu
  world : W

variable {W : Type}

def onCpu (g : Cpu → Cpu) : Call (Node W) Unit := update fun s => { s with cpu := g s.cpu }

namespace Cpu

def onCore (g : Core Reg → Core Reg) (c : Cpu) : Cpu := { c with toCore := g c.toCore }

def setReg (r : Reg) (value : ℕ) (c : Cpu) : Cpu :=
  c.onCore fun core => { core with reg := Function.update core.reg r value }

def setRsp (value : ℕ) (c : Cpu) : Cpu := c.onCore fun core => { core with rsp := value }

/-- The word at this offset from the stack pointer. -/
def top (c : Cpu) (disp : ℕ) : ℕ := c.mem (c.rsp+disp)

def iretq (c : Cpu) : Cpu :=
  { c with toCore := { c.toCore with rsp := c.top 24 }
           rip := c.top 0, cs := c.top 8, rflags := c.top 16, ss := c.top 32 }

end Cpu

/-- A call runs the function at the address to its return. -/
def exec (code : ℕ → Call (Node W) Unit) : Instr → Call (Node W) Unit
  | .pushq r => onCpu fun c => c.onCore (·.push (c.reg r))
  | .pushImm value => onCpu fun c => c.onCore (·.push value)
  | .popq r => onCpu fun c => c.onCore (·.pop r)
  | .movSpecial s r => onCpu fun c => c.setReg r (c.special s)
  | .movRsp r => onCpu fun c => c.setReg r c.rsp
  | .load disp r => onCpu fun c => c.setReg r (c.top disp)
  | .leaq address r => onCpu fun c => c.setReg r address
  | .shlq count r => onCpu fun c => c.setReg r (wrap (c.reg r <<< count))
  | .addq source r => onCpu fun c => c.setReg r (wrap (c.reg r+c.reg source))
  | .addRsp value => onCpu fun c => c.setRsp (c.rsp+value)
  | .testw mask r => onCpu fun c => { c with zf := decide (c.reg r % 2^16 &&& mask = 0) }
  | .jzOver i => fun s => if s.cpu.zf then (some (), s) else exec code i s
  | .cld => onCpu fun c => { c with rflags := c.rflags &&& (2^64-1-2^10) }
  | .swapgs => onCpu fun c => { c with gsBase := c.kernelGsBase, kernelGsBase := c.gsBase }
  | .callInd r => fun s => code (s.cpu.mem (s.cpu.reg r)) s
  | .iretq => onCpu Cpu.iretq

def runCode (code : ℕ → Call (Node W) Unit) : List Instr → Call (Node W) Unit
  | [] => pure ()
  | i::is => do
    exec code i
    runCode code is

/-- What the processor clears of the flags when it enters a handler. -/
def clearedFlags (trap : Bool) : ℕ :=
  2^8 ||| 2^14 ||| 2^16 ||| 2^17 ||| (if trap then 0 else 2^9)

/-- The processor leaves user code for the stack of the task state segment. -/
def stackTop (rsp0 : ℕ) (c : Cpu) : ℕ :=
  let sp := if c.cs % 4 = 0 then c.rsp else rsp0
  sp - sp % 16

/-- What the processor pushes, in order. -/
def pushed (err : Option ℕ) (c : Cpu) : List ℕ :=
  [c.ss, c.rsp, c.rflags, c.cs, c.rip] ++ err.toList

/-- The processor takes an interrupt through a gate. -/
def deliver (gate : Gate) (rsp0 : ℕ) (err : Option ℕ) (c : Cpu) : Cpu :=
  { c with toCore := { c.toCore with rsp := stackTop rsp0 c }.pushAll (pushed err c)
           rip := gate.offset
           cs := gate.selector
           ss := if c.cs % 4 = 0 then c.ss else 0
           rflags := c.rflags &&& (2^64-1-clearedFlags gate.trap) }

/-- The stub at an address. -/
def fetch (sym : Symbols) (rip : ℕ) : Option ℕ :=
  (List.range 256).find? fun v => decide (sym.stubs v = rip)

/-- An interrupt from the moment it is taken to the return from it. -/
def interrupt (sym : Symbols) (realHandlers rsp0 : ℕ) (code : ℕ → Call (Node W) Unit)
    (descriptor : ℕ → IdtEntry) (vector : ℕ) (err : Option ℕ) : Call (Node W) Unit :=
  match readGate (descriptor vector).words with
  | none => never
  | some gate => do
    onCpu (deliver gate rsp0 err)
    let rip ← observe fun s => s.cpu.rip
    match fetch sym rip with
    | none => never
    | some v => runCode code (isr realHandlers v)

/-- The record that lies at an address. -/
def readCtx (m : Words) (a : ℕ) : RegisterCtx where
  es := m a
  ds := m (a+8)
  cr4 := m (a+16)
  cr3 := m (a+24)
  cr2 := m (a+32)
  cr0 := m (a+40)
  r15 := m (a+48)
  r14 := m (a+56)
  r13 := m (a+64)
  r12 := m (a+72)
  r11 := m (a+80)
  r10 := m (a+88)
  r9 := m (a+96)
  r8 := m (a+104)
  rsi := m (a+112)
  rdi := m (a+120)
  rbp := m (a+128)
  rdx := m (a+136)
  rcx := m (a+144)
  rbx := m (a+152)
  rax := m (a+160)
  vector := m (a+168)
  err := m (a+176)
  rip := m (a+184)
  cs := m (a+192)
  rflags := m (a+200)
  rsp := m (a+208)
  ss := m (a+216)

end Emk.IsrStub
