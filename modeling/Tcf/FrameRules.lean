import Tcf.LineNumbers

/-! Call frame information: the rules of a frame, and the instructions that build them. -/
namespace Tcf.Frames

open Dwarf

/-- `loading` is an exception of `elf_load` or `drl_relocate`, `stuck` a loop that does not end. -/
inductive Stop where
  | failure (failure : Failure)
  | loading
  | stuck
  deriving DecidableEq, Repr

/-- `machine` of an ELF file -/
inductive Machine where
  | i386
  | x8664
  | ppc
  | ppc64
  | arm
  | tricore
  | v850
  | microblaze
  | aarch64
  | other
  deriving DecidableEq, Repr

/-- `none` is 0. -/
inductive Rule where
  | none
  | offset
  | sameValue
  | register
  | expression
  | valOffset
  | valExpression
  deriving DecidableEq, Repr

structure RegisterRules where
  rule : Rule
  offset : Int
  expression : Nat
  deriving DecidableEq, Repr

/-- The first `regs_cnt` registers. -/
structure StackFrameRegisters where
  cfaRule : Rule
  cfaOffset : Int
  cfaRegister : Nat
  cfaExpression : Nat
  regs : List RegisterRules
  deriving DecidableEq, Repr

/-- `rules`, without what is not read again. -/
structure StackFrameRules where
  addressSize : Nat
  codeAlignment : Nat
  dataAlignment : Int
  ciePos : Nat
  cieAug : Option (List UInt8)
  addrEncoding : Nat
  location : Nat
  returnAddressRegister : Nat
  deriving DecidableEq, Repr

structure FrameInfoRange where
  mSection : Nat
  mAddr : Nat
  mSize : Nat
  mOffset : Nat
  deriving DecidableEq, Repr

/-- `mFrameInfoRanges` is `NULL` or an array. -/
structure FrameInfoIndex where
  mFrameInfoRanges : Option (List FrameInfoRange)
  mRelocatable : Bool
  deriving DecidableEq, Repr

/-- A section of memory that an indirect pointer can be in. -/
structure MemorySection where
  alloc : Bool
  addr : Nat
  size : Nat
  data : Option (List UInt8)

/-- A section of frame info. `relocate` is `drl_relocate` for a place, a size and the contents: new contents and a section, or an exception. -/
structure FrameSection where
  data : List UInt8
  addr : Nat
  alignment : Nat
  ehFrame : Bool
  elf64 : Bool
  bigEndian : Bool
  machine : Machine
  sections : List MemorySection
  relocate : Nat → Nat → Nat → Option (Nat × Option Nat)

/-- The registers in `regs_stack` are those below `regs_stack_pos`. -/
structure World where
  dio : Dio
  rules : StackFrameRules
  frameRegs : StackFrameRegisters
  cieRegs : StackFrameRegisters
  regsStack : List StackFrameRegisters
  index : FrameInfoIndex
  deriving DecidableEq, Repr

abbrev Lookup := EStateM Stop World

section Registers

def plain (rule : Rule) : RegisterRules := ⟨rule,0,0⟩

/-- The last link of the chains in `get_reg` -/
def returnAddress (returnAddressRegister n : Nat) (link : Int) : RegisterRules :=
  if n = returnAddressRegister then ⟨.register,link,0⟩ else plain .none

/-- Architecture specific implied rules -/
def implied (machine : Machine) (returnAddressRegister n : Nat) : RegisterRules :=
  match machine with
  | .i386 => if n = 4 then plain .valOffset else if n = 3 ∨ n = 5 ∨ n = 6 ∨ n = 7 then plain .sameValue else plain .none
  | .x8664 =>
    if n = 3 ∨ n = 6 ∨ (12 ≤ n ∧ n ≤ 15) then plain .sameValue else if n = 7 then plain .valOffset else plain .none
  | .ppc =>
    if n = 1 then plain .valOffset else if (14 ≤ n ∧ n ≤ 31) ∨ (46 ≤ n ∧ n ≤ 63) then plain .sameValue
    else returnAddress returnAddressRegister n 108
  | .ppc64 =>
    if n = 1 then plain .valOffset else if (14 ≤ n ∧ n ≤ 31) ∨ (46 ≤ n ∧ n ≤ 63) then plain .sameValue
    else returnAddress returnAddressRegister n 65
  | .arm =>
    if 4 ≤ n ∧ n ≤ 11 then plain .sameValue else if n = 13 then plain .valOffset else returnAddress returnAddressRegister n 14
  | .tricore =>
    if n ≤ 7 ∨ (18 ≤ n ∧ n ≤ 23) then plain .sameValue else if n = 26 then plain .valOffset
    else returnAddress returnAddressRegister n 27
  | .v850 =>
    if n = 0 then plain .sameValue else if 6 ≤ n ∧ n ≤ 29 then plain .sameValue else if n = 3 then plain .valOffset
    else returnAddress returnAddressRegister n 31
  | .microblaze =>
    if n = 0 then plain .sameValue else if 19 ≤ n ∧ n ≤ 31 then plain .sameValue else if n = 2 then plain .sameValue
    else if n = 13 then plain .sameValue else if n = 14 then plain .sameValue else if n = 1 then plain .valOffset
    else returnAddress returnAddressRegister n 15
  | .aarch64 =>
    if 19 ≤ n ∧ n ≤ 28 then plain .sameValue else if n = 31 then plain .valOffset else returnAddress returnAddressRegister n 30
  | .other => plain .none

/-- `min_reg_cnt` behind the first round of the loop -/
def minRegCnt : Machine → Nat
  | .i386 => 8
  | .x8664 => 16
  | .ppc => 64
  | .ppc64 => 64
  | .arm => 14
  | .tricore => 50
  | .v850 => 32
  | .microblaze => 32
  | .aarch64 => 32
  | .other => 0

/-- The registers that the loop of `get_reg` leaves behind. -/
def grown (machine : Machine) (returnAddressRegister : Nat) (regs : List RegisterRules) (reg : Nat) : List RegisterRules :=
  if reg < regs.length then regs
  else regs ++ (List.range' regs.length (max (reg + 1) (minRegCnt machine) - regs.length)).map (implied machine returnAddressRegister)

def noRegisters : StackFrameRegisters := ⟨.none,0,0,0,[]⟩

/-- The loop of `copy_register_rules` -/
def copyRegs (machine : Machine) (returnAddressRegister : Nat) (src : List RegisterRules) : Nat → List RegisterRules
  | 0 => []
  | n+1 =>
    let dst := copyRegs machine returnAddressRegister src n
    (grown machine returnAddressRegister dst n).set n (src.getD n (plain .none))

def copyRegisterRules (machine : Machine) (returnAddressRegister : Nat) (src : StackFrameRegisters) : StackFrameRegisters :=
  { src with regs := copyRegs machine returnAddressRegister src.regs src.regs.length }

end Registers

section Reader

variable (s : FrameSection)

def exception (stop : Stop) : Lookup α := throw stop

def liftRead (read : Read α) : Lookup α := fun w =>
  match read w.dio with
  | .ok (a,d) => .ok a { w with dio := d }
  | .error failure => .error (.failure failure) w

def readSection : Section := ⟨s.bigEndian,if s.elf64 then 8 else 4,fun _ value => (value,none)⟩

def getPos : Lookup Nat := liftRead dioGetPos

/-- `dio_SetPos` -/
def setPos (pos : Nat) : Lookup Unit := fun w =>
  if pos > s.data.length then .error (.failure .eof) w else .ok () { w with dio := ⟨pos,s.data.drop pos⟩ }

/-- `dio_Skip` for a number that may be negative. -/
def skip (bytes : Int) : Lookup Unit := do
  let pos ← getPos
  setPos s ((pos + bytes) % 2 ^ 64).toNat

/-- `dio_EnterSection`, with its assertions about the position. -/
def enterSection (offset : Nat) : Lookup Unit := fun w =>
  if offset < s.data.length then .ok () { w with dio := ⟨offset,s.data.drop offset⟩ } else .error (.failure .undefined) w

/-- `dio_ReadAddressX` -/
def readAddressX (size : Nat) : Lookup (Nat × Option Nat) := do
  let pos ← getPos
  if size = 2 ∨ size = 4 ∨ size = 8 then
    let value ← liftRead (dioReadUint (readSection s) size)
    match s.relocate pos size value with
    | some (value,sec) => pure (value % 256 ^ size,sec)
    | none => exception .loading
  else exception (.failure (.invDwarf "Invalid data size"))

def dioReadS8LEB128 : Read Nat := fun d => lebLoop 64 true d.rest d.pos 0 0

/-- A number of `size` bytes, extended to 64 bits by its sign. -/
def signExtend (size value : Nat) : Nat := if value < 256 ^ size / 2 then value else value + 2 ^ 64 - 256 ^ size

/-- The address at `v` in the memory of the file; 0 where there is no section. -/
def readIndirect (size v : Nat) : List MemorySection → Lookup Nat
  | [] => pure 0
  | sec :: later =>
    if sec.alloc ∧ sec.addr ≤ v ∧ (sec.addr + sec.size) % 2 ^ 64 ≥ (v + size) % 2 ^ 64 then
      match sec.data with
      | none => exception .loading
      | some data =>
        let bytes := (data.drop (v - sec.addr)).take size
        if bytes.length = size then pure (ByteNumbers.valueOf s.bigEndian bytes % 2 ^ 64) else exception (.failure .undefined)
    else readIndirect size v later

def alignPos (addressSize pos : Nat) : Lookup Unit :=
  if pos % addressSize ≠ 0 then setPos s ((pos + (addressSize - pos % addressSize)) % 2 ^ 64) else pure ()

/-- The base of a pointer. `known` says that a section is asked for, `text` is the address of the text section. -/
def pointerBase (rules : StackFrameRules) (encoding : Nat) (text : Option Nat) (known : Bool) (funcAddr pos : Nat) : Lookup Nat :=
  match encoding / 16 % 8 with
  | 0 | 4 => pure funcAddr
  | 1 => pure (if known then (pos + s.addr) % 2 ^ 64 else 0)
  | 2 => pure (if known then text.getD 0 else 0)
  | 3 => pure (if known then s.addr else 0)
  | 5 =>
    if rules.addressSize = 0 then exception (.failure .undefined)
    else do
      alignPos s rules.addressSize pos
      pure 0
  | _ => exception (.failure (.invDwarf "Unknown encoding of .eh_frame section pointers"))

/-- What is added to the base. -/
def pointerValue (encoding : Nat) : Lookup (Nat × Option Nat) :=
  match encoding % 16 with
  | 0x00 => readAddressX s (if s.elf64 then 8 else 4)
  | 0x01 => do
    let n ← liftRead dioReadU8LEB128
    pure (n,none)
  | 0x02 => readAddressX s 2
  | 0x03 => readAddressX s 4
  | 0x04 => readAddressX s 8
  | 0x09 => do
    let n ← liftRead dioReadS8LEB128
    pure (n,none)
  | 0x0a => do
    let (n,sec) ← readAddressX s 2
    pure (signExtend 2 n,sec)
  | 0x0b => do
    let (n,sec) ← readAddressX s 4
    pure (signExtend 4 n,sec)
  | 0x0c => readAddressX s 8
  | _ => exception (.failure (.invDwarf "Unknown encoding of .eh_frame section pointers"))

/-- `read_frame_data_pointer` -/
def readFrameDataPointer (encoding : Nat) (text : Option Nat) (known : Bool) (funcAddr : Nat) : Lookup (Nat × Option Nat) := do
  let w ← get
  if encoding = 0xff then pure (0,none)
  else do
    let base ← pointerBase s w.rules encoding text known funcAddr w.dio.pos
    let (value,sec) ← pointerValue s encoding
    let v := (base + value) % 2 ^ 64
    if encoding / 128 % 2 = 1 then do
      let v ← readIndirect s w.rules.addressSize v s.sections
      pure (v,sec)
    else pure (v,sec)

end Reader

section Instructions

variable (s : FrameSection)

/-- `get_reg` for the frame. The array doubles from 32 entries on with a size in an `int`, which a greater number gets beyond. -/
def getReg (reg : Nat) : Lookup RegisterRules := fun w =>
  if reg < 2 ^ 30 then
    let regs := grown s.machine w.rules.returnAddressRegister w.frameRegs.regs reg
    .ok (regs.getD reg (plain .none)) { w with frameRegs.regs := regs }
  else .error (.failure .undefined) w

/-- `*get_reg(&cie_regs, reg)` -/
def getCieReg (reg : Nat) : Lookup RegisterRules := fun w =>
  if reg < 2 ^ 30 then
    let regs := grown s.machine w.rules.returnAddressRegister w.cieRegs.regs reg
    .ok (regs.getD reg (plain .none)) { w with cieRegs.regs := regs }
  else .error (.failure .undefined) w

/-- An assignment through the pointer that `get_reg` has returned. -/
def setReg (reg : Nat) (rules : RegisterRules) : Lookup Unit :=
  modify fun w => { w with frameRegs.regs := w.frameRegs.regs.set reg rules }

def modifyFrame (f : StackFrameRegisters → StackFrameRegisters) : Lookup Unit := modify fun w => { w with frameRegs := f w.frameRegs }

/-- `rules.location += n` for a 32-bit product -/
def advanceLocation (delta : Nat) : Lookup Unit :=
  modify fun w => { w with rules.location := (w.rules.location + delta * w.rules.codeAlignment % 2 ^ 32) % 2 ^ 64 }

/-- `n * rules.data_alignment` as an `I4_T`; the product wraps around. -/
def scaled (rules : StackFrameRules) (n : Int) : Int := toI4 (n * rules.dataAlignment % 2 ^ 32).toNat

def uleb : Lookup Nat := liftRead dioReadULEB128

def sleb : Lookup Int := liftRead dioReadSLEB128

/-- A register, a rule, and an operand as the rule wants it. -/
def ruleWith (rule : Rule) (operand : StackFrameRules → Lookup Int) : Lookup Unit := do
  let reg ← uleb
  let old ← getReg s reg
  let w ← get
  let offset ← operand w.rules
  setReg reg { old with rule := rule, offset := offset }

def unsignedOffset (rules : StackFrameRules) : Lookup Int := do
  let n ← uleb
  pure (scaled rules n)

def signedOffset (rules : StackFrameRules) : Lookup Int := do
  let n ← sleb
  pure (scaled rules n)

def negativeOffset (rules : StackFrameRules) : Lookup Int := do
  let n ← sleb
  pure (scaled rules (-n))

/-- A number as it is, in an `I4_T`. -/
def plainOperand (_ : StackFrameRules) : Lookup Int := do
  let n ← uleb
  pure (toI4 n)

/-- A register and a block. -/
def ruleExpression (rule : Rule) : Lookup Unit := do
  let reg ← uleb
  let old ← getReg s reg
  let size ← uleb
  let pos ← getPos
  setReg reg { old with rule := rule, offset := toI4 size, expression := pos }
  skip s (toI4 size)

/-- A register is restored to the rule of the CIE. -/
def restoreReg (reg : Nat) : Lookup Unit := do
  let _ ← getReg s reg
  let rules ← getCieReg s reg
  setReg reg rules

def rememberState : Lookup Unit :=
  modify fun w => { w with regsStack := copyRegisterRules s.machine w.rules.returnAddressRegister w.frameRegs :: w.regsStack }

def restoreState : Lookup Unit := fun w =>
  match w.regsStack with
  | [] => .error (.failure (.invDwarf "Invalid DW_CFA_restore_state instruction")) w
  | top :: regsStack => .ok () { w with frameRegs := copyRegisterRules s.machine w.rules.returnAddressRegister top, regsStack := regsStack }

/-- `default` -/
def execPacked (op : Nat) : Lookup Unit :=
  match op / 64 with
  | 1 => advanceLocation (op % 64)
  | 2 => do
    let old ← getReg s (op % 64)
    let w ← get
    let offset ← unsignedOffset w.rules
    setReg (op % 64) { old with rule := .offset, offset := offset }
  | 3 => restoreReg s (op % 64)
  | _ => exception (.failure (.invDwarf "Unsupported instruction in Call Frame Information"))

/-- `exec_stack_frame_instruction` behind the opcode -/
def execOpcode (text : Option Nat) (funcAddr op : Nat) : Lookup Unit :=
  match op with
  | 0x00 => pure ()
  | 0x01 => do
    let w ← get
    let (location,_) ← readFrameDataPointer s w.rules.addrEncoding text true funcAddr
    modify fun w => { w with rules.location := location }
  | 0x02 => do
    let n ← liftRead dioReadU1
    advanceLocation n
  | 0x03 => do
    let n ← liftRead (dioReadU2 (readSection s))
    advanceLocation n
  | 0x04 => do
    let n ← liftRead (dioReadU4 (readSection s))
    advanceLocation n
  | 0x05 => ruleWith s .offset unsignedOffset
  | 0x06 => do
    let n ← uleb
    restoreReg s n
  | 0x07 => do
    let reg ← uleb
    let _ ← getReg s reg
    setReg reg (plain .none)
  | 0x08 => do
    let reg ← uleb
    let old ← getReg s reg
    setReg reg { old with rule := .sameValue }
  | 0x09 => ruleWith s .register plainOperand
  | 0x0a => rememberState s
  | 0x0b => restoreState s
  | 0x0c => do
    let reg ← uleb
    let offset ← uleb
    modifyFrame fun regs => { regs with cfaRule := .offset, cfaRegister := reg, cfaOffset := toI4 offset }
  | 0x0d => do
    let reg ← uleb
    modifyFrame fun regs => { regs with cfaRule := .offset, cfaRegister := reg }
  | 0x0e => do
    let offset ← uleb
    modifyFrame fun regs => { regs with cfaRule := .offset, cfaOffset := toI4 offset }
  | 0x0f => do
    let size ← uleb
    let pos ← getPos
    modifyFrame fun regs => { regs with cfaRule := .expression, cfaOffset := toI4 size, cfaExpression := pos }
    skip s (toI4 size)
  | 0x10 => ruleExpression s .expression
  | 0x11 => ruleWith s .offset signedOffset
  | 0x12 => do
    let reg ← uleb
    let w ← get
    let offset ← signedOffset w.rules
    modifyFrame fun regs => { regs with cfaRule := .offset, cfaRegister := reg, cfaOffset := offset }
  | 0x13 => do
    let w ← get
    let offset ← signedOffset w.rules
    modifyFrame fun regs => { regs with cfaRule := .offset, cfaOffset := offset }
  | 0x14 => ruleWith s .valOffset unsignedOffset
  | 0x15 => ruleWith s .valOffset signedOffset
  | 0x16 => ruleExpression s .valExpression
  | 0x2e => do
    let _ ← uleb
    pure ()
  | 0x2f => ruleWith s .offset negativeOffset
  | op => execPacked s op

/-- `exec_stack_frame_instruction` -/
def execStackFrameInstruction (text : Option Nat) (funcAddr : Nat) : Lookup Unit := do
  let op ← liftRead dioReadU1
  execOpcode s text funcAddr op

end Instructions

end Tcf.Frames
