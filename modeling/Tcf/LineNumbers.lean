import Tcf.Base.ByteNumbers

/-! The loader of DWARF line number tables, from the reader of bytes in a section up to the loop over
the opcodes of a program. -/
namespace Tcf.Dwarf

open ByteNumbers

/-- `undefined` is for a shift by the width of the type, a division by zero, or a write behind an array. -/
inductive Failure where
  | eof
  | invDwarf (message : String)
  | undefined
  deriving DecidableEq, Repr

/-- `sDataPos`, and the data from there on. -/
structure Dio where
  pos : Nat
  rest : List UInt8
  deriving DecidableEq, Repr

abbrev Read (α : Type) := StateT Dio (Except Failure) α

/-- What `dio_EnterSection` sets. `relocate` is `drl_relocate`: the new contents of a place, and a section. -/
structure Section where
  bigEndian : Bool
  addressSize : Nat
  relocate : Nat → Nat → Nat × Option Nat

def fail (failure : Failure) : Read α := fun _ => .error failure

def dioGetPos : Read Nat := fun d => .ok (d.pos,d)

def dioSkip (bytes : Nat) : Read Unit := fun d =>
  if bytes > d.rest.length then .error .eof else .ok ((),⟨d.pos + bytes,d.rest.drop bytes⟩)

def dioRead (size : Nat) : Read (List UInt8) := fun d =>
  if size > d.rest.length then .error .eof else .ok (d.rest.take size,⟨d.pos + size,d.rest.drop size⟩)

def dioReadU1 : Read Nat := fun d =>
  match d.rest with
  | [] => .error .eof
  | byte :: rest => .ok (byte.toNat,⟨d.pos + 1,rest⟩)

/-- `dio_ReadU2`, `dio_ReadU4` and `dio_ReadU8` -/
def dioReadUint (sec : Section) (size : Nat) : Read Nat := do
  let bytes ← dioRead size
  pure (valueOf sec.bigEndian bytes)

def dioReadU2 (sec : Section) : Read Nat := dioReadUint sec 2
def dioReadU4 (sec : Section) : Read Nat := dioReadUint sec 4
def dioReadU8 (sec : Section) : Read Nat := dioReadUint sec 8

/-- `n << i` -/
def shiftLeft (width n i : Nat) : Except Failure Nat :=
  if i < width then .ok (n <<< i % 2 ^ width) else .error .undefined

/-- The loop of the functions that read LEB128. -/
def lebLoop (width : Nat) (signed : Bool) : List UInt8 → Nat → Nat → Nat → Except Failure (Nat × Dio)
  | [], _, _, _ => .error .eof
  | byte :: rest, pos, res, i => do
    let n := byte.toNat
    let bits ← shiftLeft width (n &&& 0x7F) i
    let res := res ||| bits
    if n &&& 0x80 = 0 then
      if signed then
        let sign ← shiftLeft width (n &&& 0x40) i
        pure (res ||| (2 ^ width - sign) % 2 ^ width,⟨pos + 1,rest⟩)
      else pure (res,⟨pos + 1,rest⟩)
    else lebLoop width signed rest (pos + 1) res (i + 7)

def dioReadULEB128 : Read Nat := fun d => lebLoop 32 false d.rest d.pos 0 0
def dioReadU8LEB128 : Read Nat := fun d => lebLoop 64 false d.rest d.pos 0 0

/-- `(I4_T)n` -/
def toI4 (n : Nat) : Int := if n < 2 ^ 31 then n else n - 2 ^ 32

def dioReadSLEB128 : Read Int := fun d => do
  let (res,d) ← lebLoop 32 true d.rest d.pos 0 0
  pure (toI4 res,d)

def Section.address (sec : Section) (pos value : Nat) : Nat := (sec.relocate pos value).1 % 256 ^ sec.addressSize

/-- The address, and the index of a section or 0. -/
def dioReadAddress (sec : Section) : Read (Nat × Nat) := do
  let pos ← dioGetPos
  if sec.addressSize = 2 ∨ sec.addressSize = 4 ∨ sec.addressSize = 8 then
    let value ← dioReadUint sec sec.addressSize
    pure (sec.address pos value,(sec.relocate pos value).2.getD 0)
  else fail (.invDwarf "Invalid data size")

def stringLoop (name : List UInt8) : List UInt8 → Nat → Except Failure (Option (List UInt8) × Dio)
  | [], _ => .error .eof
  | byte :: rest, pos =>
    if byte = 0 then .ok (if name = [] then none else some name,⟨pos + 1,rest⟩)
    else stringLoop (name ++ [byte]) rest (pos + 1)

/-- `NULL` for an empty string. -/
def dioReadString : Read (Option (List UInt8)) := fun d => stringLoop [] d.rest d.pos

structure FileInfo where
  name : Option (List UInt8)
  dir : Option (List UInt8)
  modTime : Nat
  size : Nat
  areaCnt : Nat
  deriving DecidableEq, Repr

def LINE_IsStmt : UInt8 := 0x01
def LINE_BasicBlock : UInt8 := 0x02
def LINE_PrologueEnd : UInt8 := 0x04
def LINE_EpilogueBegin : UInt8 := 0x08
def LINE_EndSequence : UInt8 := 0x10

/-- `artificial` marks the entries that `add_state` makes itself. -/
structure LineNumbersState where
  address : Nat
  sect : Nat
  file : Nat
  line : Nat
  column : Nat
  flags : UInt8
  isa : Nat
  opIndex : Nat
  discriminator : Nat
  artificial : Bool
  deriving DecidableEq, Repr

structure CompUnit where
  lineInfoOffs : Nat
  dir : Option (List UInt8)
  dirs : List (List UInt8)
  files : List FileInfo
  states : List LineNumbersState
  deriving DecidableEq, Repr

/-- The header of a table, from `min_instruction_length` to `opcode_size`. -/
structure Header where
  minInstructionLength : Nat
  maxOpsPerInstruction : Nat
  isStmtDefault : Bool
  lineBase : Int
  lineRange : Nat
  opcodeBase : Nat
  opcodeSize : List UInt8
  deriving DecidableEq, Repr

def addDir (unit : CompUnit) (name : List UInt8) : CompUnit := { unit with dirs := unit.dirs ++ [name] }

def addFile (unit : CompUnit) (file : FileInfo) : CompUnit :=
  { unit with files := unit.files ++ [{ file with dir := file.dir <|> unit.dir }] }

/-- `mAreaCnt++` -/
def FileInfo.counted (file : FileInfo) : FileInfo := { file with areaCnt := (file.areaCnt + 1) % 2 ^ 32 }

def pushState (unit : CompUnit) (state : LineNumbersState) : CompUnit := { unit with
  files := unit.files.modify state.file FileInfo.counted
  states := unit.states ++ [state] }

def firstLine (state : LineNumbersState) : LineNumbersState :=
  { state with line := 1, column := 0, flags := 0, isa := 0, opIndex := 0, discriminator := 0, artificial := true }

/-- The inner call for the artificial entry finds a count of 1. -/
def addState (unit : CompUnit) (state : LineNumbersState) : CompUnit :=
  match unit.files[state.file]? with
  | none => unit
  | some file => if file.areaCnt = 0 then pushState (pushState unit (firstLine state)) state else pushState unit state

/-- What the loop over the opcodes changes. -/
structure Loader where
  unit : CompUnit
  state : LineNumbersState
  deriving DecidableEq, Repr

def startState (header : Header) : LineNumbersState where
  address := 0
  sect := 0
  file := 1
  line := 1
  column := 0
  flags := if header.isStmtDefault then LINE_IsStmt else 0
  isa := 0
  opIndex := 0
  discriminator := 0
  artificial := false

namespace Loader

def add (l : Loader) : Loader := { l with unit := addState l.unit l.state }

/-- `n` is converted to the type of `mLine`. -/
def advanceLine (l : Loader) (n : Int) : Loader := { l with state.line := ((l.state.line + n) % 2 ^ 32).toNat }

def advanceAddress (l : Loader) (n : Nat) : Loader := { l with state.address := (l.state.address + n) % 2 ^ 64 }

def clearFlags (l : Loader) : Loader :=
  { l with state.flags := l.state.flags &&& ~~~(LINE_BasicBlock ||| LINE_PrologueEnd ||| LINE_EpilogueBegin) }

def setFlag (l : Loader) (flag : UInt8) : Loader := { l with state.flags := l.state.flags ||| flag }

def advanceSpecial (header : Header) (l : Loader) (opcode : Nat) : Loader :=
  let adjusted := opcode - header.opcodeBase
  let opAdvance := adjusted / header.lineRange
  let ops := l.state.opIndex + opAdvance
  let l := l.advanceLine ((adjusted % header.lineRange : Nat) + header.lineBase)
  let l := l.advanceAddress (ops / header.maxOpsPerInstruction * header.minInstructionLength)
  { l with state.opIndex := ops % header.maxOpsPerInstruction }

def special (header : Header) (l : Loader) (opcode : Nat) : Loader :=
  let l := (l.advanceSpecial header opcode).add.clearFlags
  { l with state.discriminator := 0 }

def defineFile (l : Loader) (file : FileInfo) : Loader := { l with unit := addFile l.unit file }

def endSequence (header : Header) (l : Loader) : Loader := { (l.setFlag LINE_EndSequence).add with state := startState header }

def setAddress (l : Loader) (address : Nat × Nat) : Loader :=
  { l with state.address := address.1, state.sect := address.2 }

def setDiscriminator (l : Loader) (n : Nat) : Loader := { l with state.discriminator := n % 2 ^ 8 }

def copy (l : Loader) : Loader := l.add.clearFlags

def advancePc (header : Header) (l : Loader) (n : Nat) : Loader :=
  l.advanceAddress (n * header.minInstructionLength % 2 ^ 64)

def setFile (l : Loader) (n : Nat) : Loader := { l with state.file := n }

def setColumn (l : Loader) (n : Nat) : Loader := { l with state.column := n % 2 ^ 16 }

def negateStmt (l : Loader) : Loader := { l with state.flags := l.state.flags ^^^ LINE_IsStmt }

def constAddPc (header : Header) (l : Loader) : Loader :=
  l.advanceAddress ((255 - header.opcodeBase) / header.lineRange * header.minInstructionLength)

def setIsa (l : Loader) (n : Nat) : Loader := { l with state.isa := n % 2 ^ 8 }

end Loader

def fileInfo (unit : CompUnit) (name : Option (List UInt8)) (dir modTime size : Nat) : FileInfo :=
  ⟨name,if dir > 0 ∧ dir ≤ unit.dirs.length then unit.dirs[dir - 1]? else none,modTime,size,0⟩

/-- Behind the name of a file. -/
def readFileInfo (unit : CompUnit) (name : Option (List UInt8)) : Read FileInfo := do
  let dir ← dioReadULEB128
  let modTime ← dioReadULEB128
  let size ← dioReadULEB128
  pure (fileInfo unit name dir modTime size)

def standardOpcode (sec : Section) (header : Header) (l : Loader) (opcode : Nat) : Read Loader :=
  match opcode with
  | 1 => pure l.copy
  | 2 => do
    let n ← dioReadU8LEB128
    pure (l.advancePc header n)
  | 3 => do
    let n ← dioReadSLEB128
    pure (l.advanceLine n)
  | 4 => do
    let n ← dioReadULEB128
    pure (l.setFile n)
  | 5 => do
    let n ← dioReadULEB128
    pure (l.setColumn n)
  | 6 => pure l.negateStmt
  | 7 => pure (l.setFlag LINE_BasicBlock)
  | 8 => if header.lineRange = 0 then fail .undefined else pure (l.constAddPc header)
  | 9 => do
    let n ← dioReadU2 sec
    pure (l.advanceAddress n)
  | 10 => pure (l.setFlag LINE_PrologueEnd)
  | 11 => pure (l.setFlag LINE_EpilogueBegin)
  | 12 => do
    let n ← dioReadULEB128
    pure (l.setIsa n)
  | _ => fail (.invDwarf "Invalid line info op code")

def extendedOpcode (sec : Section) (header : Header) (l : Loader) (opSize opcode : Nat) : Read Loader :=
  match opcode with
  | 1 => pure (l.endSequence header)
  | 2 => do
    let address ← dioReadAddress sec
    pure (l.setAddress address)
  | 3 => do
    let name ← dioReadString
    let file ← readFileInfo l.unit name
    pure (l.defineFile file)
  | 4 => do
    let n ← dioReadULEB128
    pure (l.setDiscriminator n)
  | _ => do
    dioSkip ((opSize + 2 ^ 32 - 1) % 2 ^ 32)
    pure l

/-- One round of the loop. -/
def runOpcode (sec : Section) (header : Header) (l : Loader) : Read Loader := do
  let opcode ← dioReadU1
  if opcode ≥ header.opcodeBase then
    if header.lineRange = 0 ∨ header.maxOpsPerInstruction = 0 then fail .undefined
    else pure (l.special header opcode)
  else if opcode = 0 then do
    let opSize ← dioReadULEB128
    let opPos ← dioGetPos
    let extended ← dioReadU1
    let l ← extendedOpcode sec header l opSize extended
    let pos ← dioGetPos
    if pos ≠ opPos + opSize then fail (.invDwarf "Invalid line info op size") else pure l
  else standardOpcode sec header l opcode

/-- Every round reads a byte, so that as many rounds as there are bytes are enough. -/
def runProgram (sec : Section) (header : Header) (stop : Nat) : Nat → Loader → Read Loader
  | 0, l => do
    let pos ← dioGetPos
    if pos < stop then fail .eof else pure l
  | rounds+1, l => do
    let pos ← dioGetPos
    if pos < stop then do
      let l ← runOpcode sec header l
      runProgram sec header stop rounds l
    else pure l

def readDirs : Nat → CompUnit → Read CompUnit
  | 0, _ => fail .eof
  | rounds+1, unit => do
    let name ← dioReadString
    match name with
    | none => pure unit
    | some name => readDirs rounds (addDir unit name)

def readFiles : Nat → CompUnit → Read CompUnit
  | 0, _ => fail .eof
  | rounds+1, unit => do
    let name ← dioReadString
    match name with
    | none => pure unit
    | some name => do
      let file ← readFileInfo unit (some name)
      readFiles rounds (addFile unit file)

/-- `(I1_T)n` -/
def toI1 (n : Nat) : Int := if n < 128 then n else n - 256

def dioLeft : Read Nat := fun d => .ok (d.rest.length,d)

/-- From `min_instruction_length` to `opcode_size`. With an opcode base of 0 the size wraps around. -/
def readHeader (version : Nat) : Read Header := do
  let minInstructionLength ← dioReadU1
  let maxOpsPerInstruction ← (if version ≥ 4 then dioReadU1 else pure 1 : Read Nat)
  let isStmtDefault ← dioReadU1
  let lineBase ← dioReadU1
  let lineRange ← dioReadU1
  let opcodeBase ← dioReadU1
  let opcodeSize ← dioRead ((opcodeBase + 2 ^ 32 - 1) % 2 ^ 32)
  if opcodeBase = 0 then fail .undefined
  else pure ⟨minInstructionLength,maxOpsPerInstruction,isStmtDefault ≠ 0,toI1 lineBase,lineRange,opcodeBase,opcodeSize⟩

/-- The directories and the files of the header. -/
def readNames (unit : CompUnit) : Read CompUnit := do
  let left ← dioLeft
  let unit ← readDirs left unit
  let left ← dioLeft
  readFiles left unit

def loadLineNumbersV2 (sec : Section) (unit : CompUnit) (unitSize : Nat) (dwarf64 : Bool) : Read CompUnit := do
  let version ← dioReadU2 sec
  if version < 2 ∨ version > 4 then fail (.invDwarf "Invalid line number info version")
  else do
    let headerSize ← (if dwarf64 then dioReadU8 sec else dioReadU4 sec : Read Nat)
    let headerPos ← dioGetPos
    let header ← readHeader version
    let unit' ← readNames unit
    let pos ← dioGetPos
    -- The second case allows for a length that is 12 too large.
    if headerPos + headerSize ≠ pos ∧ ¬(dwarf64 ∧ headerPos + headerSize = pos + 12) then
      fail (.invDwarf "Invalid line info header")
    else do
      let left ← dioLeft
      let l ← runProgram sec header (unit.lineInfoOffs + unitSize) left ⟨unit',startState header⟩
      pure l.unit

end Tcf.Dwarf
