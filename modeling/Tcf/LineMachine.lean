import Tcf.Base.Transducer
import Tcf.LineNumbers

/-! The state machine of the DWARF standard for line number programs, the form of a table, and what
keeps the loader from running a program in the same way. -/
namespace Tcf.Dwarf

open ByteNumbers

/-- The registers, which have no limits. -/
structure Registers where
  address : Nat
  opIndex : Nat
  file : Nat
  line : Int
  column : Nat
  isStmt : Bool
  basicBlock : Bool
  endSequence : Bool
  prologueEnd : Bool
  epilogueBegin : Bool
  isa : Nat
  discriminator : Nat
  deriving DecidableEq, Repr

inductive Standard where
  | copy
  | advancePc (operation : Leb)
  | advanceLine (line : Leb)
  | setFile (file : Leb)
  | setColumn (column : Leb)
  | negateStmt
  | setBasicBlock
  | constAddPc
  | fixedAdvancePc (bytes : Nat)
  | setPrologueEnd
  | setEpilogueBegin
  | setIsa (isa : Leb)
  deriving DecidableEq, Repr

structure FileEntry where
  name : List UInt8
  dir : Leb
  modTime : Leb
  size : Leb
  deriving DecidableEq, Repr

inductive Extended where
  | endSequence
  | setAddress (value : Nat)
  | defineFile (file : FileEntry)
  | setDiscriminator (discriminator : Leb)
  | other (opcode : UInt8) (data : List UInt8)
  deriving DecidableEq, Repr

/-- `unknown` is for standard opcodes that only have a number of operands. -/
inductive Instruction where
  | special (opcode : UInt8)
  | standard (op : Standard)
  | unknown (opcode : UInt8) (operands : List Leb)
  | extended (size : Leb) (op : Extended)
  deriving DecidableEq, Repr

namespace Standard

def opcode : Standard → Nat
  | copy => 1
  | advancePc _ => 2
  | advanceLine _ => 3
  | setFile _ => 4
  | setColumn _ => 5
  | negateStmt => 6
  | setBasicBlock => 7
  | constAddPc => 8
  | fixedAdvancePc _ => 9
  | setPrologueEnd => 10
  | setEpilogueBegin => 11
  | setIsa _ => 12

def operands (sec : Section) : Standard → List UInt8
  | advancePc n | advanceLine n | setFile n | setColumn n | setIsa n => n.bytes
  | fixedAdvancePc n => bytesOf sec.bigEndian 2 n
  | copy | negateStmt | setBasicBlock | constAddPc | setPrologueEnd | setEpilogueBegin => []

end Standard

def FileEntry.bytes (file : FileEntry) : List UInt8 := file.name ++ 0 :: (file.dir.bytes ++ file.modTime.bytes ++ file.size.bytes)

namespace Extended

def opcode : Extended → UInt8
  | endSequence => 1
  | setAddress _ => 2
  | defineFile _ => 3
  | setDiscriminator _ => 4
  | other opcode _ => opcode

def operands (sec : Section) : Extended → List UInt8
  | endSequence => []
  | setAddress value => bytesOf sec.bigEndian sec.addressSize value
  | defineFile file => file.bytes
  | setDiscriminator n => n.bytes
  | other _ data => data

end Extended

namespace Instruction

def bytes (sec : Section) : Instruction → List UInt8
  | special opcode => [opcode]
  | standard op => UInt8.ofNat op.opcode :: op.operands sec
  | unknown opcode operands => opcode :: operands.flatMap Leb.bytes
  | extended size op => 0 :: (size.bytes ++ op.opcode :: op.operands sec)

end Instruction

def FileEntry.Named (file : FileEntry) : Prop := 0 ∉ file.name

instance (file : FileEntry) : Decidable file.Named := inferInstanceAs (Decidable (0 ∉ file.name))

def Standard.Fits : Standard → Prop
  | .fixedAdvancePc n => n < 256 ^ 2
  | _ => True

instance : ∀ op : Standard, Decidable op.Fits
  | .fixedAdvancePc n => inferInstanceAs (Decidable (n < 256 ^ 2))
  | .copy | .advancePc _ | .advanceLine _ | .setFile _ | .setColumn _ | .negateStmt | .setBasicBlock | .constAddPc
  | .setPrologueEnd | .setEpilogueBegin | .setIsa _ => isTrue trivial

def Extended.Fits (sec : Section) : Extended → Prop
  | .setAddress value => value < 256 ^ sec.addressSize
  | .defineFile file => file.Named
  | .other opcode _ => opcode ∉ ([1,2,3,4] : List UInt8)
  | _ => True

instance (sec : Section) : ∀ op : Extended, Decidable (op.Fits sec)
  | .setAddress value => inferInstanceAs (Decidable (value < 256 ^ sec.addressSize))
  | .defineFile file => inferInstanceAs (Decidable file.Named)
  | .other opcode _ => inferInstanceAs (Decidable (opcode ∉ ([1,2,3,4] : List UInt8)))
  | .endSequence | .setDiscriminator _ => isTrue trivial

def Instruction.WellFormed (sec : Section) (header : Header) : Instruction → Prop
  | .special opcode => header.opcodeBase ≤ opcode.toNat
  | .standard op => op.opcode < header.opcodeBase ∧ op.Fits
  | .unknown opcode operands => 13 ≤ opcode.toNat ∧ opcode.toNat < header.opcodeBase ∧
      header.opcodeSize[opcode.toNat - 1]? = some (UInt8.ofNat operands.length) ∧ operands.length < 256
  | .extended size op => size.unsigned = (op.operands sec).length + 1 ∧ op.Fits sec

instance (sec : Section) (header : Header) : ∀ i : Instruction, Decidable (i.WellFormed sec header)
  | .special opcode => inferInstanceAs (Decidable (header.opcodeBase ≤ opcode.toNat))
  | .standard op => inferInstanceAs (Decidable (op.opcode < header.opcodeBase ∧ op.Fits))
  | .unknown opcode operands => inferInstanceAs (Decidable (13 ≤ opcode.toNat ∧ opcode.toNat < header.opcodeBase ∧
      header.opcodeSize[opcode.toNat - 1]? = some (UInt8.ofNat operands.length) ∧ operands.length < 256))
  | .extended size op => inferInstanceAs (Decidable (size.unsigned = (op.operands sec).length + 1 ∧ op.Fits sec))

/-- The registers, the number of files, and the position in the section. -/
structure Machine where
  registers : Registers
  files : Nat
  pos : Nat
  deriving DecidableEq, Repr

namespace Registers

def start (header : Header) : Registers :=
  ⟨0,0,1,1,0,header.isStmtDefault,false,false,false,false,0,0⟩

/-- `operation` more operations, of which `maxOpsPerInstruction` make an instruction. -/
def advance (header : Header) (operation : Nat) (r : Registers) : Registers := { r with
  address := r.address + header.minInstructionLength * ((r.opIndex + operation) / header.maxOpsPerInstruction)
  opIndex := (r.opIndex + operation) % header.maxOpsPerInstruction }

def appended (r : Registers) : Registers :=
  { r with basicBlock := false, prologueEnd := false, epilogueBegin := false, discriminator := 0 }

def special (header : Header) (opcode : Nat) (r : Registers) : Registers :=
  let adjusted := opcode - header.opcodeBase
  let r := r.advance header (adjusted / header.lineRange)
  { r with line := r.line + header.lineBase + (adjusted % header.lineRange : Nat) }

end Registers

def Standard.run (header : Header) (r : Registers) : Standard → Registers
  | copy => r.appended
  | advancePc operation => r.advance header operation.unsigned
  | advanceLine n => { r with line := r.line + n.signed }
  | setFile n => { r with file := n.unsigned }
  | setColumn n => { r with column := n.unsigned }
  | negateStmt => { r with isStmt := !r.isStmt }
  | setBasicBlock => { r with basicBlock := true }
  | constAddPc => r.advance header ((255 - header.opcodeBase) / header.lineRange)
  | fixedAdvancePc n => { r with address := r.address + n, opIndex := 0 }
  | setPrologueEnd => { r with prologueEnd := true }
  | setEpilogueBegin => { r with epilogueBegin := true }
  | setIsa n => { r with isa := n.unsigned }

def Extended.run (sec : Section) (header : Header) (pos : Nat) (r : Registers) : Extended → Registers
  | endSequence => Registers.start header
  | setAddress value => { r with address := sec.address pos value, opIndex := 0 }
  | setDiscriminator n => { r with discriminator := n.unsigned }
  | defineFile _ | other _ _ => r

/-- The address of an instruction may be relocated; it is behind the opcode and the size. -/
def Instruction.run (sec : Section) (header : Header) (pos : Nat) (r : Registers) : Instruction → Registers
  | special opcode => (r.special header opcode.toNat).appended
  | standard op => op.run header r
  | unknown _ _ => r
  | extended size op => op.run sec header (pos + size.length + 2) r

/-- The row that an instruction appends to the matrix. -/
def Instruction.row (header : Header) (r : Registers) : Instruction → Option Registers
  | special opcode => some (r.special header opcode.toNat)
  | standard .copy => some r
  | extended _ .endSequence => some { r with endSequence := true }
  | standard _ | unknown _ _ | extended _ _ => none

def Instruction.newFiles : Instruction → Nat
  | extended _ (.defineFile _) => 1
  | _ => 0

/-- Rows for a file that is not there are left out. -/
def dwarf (sec : Section) (header : Header) : Transducer Machine Instruction Registers where
  step m i := (⟨i.run sec header m.pos m.registers,m.files + i.newFiles,m.pos + (i.bytes sec).length⟩,
    (i.row header m.registers).filter fun r => r.file < m.files)

/-- How many operations the loader counts too much, and a discriminator that it did not clear. -/
structure Drift where
  ops : Nat
  discriminator : Nat
  deriving DecidableEq, Repr

def drift (header : Header) (m : Machine) (d : Drift) : Instruction → Drift
  | .special _ => { d with discriminator := 0 }
  | .standard .copy => { d with discriminator := d.discriminator + m.registers.discriminator }
  | .standard (.advancePc n) => { d with ops := d.ops + n.unsigned * (header.maxOpsPerInstruction - 1) }
  | .standard .constAddPc =>
    { d with ops := d.ops + (255 - header.opcodeBase) / header.lineRange * (header.maxOpsPerInstruction - 1) }
  | .standard (.fixedAdvancePc _) => { d with ops := d.ops + m.registers.opIndex }
  | .extended _ .endSequence => ⟨0,0⟩
  | .extended _ (.setAddress _) => { d with ops := (m.registers.opIndex + d.ops) % header.maxOpsPerInstruction }
  | .extended _ (.setDiscriminator _) => { d with discriminator := 0 }
  | _ => d

/-- The registers fit into the fields of the loader, and nothing of the drift is seen in them. -/
structure Registers.Shown (header : Header) (d : Drift) (r : Registers) : Prop where
  file : r.file < 2 ^ 32
  line : 0 ≤ r.line ∧ r.line < 2 ^ 32
  column : r.column < 2 ^ 16
  isa : r.isa < 2 ^ 8
  discriminator : r.discriminator < 2 ^ 8 ∧ d.discriminator % 2 ^ 8 = 0
  address : r.address < 2 ^ 64 ∧ d.ops / header.maxOpsPerInstruction * header.minInstructionLength % 2 ^ 64 = 0
  opIndex : d.ops % header.maxOpsPerInstruction = 0

instance (header : Header) (d : Drift) (r : Registers) : Decidable (r.Shown header d) :=
  decidable_of_iff (r.file < 2 ^ 32 ∧ (0 ≤ r.line ∧ r.line < 2 ^ 32) ∧ r.column < 2 ^ 16 ∧ r.isa < 2 ^ 8 ∧
      (r.discriminator < 2 ^ 8 ∧ d.discriminator % 2 ^ 8 = 0) ∧
      (r.address < 2 ^ 64 ∧ d.ops / header.maxOpsPerInstruction * header.minInstructionLength % 2 ^ 64 = 0) ∧
      d.ops % header.maxOpsPerInstruction = 0)
    ⟨fun ⟨file,line,column,isa,discriminator,address,opIndex⟩ => ⟨file,line,column,isa,discriminator,address,opIndex⟩,
      fun ⟨file,line,column,isa,discriminator,address,opIndex⟩ => ⟨file,line,column,isa,discriminator,address,opIndex⟩⟩

/-- Of a row that the loader appends, as its file is in the table or comes into it by wrapping around. -/
def ShowsRow (header : Header) (m : Machine) (d : Drift) (i : Instruction) : Prop :=
  match i.row header m.registers with
  | none => True
  | some r => r.file % 2 ^ 32 < m.files → r.Shown header d

instance (header : Header) (m : Machine) (d : Drift) (i : Instruction) : Decidable (ShowsRow header m d i) := by
  unfold ShowsRow
  split
  · exact isTrue trivial
  · infer_instance

/-- No shift in a loop of `width` bits is undefined. -/
def Short (width : Nat) (leb : Leb) : Prop := 7 * leb.groups.length < width

instance (width : Nat) (leb : Leb) : Decidable (Short width leb) := inferInstanceAs (Decidable (7 * leb.groups.length < width))

def FileEntry.Readable (file : FileEntry) : Prop := Short 32 file.dir ∧ Short 32 file.modTime ∧ Short 32 file.size

instance (file : FileEntry) : Decidable file.Readable :=
  inferInstanceAs (Decidable (Short 32 file.dir ∧ Short 32 file.modTime ∧ Short 32 file.size))

def Standard.Readable : Standard → Prop
  | .advancePc n => Short 64 n
  | .advanceLine n | .setFile n | .setColumn n | .setIsa n => Short 32 n
  | _ => True

instance : ∀ op : Standard, Decidable op.Readable
  | .advancePc n => inferInstanceAs (Decidable (Short 64 n))
  | .advanceLine n | .setFile n | .setColumn n | .setIsa n => inferInstanceAs (Decidable (Short 32 n))
  | .copy | .negateStmt | .setBasicBlock | .constAddPc | .fixedAdvancePc _ | .setPrologueEnd | .setEpilogueBegin => isTrue trivial

def Extended.Readable : Extended → Prop
  | .defineFile file => file.Readable
  | .setDiscriminator n => Short 32 n
  | _ => True

instance : ∀ op : Extended, Decidable op.Readable
  | .defineFile file => inferInstanceAs (Decidable file.Readable)
  | .setDiscriminator n => inferInstanceAs (Decidable (Short 32 n))
  | .endSequence | .setAddress _ | .other _ _ => isTrue trivial

/-- The size of an extended instruction has 32 bits. -/
def Instruction.Sized : Instruction → Prop
  | .extended size _ => size.unsigned < 2 ^ 32
  | _ => True

instance : ∀ i : Instruction, Decidable i.Sized
  | .extended size _ => inferInstanceAs (Decidable (size.unsigned < 2 ^ 32))
  | .special _ | .standard _ | .unknown _ _ => isTrue trivial

/-- The loader knows the opcode, and no shift is undefined. -/
def Instruction.Readable : Instruction → Prop
  | .special _ => True
  | .standard op => op.Readable
  | .unknown _ _ => False
  | .extended size op => Short 32 size ∧ op.Readable

instance : ∀ i : Instruction, Decidable i.Readable
  | .special _ => isTrue trivial
  | .standard op => inferInstanceAs (Decidable op.Readable)
  | .unknown _ _ => isFalse id
  | .extended size op => inferInstanceAs (Decidable (Short 32 size ∧ op.Readable))

/-- A table of version 2, 3 or 4. `default_is_stmt` may be any byte. -/
structure Table where
  version : Nat
  dwarf64 : Bool
  defaultIsStmt : UInt8
  header : Header
  directories : List (List UInt8)
  fileNames : List FileEntry
  program : List Instruction
  deriving DecidableEq, Repr

namespace Table

def names (table : Table) : List UInt8 :=
  table.directories.flatMap (fun name => name ++ [0]) ++ 0 :: (table.fileNames.flatMap FileEntry.bytes ++ [0])

/-- What is behind the length of the header. -/
def headerBytes (table : Table) : List UInt8 :=
  UInt8.ofNat table.header.minInstructionLength ::
    ((if table.version ≥ 4 then [UInt8.ofNat table.header.maxOpsPerInstruction] else []) ++
      table.defaultIsStmt :: UInt8.ofNat (table.header.lineBase % 256).toNat :: UInt8.ofNat table.header.lineRange ::
        UInt8.ofNat table.header.opcodeBase :: (table.header.opcodeSize ++ table.names))

def lengthSize (table : Table) : Nat := if table.dwarf64 then 8 else 4

def code (sec : Section) (table : Table) : List UInt8 := table.program.flatMap (Instruction.bytes sec)

def bytes (sec : Section) (table : Table) : List UInt8 :=
  bytesOf sec.bigEndian 2 table.version ++ (bytesOf sec.bigEndian table.lengthSize table.headerBytes.length ++
    (table.headerBytes ++ table.code sec))

structure WellFormed (sec : Section) (table : Table) : Prop where
  addressSize : sec.addressSize ∈ [2,4,8]
  version : 2 ≤ table.version ∧ table.version ≤ 4
  minInstructionLength : table.header.minInstructionLength < 256
  maxOps : 0 < table.header.maxOpsPerInstruction ∧ table.header.maxOpsPerInstruction < 256
  oneOp : table.version < 4 → table.header.maxOpsPerInstruction = 1
  isStmt : table.header.isStmtDefault = decide (table.defaultIsStmt ≠ 0)
  lineBase : -128 ≤ table.header.lineBase ∧ table.header.lineBase < 128
  lineRange : 0 < table.header.lineRange ∧ table.header.lineRange < 256
  opcodeBase : 0 < table.header.opcodeBase ∧ table.header.opcodeBase < 256
  opcodeSize : table.header.opcodeSize.length + 1 = table.header.opcodeBase
  length : table.headerBytes.length < 256 ^ table.lengthSize
  directories : ∀ name ∈ table.directories, name ≠ [] ∧ 0 ∉ name
  fileNames : ∀ file ∈ table.fileNames, file.name ≠ [] ∧ file.Named
  program : ∀ i ∈ table.program, i.WellFormed sec table.header

/-- The rows of the state machine. `files` are those that are known before the table is read. -/
def rows (sec : Section) (table : Table) (files pos : Nat) : List Registers :=
  (dwarf sec table.header).output ⟨Registers.start table.header,files + table.fileNames.length,
    pos + 2 + table.lengthSize + table.headerBytes.length⟩ table.program

/-- What the program has to meet for the loader to run it in the same way. -/
structure Faithful (sec : Section) (table : Table) (files pos : Nat) : Prop where
  fileNames : ∀ file ∈ table.fileNames, file.Readable
  readable : ∀ i ∈ table.program, i.Readable
  sized : ∀ i ∈ table.program, i.Sized
  shown : (dwarf sec table.header).Along (drift table.header) (ShowsRow table.header)
    ⟨Registers.start table.header,files + table.fileNames.length,pos + 2 + table.lengthSize + table.headerBytes.length⟩ ⟨0,0⟩
    table.program

end Table

/-- The registers that an entry of the loader shows. -/
def LineNumbersState.row (state : LineNumbersState) : Registers where
  address := state.address
  opIndex := state.opIndex
  file := state.file
  line := state.line
  column := state.column
  isStmt := state.flags &&& LINE_IsStmt ≠ 0
  basicBlock := state.flags &&& LINE_BasicBlock ≠ 0
  endSequence := state.flags &&& LINE_EndSequence ≠ 0
  prologueEnd := state.flags &&& LINE_PrologueEnd ≠ 0
  epilogueBegin := state.flags &&& LINE_EpilogueBegin ≠ 0
  isa := state.isa
  discriminator := state.discriminator

/-- The rows of a unit, without the artificial entries. -/
def CompUnit.rows (unit : CompUnit) : List Registers :=
  (unit.states.filter fun state => !state.artificial).map LineNumbersState.row

/-- The loader reads the table, and appends exactly the rows of the state machine. -/
def Executes (sec : Section) (table : Table) (unit : CompUnit) (unitSize pos : Nat) (after : List UInt8) : Prop :=
  ∃ next, loadLineNumbersV2 sec unit unitSize table.dwarf64 ⟨pos,table.bytes sec ++ after⟩ =
      .ok (next,⟨pos + (table.bytes sec).length,after⟩) ∧
    next.rows = unit.rows ++ table.rows sec unit.files.length pos

instance (sec : Section) (table : Table) (unit : CompUnit) (unitSize pos : Nat) (after : List UInt8) :
    Decidable (Executes sec table unit unitSize pos after) :=
  match run : loadLineNumbersV2 sec unit unitSize table.dwarf64 ⟨pos,table.bytes sec ++ after⟩ with
  | .error _ => isFalse fun ⟨_,ok,_⟩ => by cases run.symm.trans ok
  | .ok (next,d) => decidable_of_iff (d = ⟨pos + (table.bytes sec).length,after⟩ ∧
      next.rows = unit.rows ++ table.rows sec unit.files.length pos)
    ⟨fun ⟨place,rows⟩ => ⟨next,run.trans (by rw [place]),rows⟩,fun ⟨_,ok,rows⟩ => by cases run.symm.trans ok; exact ⟨rfl,rows⟩⟩

end Tcf.Dwarf
