import Tcf.CodeAreas

/-! Locations of symbols and descriptions of stack frames: the agent writes them as commands with
arguments, the proxy reads them through arrays that all its replies share. -/
namespace Tcf.Locations

open Framing Json CodeAreas

/-- The cases of the switches in `write_commands` and `read_location_command`. -/
inductive Form where
  | plain
  | num
  | argNo
  | reg
  | mem
  | loc
  | piece
  deriving DecidableEq, Repr

def SFT_CMD_NUMBER : BitVec 32 := 1
def SFT_CMD_RD_REG : BitVec 32 := 2
def SFT_CMD_RD_MEM : BitVec 32 := 4
def SFT_CMD_ARG : BitVec 32 := 19
def SFT_CMD_LOCATION : BitVec 32 := 20
def SFT_CMD_WR_REG : BitVec 32 := 22
def SFT_CMD_WR_MEM : BitVec 32 := 23
def SFT_CMD_PIECE : BitVec 32 := 24
def SFT_CMD_LOAD : BitVec 32 := 25
def SFT_CMD_SET_ARG : BitVec 32 := 27

def form (cmd : BitVec 32) : Form :=
  if cmd = SFT_CMD_NUMBER then .num
  else if cmd = SFT_CMD_ARG ∨ cmd = SFT_CMD_SET_ARG then .argNo
  else if cmd = SFT_CMD_RD_REG ∨ cmd = SFT_CMD_WR_REG then .reg
  else if cmd = SFT_CMD_RD_MEM ∨ cmd = SFT_CMD_WR_MEM ∨ cmd = SFT_CMD_LOAD then .mem
  else if cmd = SFT_CMD_LOCATION then .loc
  else if cmd = SFT_CMD_PIECE then .piece
  else .plain

structure RegisterIdScope where
  machine : BitVec 16
  osAbi : BitVec 8
  fpAbi : BitVec 8
  elf64 : Bool
  bigEndian : Bool
  idType : BitVec 8
  deriving DecidableEq, Repr

/-- `args.loc`; `code` is `code_addr` with `code_size` bytes, or NULL. -/
structure DwarfLocation where
  regIdScope : RegisterIdScope
  code : Option (List UInt8)
  addrSize : BitVec 64
  deriving DecidableEq, Repr

structure MemArgs where
  size : BitVec 64
  bigEndian : Bool
  deriving DecidableEq, Repr

/-- `args.piece`, over what stands for a register. -/
structure Piece (ρ : Type) where
  value : Option (List UInt8)
  reg : Option ρ
  bitOffs : BitVec 32
  bitSize : BitVec 32
  deriving DecidableEq, Repr

/-- The part of the union `args` that a command uses. -/
def Args (ρ : Type) : Form → Type
  | .plain => Unit
  | .num => BitVec 64
  | .argNo => BitVec 32
  | .reg => Option ρ
  | .mem => MemArgs
  | .loc => DwarfLocation
  | .piece => Piece ρ

instance decideArgs {ρ : Type} [DecidableEq ρ] : ∀ f, DecidableEq (Args ρ f)
  | .plain => inferInstanceAs (DecidableEq Unit)
  | .num => inferInstanceAs (DecidableEq (BitVec 64))
  | .argNo => inferInstanceAs (DecidableEq (BitVec 32))
  | .reg => inferInstanceAs (DecidableEq (Option ρ))
  | .mem => inferInstanceAs (DecidableEq MemArgs)
  | .loc => inferInstanceAs (DecidableEq DwarfLocation)
  | .piece => inferInstanceAs (DecidableEq (Piece ρ))

structure LocationExpressionCommand (ρ : Type) where
  cmd : BitVec 32
  args : Args ρ (form cmd)
  deriving DecidableEq

structure DiscriminantRange where
  x : BitVec 64
  y : BitVec 64
  deriving DecidableEq, Repr

structure LocationInfo (ρ : Type) where
  codeAddr : BitVec 64
  codeSize : BitVec 64
  bigEndian : Bool
  argsCnt : BitVec 32
  valueCmds : Option (List (LocationExpressionCommand ρ))
  discrLst : List DiscriminantRange
  deriving DecidableEq

/-- `StackFrameRegisterLocation` -/
structure RegisterLocation (ρ : Type) where
  reg : ρ
  cmds : List (LocationExpressionCommand ρ)
  deriving DecidableEq

/-- `StackFrameInlinedSubroutine`, over what stands for a string. -/
structure InlinedSubroutine (τ : Type) where
  area : CodeArea τ
  funcId : Option τ
  deriving DecidableEq, Repr

/-- The register of `fp` is NULL in both programs. -/
structure StackTracingInfo (ρ τ : Type) where
  addr : BitVec 64
  size : BitVec 64
  fp : Option (List (LocationExpressionCommand ρ))
  regs : Option (List (RegisterLocation ρ))
  subs : Option (List (InlinedSubroutine τ))
  deriving DecidableEq

def LocationInfo.zero {ρ : Type} : LocationInfo ρ := ⟨0,0,false,0,none,[]⟩
def StackTracingInfo.zero {ρ τ : Type} : StackTracingInfo ρ τ := ⟨0,0,none,none,none⟩

/-- The registers of a context and their IDs, which `snprintf` makes in 256 bytes. -/
structure Registers (ρ : Type) where
  register2id : ρ → List UInt8
  id2register : List UInt8 → Except Nat ρ
  short : ∀ reg, (register2id reg).length < 256
  nulFree : ∀ reg, 0 ∉ register2id reg
  named : ∀ reg, register2id reg ≠ []

def Registers.RoundTrip {ρ : Type} (r : Registers ρ) : Prop := ∀ reg, r.id2register (r.register2id reg) = .ok reg

section Writer

variable {σ ρ : Type} (S : OutStream σ) (r : Registers ρ) (m : Memory)

def writeRegister (reg : ρ) (s : σ) : Code σ := jsonWriteString S s (r.register2id reg ++ [0])

/-- `json_write_binary` of the first bytes of a block. -/
def writeFirst (size : Nat) (value : List UInt8) (s : σ) : Code σ :=
  if size ≤ value.length then jsonWriteBinary S s (value.take size) else .error .fault

def writeScope (loc : DwarfLocation) (s : σ) : Code σ := do
  let s ← S.writeByte s 0x7b
  let s ← writeMember S "Machine" (jsonWriteLong S · loc.regIdScope.machine.toNat) s
  let s ← S.writeByte s comma
  let s ← writeIf (loc.regIdScope.osAbi ≠ 0) (fun s => do
    let s ← writeMember S "ABI" (jsonWriteLong S · loc.regIdScope.osAbi.toNat) s
    S.writeByte s comma) s
  let s ← writeIf (loc.regIdScope.fpAbi ≠ 0) (fun s => do
    let s ← writeMember S "FPABI" (jsonWriteLong S · loc.regIdScope.fpAbi.toNat) s
    S.writeByte s comma) s
  let s ← writeMember S "ELF64" (jsonWriteBoolean S · loc.regIdScope.elf64) s
  let s ← S.writeByte s comma
  let s ← writeMember S "RegIdType" (jsonWriteLong S · loc.regIdScope.idType.toNat) s
  let s ← S.writeByte s comma
  let s ← writeMember S "AddrSize" (jsonWriteLong S · loc.addrSize.toInt) s
  let s ← S.writeByte s comma
  let s ← writeMember S "BigEndian" (jsonWriteBoolean S · loc.regIdScope.bigEndian) s
  S.writeByte s 0x7d

/-- `null` for a NULL pointer. -/
def writeOrNull {α : Type} (write : α → σ → Code σ) (value : Option α) (s : σ) : Code σ :=
  match value with
  | none => writeString S s (literal "null")
  | some x => write x s

def writeArgs : (f : Form) → Args ρ f → σ → Code σ
  | .plain, _, s => pure s
  | .num, num, s => do
    let s ← S.writeByte s comma
    jsonWriteLong S s (BitVec.toInt num)
  | .argNo, no, s => do
    let s ← S.writeByte s comma
    jsonWriteUlong S s (BitVec.toNat no)
  | .reg, reg, s => do
    let s ← S.writeByte s comma
    match reg with
    | none => .error .assertion
    | some reg => writeRegister S r reg s
  | .mem, mem, s => do
    let s ← S.writeByte s comma
    let s ← jsonWriteUlong S s (MemArgs.size mem).toNat
    let s ← S.writeByte s comma
    jsonWriteBoolean S s (MemArgs.bigEndian mem)
  | .loc, loc, s => do
    let s ← S.writeByte s comma
    let s ← writeOrNull S (fun code s => jsonWriteBinary S s code) (DwarfLocation.code loc) s
    let s ← S.writeByte s comma
    writeScope S loc s
  | .piece, p, s => do
    let s ← S.writeByte s comma
    let s ← jsonWriteUlong S s (Piece.bitOffs p).toNat
    let s ← S.writeByte s comma
    let s ← jsonWriteUlong S s (Piece.bitSize p).toNat
    let s ← S.writeByte s comma
    let s ← writeOrNull S (writeRegister S r) (Piece.reg p) s
    let s ← S.writeByte s comma
    writeOrNull S (writeFirst S ((Piece.bitSize p + 7).toNat / 8)) (Piece.value p) s

def writeCommand (cmd : LocationExpressionCommand ρ) (s : σ) : Code σ := do
  let s ← jsonWriteLong S s cmd.cmd.toInt
  writeArgs S r (form cmd.cmd) cmd.args s

/-- The loops over arrays: `i` counts what is in front. -/
def writeItems {α : Type} (write : α → σ → Code σ) : Nat → List α → σ → Code σ
  | _, [], s => pure s
  | i, x :: xs, s => do
    let s ← writeIf (i > 0) (S.writeByte · comma) s
    let s ← write x s
    writeItems write (i + 1) xs s

def inBrackets (opening close : UInt8) (write : σ → Code σ) (s : σ) : Code σ := do
  let s ← S.writeByte s opening
  let s ← write s
  S.writeByte s close

def writeBracketed (opening close : UInt8) {α : Type} (write : α → σ → Code σ) (xs : List α) (s : σ) : Code σ :=
  inBrackets S opening close (writeItems S write 0 xs) s

def writeCommands (cmds : Option (List (LocationExpressionCommand ρ))) (s : σ) : Code σ :=
  writeOrNull S (writeBracketed S 0x5b 0x5d (writeCommand S r)) cmds s

/-- A member, with a comma if others are in front; `cnt` counts the members. -/
def writePart (c : Prop) [Decidable c] (name : String) (value : σ → Code σ) (st : σ × Nat) : Code (σ × Nat) :=
  if c then do
    let s ← writeIf (st.2 > 0) (S.writeByte · comma) st.1
    let s ← writeMember S name value s
    pure (s,st.2 + 1)
  else pure st

/-- The members of a struct, one after the other. -/
def writeParts (write : σ × Nat → Code (σ × Nat)) (s : σ) : Code σ :=
  inBrackets S 0x7b 0x7d (fun s => do let (s,_) ← write (s,0); pure s) s

def writeInlinedSubroutineInfo (info : InlinedSubroutine Pointer) (s : σ) : Code σ :=
  writeParts S (fun st => do
    let st ← writePart S (info.funcId ≠ none) "ID" (writePointer S m info.funcId) st
    writePart S True "Area" (writeCodeArea S m info.area none) st) s

def writeDiscriminant (range : DiscriminantRange) (s : σ) : Code σ :=
  if range.x = range.y then jsonWriteLong S s range.x.toInt
  else do
    let s ← S.writeByte s 0x7b
    let s ← writeMember S "X" (jsonWriteLong S · range.x.toInt) s
    let s ← writeNext S "Y" (jsonWriteLong S · range.y.toInt) s
    S.writeByte s 0x7d

def writeLocationAttrs (info : LocationInfo ρ) (s : σ) : Code σ := do
  let s ← writeMember S "BigEndian" (jsonWriteBoolean S · info.bigEndian) s
  let s ← writeNext S "ValueCmds" (writeCommands S r info.valueCmds) s
  let s ← writeIf (info.argsCnt ≠ 0) (writeNext S "ArgCnt" (jsonWriteUlong S · info.argsCnt.toNat)) s
  let s ← writeIf (info.codeSize ≠ 0) (writeNext S "CodeAddr" (jsonWriteUint64 S · info.codeAddr.toNat)) s
  let s ← writeIf (info.codeSize ≠ 0) (writeNext S "CodeSize" (jsonWriteUint64 S · info.codeSize.toNat)) s
  writeIf (info.discrLst ≠ []) (writeNext S "Discriminant"
    (writeBracketed S 0x5b 0x5d (writeDiscriminant S) info.discrLst)) s

/-- What `command_get_location_info_cache_client` writes after the token when there was no error. -/
def writeLocationInfo (info : LocationInfo ρ) (s : σ) : Code σ := do
  let s ← S.writeByte s 0
  let s ← inBrackets S 0x7b 0x7d (writeLocationAttrs S r info) s
  let s ← S.writeByte s 0
  S.write s .eom

/-- A register's rule as a member. -/
def writeRule (rule : RegisterLocation ρ) (s : σ) : Code σ := do
  let s ← writeRegister S r rule.reg s
  let s ← S.writeByte s colon
  writeCommands S r (some rule.cmds) s

def writeRules (rules : Option (List (RegisterLocation ρ))) (s : σ) : Code σ :=
  writeOrNull S (writeBracketed S 0x7b 0x7d (writeRule S r)) rules s

def writeSubs (subs : Option (List (InlinedSubroutine Pointer))) (s : σ) : Code σ :=
  writeBracketed S 0x5b 0x5d (writeInlinedSubroutineInfo S m) (subs.getD []) s

/-- The address and the size of the code count as one member. -/
def writeRange (info : StackTracingInfo ρ Pointer) (st : σ × Nat) : Code (σ × Nat) :=
  if info.size ≠ 0 then do
    let s ← writeMember S "CodeAddr" (jsonWriteUint64 S · info.addr.toNat) st.1
    let s ← writeNext S "CodeSize" (jsonWriteUint64 S · info.size.toNat) s
    pure (s,st.2 + 1)
  else pure st

def writeFrameParts (info : StackTracingInfo ρ Pointer) (st : σ × Nat) : Code (σ × Nat) := do
  let st ← writeRange S info st
  let st ← writePart S (info.fp ≠ none) "FP" (writeCommands S r info.fp) st
  let st ← writePart S (info.regs ≠ none) "Regs" (writeRules S r info.regs) st
  writePart S (info.subs ≠ none) "Inlined" (writeSubs S m info.subs) st

/-- The reply to findFrameProps, after its token. -/
def writeFrameProps (info : StackTracingInfo ρ Pointer) (s : σ) : Code σ := do
  let s ← S.writeByte s 0
  let s ← writeParts S (writeFrameParts S r m info) s
  let s ← S.writeByte s 0
  S.write s .eom

/-- The reply to findFrameInfo, after its token. -/
def writeFrameInfo (info : StackTracingInfo ρ Pointer) (s : σ) : Code σ := do
  let s ← S.writeByte s 0
  let s ← jsonWriteUint64 S s info.addr.toNat
  let s ← S.writeByte s 0
  let s ← jsonWriteUint64 S s info.size.toNat
  let s ← S.writeByte s 0
  let s ← writeCommands S r info.fp s
  let s ← S.writeByte s 0
  let s ← writeRules S r info.regs s
  let s ← S.writeByte s 0
  S.write s .eom

end Writer

/-- What the readers are given: the registers, the size that the static buffer of `json_read_alloc_binary`
has at a place of the input, and the bytes that `loc_alloc` can have before it exits. -/
structure Readers (ρ : Type) where
  registers : Registers ρ
  bufSize : Input → Nat
  room : Nat

/-- The static variables that the readers share, each array up to its count. -/
structure Scratch (ρ : Type) where
  locationCmds : List (LocationExpressionCommand ρ)
  traceRegs : List (RegisterLocation ρ)
  traceSubs : List (InlinedSubroutine (List UInt8))
  discriminantLst : List DiscriminantRange
  id2registerError : Nat
  deriving DecidableEq

section Reader

variable {ρ : Type} (e : Readers ρ)

def locAlloc (size : Nat) : Code Unit := if size ≤ e.room then pure () else .error .fault

/-- `(int64_t)` -/
def jsonReadInt64 (inp : Input) : Code (BitVec 64 × Input) := do
  let (n,inp) ← jsonReadLong inp
  pure (BitVec.ofInt 64 n,inp)

/-- Whatever an unsigned type of `w` bits keeps. -/
def jsonReadUnsigned (w : Nat) (inp : Input) : Code (BitVec w × Input) := do
  let (n,inp) ← jsonReadUlong inp
  pure (BitVec.ofNat w n,inp)

/-- A `long`, as a type of `w` bits. -/
def jsonReadAs (w : Nat) (inp : Input) : Code (BitVec w × Input) := do
  let (n,inp) ← jsonReadLong inp
  pure (BitVec.ofInt w n,inp)

/-- `json_read_alloc_binary` with as many rounds as there is input. -/
def readBinary (inp : Input) : Code (Option (List UInt8) × Input) := jsonReadAllocBinary (inp.length + 1) (e.bufSize inp) inp

/-- A string in 256 bytes, and the result of `json_read_string`. -/
def readId (inp : Input) : Code ((List UInt8 × Int) × Input) := do
  let ((id,length),inp) ← jsonReadString inp (List.replicate 256 0)
  pure ((upToNul id,length),inp)

/-- `id2register`, which sets the register to NULL when it fails; the error is kept. -/
def lookUp (id : List UInt8) (error : Nat) : Option ρ × Nat :=
  match e.registers.id2register id with
  | .ok reg => (some reg,error)
  | .error no => (none,no)

/-- The register of a piece, which may have none. -/
def readPieceRegister (error : Nat) (inp : Input) : Code ((Option ρ × Nat) × Input) := do
  let ((id,length),inp) ← readId inp
  pure (if length > 0 then lookUp e id error else (none,error),inp)

/-- A member with another name is not skipped. -/
def readDwarfLocationParams (name : List UInt8) (loc : DwarfLocation) (inp : Input) : Code (DwarfLocation × Input) :=
  let scope := loc.regIdScope
  if name = literal "Machine" then do let (n,inp) ← jsonReadAs 16 inp; pure ({ loc with regIdScope := { scope with machine := n } },inp)
  else if name = literal "ABI" then do let (n,inp) ← jsonReadAs 8 inp; pure ({ loc with regIdScope := { scope with osAbi := n } },inp)
  else if name = literal "FPABI" then do let (n,inp) ← jsonReadAs 8 inp; pure ({ loc with regIdScope := { scope with fpAbi := n } },inp)
  else if name = literal "ELF64" then do let (b,inp) ← jsonReadBoolean inp; pure ({ loc with regIdScope := { scope with elf64 := b } },inp)
  else if name = literal "RegIdType" then do let (n,inp) ← jsonReadAs 8 inp; pure ({ loc with regIdScope := { scope with idType := n } },inp)
  else if name = literal "AddrSize" then do let (n,inp) ← jsonReadAs 64 inp; pure ({ loc with addrSize := n },inp)
  else if name = literal "BigEndian" then do let (b,inp) ← jsonReadBoolean inp; pure ({ loc with regIdScope := { scope with bigEndian := b } },inp)
  else pure (loc,inp)

/-- The arguments, with what `id2register_error` is then. On a little endian machine `arg_no` is the
`unsigned` that is stored as `num`. -/
def readArgs : (f : Form) → Nat → Input → Code ((Args ρ f × Nat) × Input)
  | .plain, error, inp => pure (((),error),inp)
  | .num, error, inp => do
    let inp ← jsonTestChar comma inp
    let (num,inp) ← jsonReadInt64 inp
    pure ((num,error),inp)
  | .argNo, error, inp => do
    let inp ← jsonTestChar comma inp
    let (no,inp) ← jsonReadUnsigned 32 inp
    pure ((no,error),inp)
  | .reg, error, inp => do
    let inp ← jsonTestChar comma inp
    let ((id,_),inp) ← readId inp
    pure (lookUp e id error,inp)
  | .mem, error, inp => do
    let inp ← jsonTestChar comma inp
    let (size,inp) ← jsonReadUnsigned 64 inp
    let inp ← jsonTestChar comma inp
    let (bigEndian,inp) ← jsonReadBoolean inp
    pure ((MemArgs.mk size bigEndian,error),inp)
  | .loc, error, inp => do
    let inp ← jsonTestChar comma inp
    let (code,inp) ← readBinary e inp
    let inp ← jsonTestChar comma inp
    let ((_,loc),inp) ← jsonReadStruct readDwarfLocationParams ⟨⟨0,0,0,false,false,0⟩,code,0⟩ inp
    pure ((loc,error),inp)
  | .piece, error, inp => do
    let inp ← jsonTestChar comma inp
    let (bitOffs,inp) ← jsonReadUnsigned 32 inp
    let inp ← jsonTestChar comma inp
    let (bitSize,inp) ← jsonReadUnsigned 32 inp
    let inp ← jsonTestChar comma inp
    let ((reg,error),inp) ← readPieceRegister e error inp
    let inp ← jsonTestChar comma inp
    let (value,inp) ← readBinary e inp
    if value ≠ none ∧ (value.getD []).length < (bitSize + 7).toNat / 8 then .error .exception
    else pure ((Piece.mk value reg bitOffs bitSize,error),inp)

def readLocationCommand (st : Scratch ρ) (inp : Input) : Code (Scratch ρ × Input) := do
  let (cmd,inp) ← jsonReadInt inp
  let ((args,error),inp) ← readArgs e (form cmd) st.id2registerError inp
  pure ({ st with locationCmds := st.locationCmds ++ [⟨cmd,args⟩], id2registerError := error },inp)

/-- Bytes of a command, and of a `StackFrameRegisterLocation`, which holds one. -/
def commandSize : Nat := 48
def registerLocationSize : Nat := 64

/-- The size of a `StackFrameRegisterLocation` with `cnt` commands; `cnt - 1` is an `unsigned`. -/
def ruleSize (cnt : Nat) : Nat := registerLocationSize + (BitVec.ofNat 32 cnt - 1).toNat * commandSize

/-- An array of commands, in a block of the given size. -/
def readCommandArray (size : Nat → Nat) (st : Scratch ρ) (inp : Input) :
    Code ((Option (List (LocationExpressionCommand ρ)) × Scratch ρ) × Input) := do
  let ((some_,st),inp) ← jsonReadArray (readLocationCommand e) { st with locationCmds := [] } inp
  if some_ then
    let _ ← locAlloc e (size st.locationCmds.length)
    pure ((some st.locationCmds,st),inp)
  else pure ((none,st),inp)

def readLocationCommandArray (st : Scratch ρ) (inp : Input) :
    Code ((Option (List (LocationExpressionCommand ρ)) × Scratch ρ) × Input) := readCommandArray e (· * commandSize) st inp

def readDiscriminantRange (name : List UInt8) (range : DiscriminantRange) (inp : Input) :
    Code (DiscriminantRange × Input) :=
  if name = literal "X" then do let (n,inp) ← jsonReadInt64 inp; pure ({ range with x := n },inp)
  else if name = literal "Y" then do let (n,inp) ← jsonReadInt64 inp; pure ({ range with y := n },inp)
  else do let inp ← jsonSkipObject inp; pure (range,inp)

def readDiscriminantValue (st : Scratch ρ) (inp : Input) : Code (Scratch ρ × Input) := do
  let ch ← peekStream inp
  if ch = .byte 0x7b then
    let ((_,range),inp) ← jsonReadStruct readDiscriminantRange ⟨0,0⟩ inp
    pure ({ st with discriminantLst := st.discriminantLst ++ [range] },inp)
  else
    let (n,inp) ← jsonReadInt64 inp
    pure ({ st with discriminantLst := st.discriminantLst ++ [⟨n,n⟩] },inp)

def readDiscriminantArray (st : Scratch ρ) (info : LocationInfo ρ) (inp : Input) :
    Code ((Scratch ρ × LocationInfo ρ) × Input) := do
  let ((some_,st),inp) ← jsonReadArray readDiscriminantValue { st with discriminantLst := [] } inp
  if some_ then
    let _ ← locAlloc e (st.discriminantLst.length * 16)
    pure ((st,{ info with discrLst := st.discriminantLst }),inp)
  else pure ((st,info),inp)

def readLocationAttrs (name : List UInt8) (st : Scratch ρ × LocationInfo ρ) (inp : Input) :
    Code ((Scratch ρ × LocationInfo ρ) × Input) :=
  if name = literal "ArgCnt" then do let (n,inp) ← jsonReadUnsigned 32 inp; pure ((st.1,{ st.2 with argsCnt := n }),inp)
  else if name = literal "CodeAddr" then do let (n,inp) ← jsonReadUint64 inp; pure ((st.1,{ st.2 with codeAddr := n }),inp)
  else if name = literal "CodeSize" then do let (n,inp) ← jsonReadUint64 inp; pure ((st.1,{ st.2 with codeSize := n }),inp)
  else if name = literal "BigEndian" then do let (b,inp) ← jsonReadBoolean inp; pure ((st.1,{ st.2 with bigEndian := b }),inp)
  else if name = literal "ValueCmds" then do
    let ((cmds,scratch),inp) ← readLocationCommandArray e st.1 inp
    pure ((scratch,{ st.2 with valueCmds := cmds.or st.2.valueCmds }),inp)
  else if name = literal "Discriminant" then readDiscriminantArray e st.1 st.2 inp
  else do let inp ← jsonSkipObject inp; pure (st,inp)

/-- A member of the registers' rules; `id` is its name. -/
def readStackTraceRegister (id : List UInt8) (st : Scratch ρ) (inp : Input) : Code (Scratch ρ × Input) := do
  let ((cmds,st),inp) ← readCommandArray e ruleSize st inp
  match cmds with
  | none => pure (st,inp)
  | some cmds =>
    match e.registers.id2register id with
    | .ok reg => pure ({ st with traceRegs := st.traceRegs ++ [⟨reg,cmds⟩] },inp)
    | .error no => pure ({ st with id2registerError := no },inp)

def readInlinedSubroutineProps (name : List UInt8) (info : InlinedSubroutine (List UInt8)) (inp : Input) :
    Code (InlinedSubroutine (List UInt8) × Input) :=
  if name = literal "ID" then do let (str,inp) ← jsonReadAllocString inp; pure ({ info with funcId := str },inp)
  else if name = literal "Area" then do
    let (area,inp) ← readCodeArea inp
    pure ({ info with area },inp)
  else do let inp ← jsonSkipObject inp; pure (info,inp)

def readInlinedSubroutine (st : Scratch ρ) (inp : Input) : Code (Scratch ρ × Input) := do
  let ((_,info),inp) ← jsonReadStruct readInlinedSubroutineProps ⟨.zero,none⟩ inp
  pure ({ st with traceSubs := st.traceSubs ++ [info] },inp)

/-- A frame that is being read. -/
abbrev Reading (ρ : Type) := Scratch ρ × StackTracingInfo ρ (List UInt8)

def readStackFrameFp (st : Reading ρ) (inp : Input) : Code (Reading ρ × Input) := do
  let ((cmds,scratch),inp) ← readCommandArray e ruleSize st.1 inp
  pure ((scratch,{ st.2 with fp := cmds.or st.2.fp }),inp)

def readStackFrameRegs (st : Reading ρ) (inp : Input) : Code (Reading ρ × Input) := do
  let ((some_,scratch),inp) ← jsonReadStruct (readStackTraceRegister e) { st.1 with traceRegs := [] } inp
  if some_ then
    let _ ← locAlloc e (scratch.traceRegs.length * 8)
    pure ((scratch,{ st.2 with regs := some scratch.traceRegs }),inp)
  else pure ((scratch,st.2),inp)

def readStackFrameInlined (st : Reading ρ) (inp : Input) : Code (Reading ρ × Input) := do
  let ((some_,scratch),inp) ← jsonReadArray readInlinedSubroutine { st.1 with traceSubs := [] } inp
  if some_ then
    let _ ← locAlloc e (scratch.traceSubs.length * 8)
    pure ((scratch,{ st.2 with subs := some scratch.traceSubs }),inp)
  else pure ((scratch,st.2),inp)

def readStackFrameProps (name : List UInt8) (st : Reading ρ) (inp : Input) : Code (Reading ρ × Input) :=
  if name = literal "CodeAddr" then do let (n,inp) ← jsonReadUint64 inp; pure ((st.1,{ st.2 with addr := n }),inp)
  else if name = literal "CodeSize" then do let (n,inp) ← jsonReadUint64 inp; pure ((st.1,{ st.2 with size := n }),inp)
  else if name = literal "FP" then readStackFrameFp e st inp
  else if name = literal "Regs" then readStackFrameRegs e st inp
  else if name = literal "Inlined" then readStackFrameInlined e st inp
  else do let inp ← jsonSkipObject inp; pure (st,inp)

/-- The four parts of a reply to findFrameInfo. -/
def readFrameParts (st : Reading ρ) (inp : Input) : Code (Reading ρ × Input) := do
  let (addr,inp) ← jsonReadUint64 inp
  let inp ← jsonTestChar 0 inp
  let (size,inp) ← jsonReadUint64 inp
  let inp ← jsonTestChar 0 inp
  let (st,inp) ← readStackFrameFp e (st.1,{ st.2 with addr, size }) inp
  let inp ← jsonTestChar 0 inp
  let (st,inp) ← readStackFrameRegs e st inp
  let inp ← jsonTestChar 0 inp
  pure (st,inp)

/-- A reply: its error, or that of a register's ID, what was read and what is left in the static variables. -/
structure Received (ρ α : Type) where
  error : Nat
  value : α
  scratch : Scratch ρ

variable (readErrorObject : Input → Code (Nat × Input))

def finish {α : Type} (error : Nat) (st : Scratch ρ × α) (inp : Input) : Code (Received ρ α × Input) := do
  let inp ← jsonTestEom inp
  pure (⟨if error = 0 then st.1.id2registerError else error,st.2,st.1⟩,inp)

/-- What `validate_location_info` reads. -/
def readLocationReply (scratch : Scratch ρ) (inp : Input) : Code (Received ρ (LocationInfo ρ) × Input) := do
  let (error,inp) ← readErrno readErrorObject inp
  let ((_,st),inp) ← jsonReadStruct (readLocationAttrs e) ({ scratch with id2registerError := 0 },.zero) inp
  let inp ← jsonTestChar 0 inp
  finish error st inp

/-- What `validate_frame` reads, of the reply to findFrameProps or to findFrameInfo. -/
def readFrameReply (commandProps : Bool) (scratch : Scratch ρ) (inp : Input) :
    Code (Received ρ (StackTracingInfo ρ (List UInt8)) × Input) := do
  let (error,inp) ← readErrno readErrorObject inp
  let st : Reading ρ := ({ scratch with id2registerError := 0 },.zero)
  if commandProps then
    let ((_,st),inp) ← jsonReadStruct (readStackFrameProps e) st inp
    let inp ← jsonTestChar 0 inp
    finish error st inp
  else
    let (st,inp) ← readFrameParts e st inp
    finish error st inp

end Reader

/-- What `validate_frame` does with the code range of a reply to a query for `ip`. -/
def settleFrame {ρ τ : Type} (ip : BitVec 64) (error : Nat) (sti : StackTracingInfo ρ τ) : Code (StackTracingInfo ρ τ) := do
  let sti := if error ≠ 0 ∨ sti.size = 0 then { sti with addr := ip, size := 1 } else sti
  require (sti.addr ≤ ip)
  require (sti.addr + sti.size = 0 ∨ sti.addr + sti.size > ip)
  pure sti

/-- What `validate_frame` puts into the entry for `ip`, and what is left of the input. -/
def validateFrame {ρ : Type} (e : Readers ρ) (readErrorObject : Input → Code (Nat × Input)) (commandProps : Bool) (ip : BitVec 64)
    (scratch : Scratch ρ) (inp : Input) : Code (Received ρ (StackTracingInfo ρ (List UInt8)) × Input) := do
  let (r,inp) ← readFrameReply e readErrorObject commandProps scratch inp
  let sti ← settleFrame ip r.error r.value
  pure ({ r with value := sti },inp)

end Tcf.Locations
