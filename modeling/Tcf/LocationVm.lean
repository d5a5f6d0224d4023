import Mathlib.Algebra.Order.Ring.Int
import Tcf.Base.Trapped

/-! The virtual machine that executes location expressions: the readers of code, the stack, the
pieces, and all operators. -/
namespace Tcf.LocationVm

structure RegisterDefinition where
  number : Nat
  size : Nat
  deriving DecidableEq, Repr

structure StackFrame where
  frame : Int
  fp : UInt64
  deriving DecidableEq, Repr

structure LocationPiece where
  optimizedAway : Bool
  addr : UInt64
  reg : Option RegisterDefinition
  value : Option (List UInt8)
  size : Nat
  bitOffs : Nat
  bitSize : Nat
  implicitPointer : Nat
  deriving DecidableEq, Repr

inductive Error where
  | invDwarf (msg : String)
  | str (code : Int) (msg : String)
  | errno (code : Int)
  deriving DecidableEq, Repr

def ERR_OTHER : Int := 0x20000 + 1
def ERR_INV_ADDRESS : Int := 0x20000 + 17
def ERR_INV_CONT_OBJ : Int := 0x20000 + 29

/-- What other modules answer, and what the compiler makes of shifts that the language leaves
undefined. `prevFrame` also says whether the stack is unwound further, by other expressions. -/
structure Target where
  readMem : UInt64 → Nat → Except Int (Nat → UInt8)
  regById : Nat → Except Int RegisterDefinition
  regValue : Option StackFrame → RegisterDefinition → Except Int UInt64
  prevFrame : Option StackFrame → Bool × Int
  frameInfo : Int → Except Int StackFrame
  readPieces : Option StackFrame → List LocationPiece → Except Int (List UInt8)
  clientOp : Option (UInt8 → Except Int Unit)
  shl : UInt64 → Nat → UInt64
  shr : UInt64 → Nat → UInt64
  shl32 : UInt64 → Nat → UInt64
  shlInt : UInt8 → Nat → UInt64
  shl_defined : ∀ x n, n < 64 → (shl x n).toNat = x.toNat * 2 ^ n % 2 ^ 64
  shr_defined : ∀ x n, n < 64 → (shr x n).toNat = x.toNat / 2 ^ n
  shl32_defined : ∀ x n, x.toNat < 2 ^ 32 → n < 32 → (shl32 x n).toNat = x.toNat * 2 ^ n % 2 ^ 32
  shlInt_defined : ∀ x n, n < 32 → x.toNat * 2 ^ n < 2 ^ 31 → (shlInt x n).toNat = x.toNat * 2 ^ n

structure LocationExpressionState where
  stackFrame : Option StackFrame
  args : List UInt64
  code : Nat
  codePos : Nat
  codeLen : Nat
  bigEndian : Bool
  addrSize : Nat
  pieces : List LocationPiece
  stkPos : Nat
  stk : List UInt64
  deriving DecidableEq, Repr

/-- The variables of the module. `own` is what `state` points to, or pointed to before it became
NULL. Code addresses count from the first byte of the outermost expression. -/
structure State where
  own : LocationExpressionState
  active : Bool
  regDef : Option RegisterDefinition
  valueAddr : Option (List UInt8)
  implicitPointer : Nat
  code : Nat
  codePos : Nat
  codeLen : Nat
  deriving DecidableEq, Repr

/-- The steps of a run that can go wrong: an operator that finds some room on the stack, a memory
read that returns some bytes, the operand of OP_GNU_entry_value, unwinding, and a call of
`client_op`. -/
inductive Step where
  | room (stkPos stkMax : Nat)
  | transfer (size : Nat)
  | entry (pos size : Nat)
  | unwind (evaluates : Bool)
  | client (known : Bool)
  deriving DecidableEq, Repr

abbrev Run (α : Type) := Trapped Error Step State α

def invDwarf (msg : String) : Run α := Trapped.raise (.invDwarf msg)

/-- `if (!condition) inv_dwarf(msg)` -/
def checkDwarf (condition : Prop) [Decidable condition] (msg : String) : Run Unit :=
  if condition then pure () else invDwarf msg

/-- What the language leaves undefined unless a condition holds. -/
def defined (condition : Prop) [Decidable condition] : Run Unit := if condition then pure () else Trapped.fault

/-- The end of a trap: the error is raised again. -/
def rethrow (error : Option Error) : Run Unit :=
  match error with
  | some error => Trapped.raise error
  | none => pure ()

/-- An error that another module has left in `errno`. -/
def exceptionOf (answer : Except Int α) : Run α := Trapped.call (answer.mapError .errno)

namespace State

def setOwn (s : State) (own : LocationExpressionState) : State := { s with own }

def setStkPos (s : State) (stkPos : Nat) : State := s.setOwn { s.own with stkPos }

def setStk (s : State) (stk : List UInt64) : State := s.setOwn { s.own with stk }

def setPieces (s : State) (pieces : List LocationPiece) : State := s.setOwn { s.own with pieces }

def setCodePos (s : State) (codePos : Nat) : State := { s with codePos }

/-- `code_len = state->code_len = ...` -/
def setCodeLen (s : State) (codeLen : Nat) : State := { s.setOwn { s.own with codeLen } with codeLen }

/-- `set_state` -/
def enter (s : State) (own : LocationExpressionState) : State :=
  { s with own, active := true, code := own.code, codePos := own.codePos, codeLen := own.codeLen }

/-- `get_state` -/
def leave (s : State) : State :=
  { s with own := { s.own with codePos := s.codePos }, active := false, code := 0, codePos := 0, codeLen := 0 }

/-- What another evaluation leaves of the variables. -/
def lost (s : State) : State :=
  { s with active := false, regDef := none, valueAddr := none, implicitPointer := 0, code := 0, codePos := 0, codeLen := 0 }

end State

section Readers

variable (code : List UInt8) (t : Target)

/-- `code[code_pos]` -/
def codeByte : Run UInt8 := do
  let s ← Trapped.state
  match code[s.code + s.codePos]? with
  | some byte => pure byte
  | none => Trapped.fault

def nextByte : Run UInt8 := do
  let byte ← codeByte code
  Trapped.change fun s => s.setCodePos (s.codePos + 1)
  pure byte

def readU1 : Run UInt64 := do
  let s ← Trapped.state
  checkDwarf (s.codePos < s.codeLen) "Invalid command"
  let byte ← nextByte code
  pure byte.toUInt64

/-- Two halves of a number, in the byte order of the target. -/
def readHalves (bits : UInt64) (half : Run UInt64) : Run UInt64 := do
  let x0 ← half
  let x1 ← half
  let s ← Trapped.state
  pure (if s.own.bigEndian then (x0 <<< bits) ||| x1 else x0 ||| (x1 <<< bits))

def readU2 : Run UInt64 := readHalves 8 (readU1 code)

def readU4 : Run UInt64 := readHalves 16 (readU2 code)

def readU8 : Run UInt64 := readHalves 32 (readU4 code)

/-- The bytes of a LEB128 number. -/
def lebBytes : Nat → Run (List UInt64)
  | 0 => Trapped.unfinished
  | rounds + 1 => do
    let n ← readU1 code
    if n &&& 0x80 = 0 then pure [n]
    else do
      let rest ← lebBytes rounds
      pure (n :: rest)

def readLeb : Run (List UInt64) := do
  let s ← Trapped.state
  lebBytes code (s.codeLen - s.codePos + 1)

/-- Seven bits of each byte, with a shift. -/
def lebValue (shift : UInt64 → Nat → UInt64) : Nat → List UInt64 → UInt64
  | _, [] => 0
  | i, n :: rest => shift (n &&& 0x7F) i ||| lebValue shift (i + 7) rest

/-- The sign in the last byte goes to all higher bits. -/
def lebSign : Nat → List UInt64 → UInt64
  | _, [] => 0
  | i, [n] => t.shl (0 - (n &&& 0x40)) i
  | i, _ :: rest => lebSign (i + 7) rest

def readU4leb128 : Run UInt64 := do
  let bytes ← readLeb code
  pure (lebValue t.shl32 0 bytes)

def readU8leb128 : Run UInt64 := do
  let bytes ← readLeb code
  pure (lebValue t.shl 0 bytes)

def readI8leb128 : Run UInt64 := do
  let bytes ← readLeb code
  pure (lebValue t.shl 0 bytes ||| lebSign t 0 bytes)

/-- A number of some bits as a signed one, in 64 bits. -/
def signed (bits : Nat) (n : UInt64) : UInt64 :=
  if n.toNat % 2 ^ bits < 2 ^ (bits - 1) then UInt64.ofNat (n.toNat % 2 ^ bits)
  else UInt64.ofNat (n.toNat % 2 ^ bits + (2 ^ 64 - 2 ^ bits))

def readUa : Run UInt64 := do
  let s ← Trapped.state
  if s.own.addrSize = 1 then readU1 code
  else if s.own.addrSize = 2 then readU2 code
  else if s.own.addrSize = 4 then readU4 code
  else if s.own.addrSize = 8 then readU8 code
  else invDwarf "Invalid address size"

def readIa : Run UInt64 := do
  let n ← readUa code
  let s ← Trapped.state
  pure (signed (8 * s.own.addrSize) n)

/-- Bytes of the read buffer as a number. -/
def bufValue (bigEndian : Bool) (buf : Nat → UInt8) (size : Nat) : UInt64 :=
  (List.range size).foldl (fun n i => (n <<< 8) ||| (buf (if bigEndian then i else size - i - 1)).toUInt64) 0

def readMemory (addr : UInt64) (size : Nat) : Run UInt64 := do
  let buf ← exceptionOf (t.readMem addr size)
  Trapped.note (.transfer size)
  -- the read buffer has 8 bytes
  defined (size ≤ 8)
  let s ← Trapped.state
  pure (bufValue s.own.bigEndian buf size)

end Readers

section Stack

def checkStack (n : Nat) : Run Unit := do
  let s ← Trapped.state
  checkDwarf (n ≤ s.own.stkPos) "Invalid location expression stack"

/-- `state->stk[state->stk_pos - depth]` -/
def stackAt (depth : Nat) : Run UInt64 := do
  let s ← Trapped.state
  defined (depth ≤ s.own.stkPos)
  match s.own.stk[s.own.stkPos - depth]? with
  | some value => pure value
  | none => Trapped.fault

def setStackAt (depth : Nat) (value : UInt64) : Run Unit := do
  let s ← Trapped.state
  defined (depth ≤ s.own.stkPos ∧ s.own.stkPos - depth < s.own.stk.length)
  Trapped.change fun s => s.setStk (s.own.stk.set (s.own.stkPos - depth) value)

/-- `stk_pos` is an `unsigned`. -/
def push (value : UInt64) : Run Unit := do
  setStackAt 0 value
  Trapped.change fun s => s.setStkPos ((s.own.stkPos + 1) % 2 ^ 32)

def drop : Run Unit := Trapped.change fun s => s.setStkPos ((s.own.stkPos + (2 ^ 32 - 1)) % 2 ^ 32)

def pop : Run UInt64 := do
  drop
  stackAt 0

/-- `stk` is an array of `stk_max` cells, which is an `unsigned`. -/
def grown (s : State) : State :=
  if s.own.stk.length < (s.own.stkPos + 4) % 2 ^ 32 then
    s.setStk ((s.own.stk ++ List.replicate 8 0).take ((s.own.stk.length + 8) % 2 ^ 32))
  else s

def grow : Run Unit := do
  let s ← Trapped.state
  Trapped.note (.room s.own.stkPos s.own.stk.length)
  Trapped.change grown

/-- Operators on the top of the stack. -/
def unary (f : UInt64 → UInt64) : Run Unit := do
  checkStack 1
  let x ← stackAt 1
  setStackAt 1 (f x)

/-- Operators on two entries, which check the second operand. -/
def binaryChecked (f : UInt64 → UInt64 → Except String UInt64) : Run Unit := do
  checkStack 2
  drop
  let y ← stackAt 0
  let x ← stackAt 1
  match f x y with
  | .ok value => setStackAt 1 value
  | .error msg => invDwarf msg

def binary (f : UInt64 → UInt64 → UInt64) : Run Unit := binaryChecked fun x y => .ok (f x y)

def compare (f : UInt64 → UInt64 → Bool) : Run Unit := binary fun x y => if f x y then 1 else 0

def divide (f : UInt64 → UInt64 → UInt64) : Run Unit :=
  binaryChecked fun x y => if y = 0 then .error "Division by zero in location expression" else .ok (f x y)

/-- The loop of OP_shra. -/
def shraLoop : Nat → UInt64 → UInt64
  | 0, data => data
  | cnt + 1, data => shraLoop cnt ((data >>> 1) ||| (data &&& 0x8000000000000000))

def shra (data cnt : UInt64) : UInt64 :=
  if 64 ≤ cnt then if data &&& 0x8000000000000000 ≠ 0 then 0xFFFFFFFFFFFFFFFF else 0
  else shraLoop cnt.toNat data

end Stack

section Pieces

def noPiece : LocationPiece := ⟨false,0,none,none,0,0,0,0⟩

def stackPiece : Run LocationPiece := do
  let addr ← pop
  pure { noPiece with addr }

/-- What a new piece is made of: a register, a value, the stack, or nothing at all. -/
def describePiece : Run LocationPiece := do
  let s ← Trapped.state
  match s.regDef, s.valueAddr with
  | some reg, _ => pure { noPiece with reg := some reg, size := reg.size }
  | none, some value => pure { noPiece with value := some value, size := value.length }
  | none, none =>
    if s.own.stkPos = 0 then pure { noPiece with optimizedAway := true }
    else stackPiece

def addPiece : Run Unit := do
  let piece ← describePiece
  Trapped.change fun s =>
    { s.setPieces (s.own.pieces ++ [{ piece with implicitPointer := s.implicitPointer }]) with
      implicitPointer := 0, valueAddr := none, regDef := none }

/-- Writing to the piece that was added last. -/
def setPiece (f : LocationPiece → LocationPiece) : Run Unit :=
  Trapped.change fun s => s.setPieces (s.own.pieces.modify (s.own.pieces.length - 1) f)

/-- The rest of a piece that begins before the offset. -/
def cutPiece (start bitOffs : Nat) (piece : LocationPiece) : LocationPiece :=
  let piece := if bitOffs < start then
      { piece with
        bitOffs := (piece.bitOffs + (start - bitOffs)) % 2 ^ 32
        bitSize := (piece.bitSize + 2 ^ 32 - (start - bitOffs)) % 2 ^ 32 }
    else piece
  let piece := if piece.bitOffs = 0 ∧ piece.bitSize % 8 = 0 then
      { piece with size := piece.bitSize / 8, bitSize := 0 }
    else piece
  { piece with implicitPointer := piece.implicitPointer + 1 }

/-- The loop of OP_TCF_offset, from bit `start` on. -/
def offsetPieces (start : Nat) : Nat → List LocationPiece → List LocationPiece
  | _, [] => []
  | bitOffs, piece :: rest =>
    let piece := if piece.bitSize = 0 then { piece with bitSize := piece.size * 8 % 2 ^ 32 } else piece
    let next := (bitOffs + piece.bitSize) % 2 ^ 32
    if start < next then cutPiece start bitOffs piece :: offsetPieces start next rest
    else offsetPieces start next rest

end Pieces

inductive Op where
  | OP_reg | OP_basereg | OP_const | OP_deref2 | OP_deref | OP_add
  | OP_const1u | OP_const1s | OP_const2u | OP_const2s | OP_const4u | OP_const4s | OP_const8u | OP_const8s
  | OP_constu | OP_consts | OP_dup | OP_drop | OP_over | OP_pick | OP_swap | OP_rot | OP_xderef
  | OP_abs | OP_and | OP_div | OP_minus | OP_mod | OP_mul | OP_neg | OP_not | OP_or | OP_plus | OP_plus_uconst
  | OP_shl | OP_shr | OP_shra | OP_xor | OP_bra | OP_eq | OP_ge | OP_gt | OP_le | OP_lt | OP_ne | OP_skip
  | OP_lit (n : Nat) | OP_regN (n : Nat) | OP_bregN (n : Nat) | OP_regx | OP_bregx
  | OP_piece | OP_deref_size | OP_xderef_size | OP_nop | OP_push_object_address | OP_call_frame_cfa
  | OP_bit_piece | OP_implicit_value | OP_stack_value | OP_GNU_entry_value | OP_TCF_switch | OP_TCF_offset
  | client (op : UInt8)
  deriving DecidableEq, Repr

def opcodes : List (UInt8 × Op) :=
  [(0x01,.OP_reg),(0x02,.OP_basereg),(0x04,.OP_const),(0x05,.OP_deref2),(0x06,.OP_deref),(0x07,.OP_add),
    (0x08,.OP_const1u),(0x09,.OP_const1s),(0x0a,.OP_const2u),(0x0b,.OP_const2s),(0x0c,.OP_const4u),(0x0d,.OP_const4s),
    (0x0e,.OP_const8u),(0x0f,.OP_const8s),(0x10,.OP_constu),(0x11,.OP_consts),(0x12,.OP_dup),(0x13,.OP_drop),
    (0x14,.OP_over),(0x15,.OP_pick),(0x16,.OP_swap),(0x17,.OP_rot),(0x18,.OP_xderef),(0x19,.OP_abs),(0x1a,.OP_and),
    (0x1b,.OP_div),(0x1c,.OP_minus),(0x1d,.OP_mod),(0x1e,.OP_mul),(0x1f,.OP_neg),(0x20,.OP_not),(0x21,.OP_or),
    (0x22,.OP_plus),(0x23,.OP_plus_uconst),(0x24,.OP_shl),(0x25,.OP_shr),(0x26,.OP_shra),(0x27,.OP_xor),(0x28,.OP_bra),
    (0x29,.OP_eq),(0x2a,.OP_ge),(0x2b,.OP_gt),(0x2c,.OP_le),(0x2d,.OP_lt),(0x2e,.OP_ne),(0x2f,.OP_skip),
    (0x90,.OP_regx),(0x92,.OP_bregx),(0x93,.OP_piece),(0x94,.OP_deref_size),(0x95,.OP_xderef_size),(0x96,.OP_nop),
    (0x97,.OP_push_object_address),(0x9c,.OP_call_frame_cfa),(0x9d,.OP_bit_piece),(0x9e,.OP_implicit_value),
    (0x9f,.OP_stack_value),(0xf3,.OP_GNU_entry_value),(0xfe,.OP_TCF_switch),(0xff,.OP_TCF_offset)]

def decode (op : UInt8) : Op :=
  if 0x30 ≤ op ∧ op ≤ 0x4f then .OP_lit (op.toNat - 0x30)
  else if 0x50 ≤ op ∧ op ≤ 0x6f then .OP_regN (op.toNat - 0x50)
  else if 0x70 ≤ op ∧ op ≤ 0x8f then .OP_bregN (op.toNat - 0x70)
  else (opcodes.lookup op).getD (.client op)

section Operators

variable (code : List UInt8) (t : Target)

def isEndOfLocExpr : Run Bool := do
  let s ← Trapped.state
  if s.codeLen ≤ s.codePos then pure true
  else do
    let byte ← codeByte code
    pure (byte = 0x93 || byte = 0x9d || byte = 0xff)

def lastInstruction (msg : String) : Run Unit := do
  let last ← isEndOfLocExpr code
  checkDwarf (last = true) msg

/-- A location in a register. -/
def register (n : UInt64) (msg : String) : Run Unit := do
  lastInstruction code msg
  let reg ← exceptionOf (t.regById (n.toNat % 2 ^ 32))
  Trapped.change fun s => { s with regDef := some reg }

/-- The value of a register, and an offset. -/
def baseRegister (n : UInt64) (offset : Run UInt64) : Run Unit := do
  let reg ← exceptionOf (t.regById (n.toNat % 2 ^ 32))
  let s ← Trapped.state
  let value ← exceptionOf (t.regValue s.own.stackFrame reg)
  setStackAt 0 value
  let offset ← offset
  push (value + offset)

/-- `code_pos += offs`, with `offs` an `int16_t`. -/
def jump (offs : UInt64) : Run Unit := do
  Trapped.change fun s => s.setCodePos ((s.codePos + (signed 16 offs).toNat) % 2 ^ 64)
  let s ← Trapped.state
  checkDwarf (s.codePos ≤ s.codeLen) "Invalid command"

def jumpIf (taken offs : UInt64) : Run Unit := if taken ≠ 0 then jump offs else pure ()

def branch : Run Unit := do
  checkStack 1
  let offs ← readU2 code
  let taken ← stackAt 1
  jumpIf taken offs
  drop

def implicitValue : Run Unit := do
  let size ← readU4leb128 code t
  let s ← Trapped.state
  checkDwarf (s.codePos + size.toNat ≤ s.codeLen) "Invalid command"
  -- `memcpy` from the code
  defined (s.code + s.codePos + size.toNat ≤ code.length)
  Trapped.change fun s =>
    { s.setCodePos (s.codePos + size.toNat) with
      valueAddr := some ((code.drop (s.code + s.codePos)).take size.toNat) }
  lastInstruction code "OP_implicit_value must be last instruction"

/-- The low bytes of a number in the byte order of the target. -/
def valueBytes (bigEndian : Bool) (n : UInt64) (size : Nat) : List UInt8 :=
  let bytes := (List.range size).map fun i => UInt8.ofNat (n.toNat / 2 ^ (8 * i))
  if bigEndian then bytes.reverse else bytes

def stackValue : Run Unit := do
  checkStack 1
  let n ← pop
  Trapped.change fun s => { s with valueAddr := some (valueBytes s.own.bigEndian n s.own.addrSize) }
  lastInstruction code "OP_stack_value must be last instruction"

/-- The expression that OP_TCF_switch has chosen, which ends at a position of the code. -/
def switchCase (evaluate : Run Unit) (nxtPos : Nat) : Run Unit := do
  let s ← Trapped.state
  let error ← Trapped.trap do
    Trapped.change fun s => s.setCodeLen nxtPos
    evaluate
  let after ← Trapped.state
  -- `state` may be NULL
  defined (after.active = true)
  Trapped.change fun after => after.setCodeLen s.codeLen
  rethrow error

/-- Rounds of the loop of OP_TCF_switch. -/
def switchLoop (evaluate : Run Unit) (n : UInt64) (endPos : Nat) : Nat → Run Unit
  | 0 => Trapped.unfinished
  | rounds + 1 => do
    let nxt ← readU2 code
    let s ← Trapped.state
    let nxtPos := nxt.toNat + s.codePos
    checkDwarf (nxtPos ≤ endPos) "Invalid command"
    if nxtPos = s.codePos then
      Trapped.raise (.str ERR_OTHER "Object is not available at this location in the code")
    else do
      let addr ← readU8leb128 code t
      let size ← readU8leb128 code t
      if size = 0 ∨ (addr ≤ n ∧ n - addr < size) then switchCase evaluate nxtPos
      else do
        Trapped.change fun s => s.setCodePos nxtPos
        switchLoop evaluate n endPos rounds

def tcfSwitch (evaluate : Run Unit) : Run Unit := do
  checkStack 1
  let n ← pop
  let size ← readU2 code
  let s ← Trapped.state
  let endPos := size.toNat + s.codePos
  checkDwarf (endPos ≤ s.codeLen) "Invalid command"
  switchLoop code t evaluate n endPos (s.codeLen + 1)
  Trapped.change fun s => s.setCodePos endPos

/-- A register or a value becomes a piece. -/
def addKnownPiece : Run Unit := do
  let s ← Trapped.state
  if s.regDef.isSome || s.valueAddr.isSome then addPiece else pure ()

def tcfOffset : Run Unit := do
  addKnownPiece
  let s ← Trapped.state
  if s.own.pieces ≠ [] then do
    let offs ← readU4leb128 code t
    Trapped.change fun s => s.setPieces (offsetPieces (offs.toNat * 8 % 2 ^ 32) 0 s.own.pieces)
    let s ← Trapped.state
    checkDwarf (s.own.pieces ≠ []) "Invalid size of implicit value"
  else do
    checkStack 1
    let x ← stackAt 1
    let offs ← readU8leb128 code t
    setStackAt 1 (x + offs)
    Trapped.change fun s => { s with implicitPointer := s.implicitPointer + 1 }

/-- What is known at the end of an expression becomes a piece. -/
def addLastPiece : Run Unit := do
  let s ← Trapped.state
  if s.regDef.isSome || s.valueAddr.isSome || s.implicitPointer ≠ 0 then addPiece else pure ()

/-- `evaluate_vm_expression`, between `set_state` and the return. -/
def evaluateVmExpression (evaluate : Run Unit) : Run Unit := do
  let error ← Trapped.trap do
    evaluate
    addLastPiece
  Trapped.change State.leave
  rethrow error

/-- The state of a nested expression when its evaluation begins. -/
def entryState (s : LocationExpressionState) (frame : StackFrame) (size : Nat) : LocationExpressionState where
  stackFrame := some frame
  args := []
  code := s.code + s.codePos
  codePos := 0
  codeLen := size
  bigEndian := s.bigEndian
  addrSize := s.addrSize
  pieces := []
  stkPos := 0
  stk := []

/-- Bytes as OP_GNU_entry_value puts them together. -/
def entryBytes : Nat → List UInt8 → UInt64
  | _, [] => 0
  | i, byte :: rest => t.shlInt byte (i * 8) ||| entryBytes (i + 1) rest

/-- The value that the nested expression has left. -/
def entryResult : Run UInt64 := do
  let s ← Trapped.state
  if s.own.pieces ≠ [] then do
    let bytes ← exceptionOf (t.readPieces s.own.stackFrame s.own.pieces)
    checkDwarf (bytes.length ≤ 8) "Invalid OP_entry_value expression"
    pure (entryBytes t 0 bytes)
  else if s.own.stkPos = 1 then stackAt 1
  else invDwarf "Invalid OP_entry_value expression"

/-- The globals of the module when `evaluate_vm_expression` begins. -/
def State.begin (s : State) (own : LocationExpressionState) : State :=
  { s with implicitPointer := 0, valueAddr := none, regDef := none }.enter own

/-- `get_prev_frame`: other expressions are evaluated if the stack has to be unwound. -/
def getPrevFrame : Run Int := do
  let s ← Trapped.state
  Trapped.note (.unwind (t.prevFrame s.own.stackFrame).1)
  Trapped.change fun s => if (t.prevFrame s.own.stackFrame).1 = true then s.lost else s
  pure (t.prevFrame s.own.stackFrame).2

/-- The evaluation of a nested expression, in a frame. -/
def evaluateEntry (evaluate : Run Unit) (frame : StackFrame) (size : Nat) : Run UInt64 :=
  Trapped.inside (fun s => s.begin (entryState s.own frame size)) (fun inner s => { inner with own := s.own }) do
    evaluateVmExpression evaluate
    entryResult t

def entryValue (evaluate : Run Unit) : Run Unit := do
  let frame ← getPrevFrame t
  let size ← readU4leb128 code t
  Trapped.change State.leave
  let error ← Trapped.trap do
    let info ← exceptionOf (t.frameInfo frame)
    let s ← Trapped.state
    Trapped.note (.entry (s.own.code + s.own.codePos) size.toNat)
    let value ← evaluateEntry t evaluate info size.toNat
    push value
  Trapped.change fun s => s.enter { s.own with codePos := s.own.codePos + size.toNat }
  rethrow error

def client (op : UInt8) : Run Unit := do
  Trapped.change State.leave
  Trapped.note (.client t.clientOp.isSome)
  let error ← Trapped.trap (match t.clientOp with
    | some clientOp => exceptionOf (clientOp op)
    | none => Trapped.fault)
  Trapped.change fun s => s.enter s.own
  rethrow error

/-- One operator; `evaluate` is the evaluation of a nested expression. -/
def execute (evaluate : Run Unit) : Op → Run Unit
  | .OP_deref => do
    checkStack 1
    let addr ← stackAt 1
    let s ← Trapped.state
    let value ← readMemory t addr s.own.addrSize
    setStackAt 1 value
  | .OP_deref2 => do
    checkStack 1
    let addr ← stackAt 1
    let value ← readMemory t addr 2
    setStackAt 1 (signed 16 value)
  | .OP_deref_size => do
    checkStack 1
    let addr ← stackAt 1
    let size ← readU1 code
    let value ← readMemory t addr size.toNat
    setStackAt 1 value
  | .OP_const => readIa code >>= push
  | .OP_const1u => readU1 code >>= push
  | .OP_const1s => readU1 code >>= fun n => push (signed 8 n)
  | .OP_const2u => readU2 code >>= push
  | .OP_const2s => readU2 code >>= fun n => push (signed 16 n)
  | .OP_const4u => readU4 code >>= push
  | .OP_const4s => readU4 code >>= fun n => push (signed 32 n)
  | .OP_const8u => readU8 code >>= push
  | .OP_const8s => readU8 code >>= push
  | .OP_constu => readU8leb128 code t >>= push
  | .OP_consts => readI8leb128 code t >>= push
  | .OP_dup => do
    checkStack 1
    let x ← stackAt 1
    push x
  | .OP_drop => do
    checkStack 1
    drop
  | .OP_over => do
    checkStack 2
    let x ← stackAt 2
    push x
  | .OP_pick => do
    let n ← readU1 code
    checkStack (n.toNat + 1)
    let x ← stackAt (n.toNat + 1)
    push x
  | .OP_swap => do
    checkStack 2
    let data ← stackAt 1
    let x ← stackAt 2
    setStackAt 1 x
    setStackAt 2 data
  | .OP_rot => do
    checkStack 3
    let data ← stackAt 1
    let x ← stackAt 2
    setStackAt 1 x
    let x ← stackAt 3
    setStackAt 2 x
    setStackAt 3 data
  | .OP_xderef => do
    checkStack 2
    let addr ← stackAt 1
    let s ← Trapped.state
    let value ← readMemory t addr s.own.addrSize
    setStackAt 2 value
    drop
  | .OP_xderef_size => do
    checkStack 2
    let addr ← stackAt 1
    let size ← readU1 code
    let value ← readMemory t addr size.toNat
    setStackAt 2 value
    drop
  | .OP_abs => unary fun x => if 0x8000000000000000 ≤ x then ~~~x + 1 else x
  | .OP_and => binary (· &&& ·)
  | .OP_div => divide (· / ·)
  | .OP_minus => binary (· - ·)
  | .OP_mod => divide (· % ·)
  | .OP_mul => binary (· * ·)
  | .OP_neg => unary fun x => ~~~x + 1
  | .OP_not => unary fun x => ~~~x
  | .OP_or => binary (· ||| ·)
  | .OP_add | .OP_plus => binary (· + ·)
  | .OP_plus_uconst => do
    checkStack 1
    let x ← stackAt 1
    let n ← readU8leb128 code t
    setStackAt 1 (x + n)
  | .OP_shl => binary fun x y => t.shl x y.toNat
  | .OP_shr => binary fun x y => t.shr x y.toNat
  | .OP_shra => binary shra
  | .OP_xor => binary (· ^^^ ·)
  | .OP_bra => branch code
  | .OP_eq => compare fun x y => x = y
  | .OP_ge => compare fun x y => y ≤ x
  | .OP_gt => compare fun x y => y < x
  | .OP_le => compare fun x y => x ≤ y
  | .OP_lt => compare fun x y => x < y
  | .OP_ne => compare fun x y => x ≠ y
  | .OP_skip => readU2 code >>= jump
  | .OP_lit n => push (UInt64.ofNat n)
  | .OP_regN n => register code t (UInt64.ofNat n) "OP_reg* must be last instruction"
  | .OP_regx => do
    let n ← readU4leb128 code t
    register code t n "OP_regx must be last instruction"
  | .OP_reg => do
    let n ← readUa code
    register code t n "OP_reg must be last instruction"
  | .OP_bregN n => baseRegister t (UInt64.ofNat n) (readI8leb128 code t)
  | .OP_bregx => do
    let n ← readU4leb128 code t
    baseRegister t n (readI8leb128 code t)
  | .OP_basereg => do
    let n ← readUa code
    baseRegister t n (pure 0)
  | .OP_call_frame_cfa => do
    let s ← Trapped.state
    match s.own.stackFrame with
    | none => Trapped.raise (.str ERR_INV_ADDRESS "Stack frame address not available")
    | some frame => push frame.fp
  | .OP_nop => pure ()
  | .OP_push_object_address => do
    let s ← Trapped.state
    match s.own.args with
    | [] => Trapped.raise (.errno ERR_INV_CONT_OBJ)
    | arg :: _ => push arg
  | .OP_piece => do
    addPiece
    let size ← readU4leb128 code t
    setPiece ({ · with size := size.toNat })
  | .OP_bit_piece => do
    addPiece
    let bitSize ← readU4leb128 code t
    setPiece ({ · with bitSize := bitSize.toNat })
    let bitOffs ← readU4leb128 code t
    setPiece ({ · with bitOffs := bitOffs.toNat })
  | .OP_implicit_value => implicitValue code t
  | .OP_stack_value => stackValue code
  | .OP_TCF_switch => tcfSwitch code t evaluate
  | .OP_TCF_offset => tcfOffset code t
  | .OP_GNU_entry_value => entryValue code t evaluate
  | .client op => client t op

/-- An expression has code. -/
def begun (evaluate : Run Unit) : Run Unit := do
  let s ← Trapped.state
  checkDwarf (s.codeLen ≠ 0) "location expression size = 0"
  evaluate

/-- The loop over the code, and over that of nested expressions. -/
def evaluateLoop : Nat → Run Unit
  | 0 => Trapped.unfinished
  | rounds + 1 => do
    let s ← Trapped.state
    if s.codePos < s.codeLen then do
      let op ← nextByte code
      grow
      execute code t (begun (evaluateLoop rounds)) (decode op)
      evaluateLoop rounds
    else pure ()

def evaluateExpression (rounds : Nat) : Run Unit := begun (evaluateLoop code t rounds)

/-- `evaluate_vm_expression`, with a bound on the rounds of its loops. -/
def evaluate (rounds : Nat) (vmState : LocationExpressionState) : List Step × Ended Error State Unit :=
  evaluateVmExpression (evaluateExpression code t rounds)
    (State.begin ⟨vmState,false,none,none,0,0,0,0⟩ vmState)

end Operators

end Tcf.LocationVm
