import Mathlib.Algebra.Order.Ring.Int
import Mathlib.Data.List.Basic

/-! Indexing of array values: `op_index` and the part of `load_value` that it rests on.
Positions are counted in the loaded value, so that a result says where it has been taken from. -/
namespace Tcf.ArrayIndex

section Values

inductive TypeClass where
  | unknown | cardinal | integer | real | pointer | memberPointer | array | composite | enumeration | function
  deriving DecidableEq, Repr

/-- An error report: `none` is `ERR_INV_EXPRESSION`, otherwise the `errno` of the call that failed. -/
structure Raise where
  code : Option Nat
  text : String
  deriving DecidableEq, Repr

inductive Stop where
  | raised (error : Raise)
  /-- Memory outside of the loaded value, or of the element's buffer, is used. -/
  | outside
  /-- A loop does not end. -/
  | endless
  deriving DecidableEq, Repr

abbrev Code := Except Stop

/-- What the symbols service says of the element type -/
structure ElementType where
  typeClass : Except Nat TypeClass
  size : Except Nat UInt64

/-- What it says of the array type -/
structure ArrayType where
  baseType : Except Nat (Option ElementType)
  size : Except Nat UInt64
  lowerBound : Except Nat Int64
  bitStride : Except Nat UInt32

inductive Storage where
  | remote (address : UInt64)
  | held (value : List UInt8)
  | pieces (read : Except Raise (List UInt8))

/-- A value of class array; `symbol` is the answer to `get_symbol_size` where it has a symbol. -/
structure ArrayValue where
  type : Option ArrayType
  storage : Storage
  size : UInt64
  symbol : Option (Except Nat UInt64)
  bigEndian : Bool

end Values

section Loading

def invalid {α : Type} (text : String) : Code α := .error (.raised ⟨none,text⟩)

/-- A call that sets `errno` -/
def asked {α : Type} (answer : Except Nat α) (text : String) : Code α :=
  match answer with
  | .ok a => .ok a
  | .error code => .error (.raised ⟨some code,text⟩)

/-- `context_read_mem` -/
def readMem (memory : UInt64 → Except Nat UInt8) (address size : UInt64) : Except Nat (List UInt8) :=
  (List.range size.toNat).mapM fun k => memory (address + UInt64.ofNat k)

/-- `sign_extend` on an array: a value that is shorter than its type gets zeros. -/
def signExtend (bigEndian : Bool) (typeSize : UInt64) (value : List UInt8) : List UInt8 :=
  let zeros := List.replicate (typeSize.toNat - value.length) 0
  if bigEndian then zeros ++ value else value ++ zeros

/-- `load_value` -/
def loadValue (memory : UInt64 → Except Nat UInt8) (type : ArrayType) (v : ArrayValue) : Code (List UInt8) :=
  match v.storage with
  | .remote address => asked (readMem memory address v.size) "Can't read variable value"
  | .held value => .ok value
  | .pieces (.error raise) => .error (.raised raise)
  | .pieces (.ok value) => do
    let typeSize ← asked type.size "Cannot retrieve value type size"
    return signExtend v.bigEndian typeSize (value.take v.size.toNat)

/-- What there is to take from a loaded value -/
structure Access where
  loaded : List UInt8
  typeClass : TypeClass
  size : UInt64
  distance : Nat
  stride : UInt32
  deriving DecidableEq, Repr

inductive Place where
  | remote (address : UInt64)
  | loaded (access : Access)

/-- The check of the lower bound; there is none of an upper bound. -/
def checkIndex (index lowerBound : Int64) : Code Unit := if index < lowerBound then invalid "Invalid index" else .ok ()

/-- The size of a value with a symbol need not be known before. -/
def ArrayValue.knownSize (v : ArrayValue) : Code UInt64 :=
  match v.symbol with
  | some answer => if v.size = 0 then asked answer "Cannot retrieve symbol size" else .ok v.size
  | none => .ok v.size

/-- `op_index` up to the element; `index` is the index expression, whose value may be no integer. -/
def access (memory : UInt64 → Except Nat UInt8) (v : ArrayValue) (index : Except Raise (Except Raise Int64)) : Code Place := do
  let index ← index.mapError .raised
  let some type := v.type | invalid "Value type is unknown"
  let some element ← asked type.baseType "Cannot get array element type" | invalid "Array element type is unknown"
  let typeClass ← asked element.typeClass "Cannot get type class of the array element"
  let size ← asked element.size "Cannot get array element size"
  let index ← index.mapError .raised
  let lowerBound ← asked type.lowerBound "Cannot get array lower bound"
  checkIndex index lowerBound
  let bitStride ← asked type.bitStride "Cannot get array type properties"
  -- the unsigned difference, which has no overflow above the lower bound
  let distance := (index.toInt - lowerBound.toInt).toNat
  match v.storage, bitStride with
  | .remote address, 0 => return .remote (address + UInt64.ofNat distance * size)
  | _, _ =>
    let size' ← v.knownSize
    let loaded ← loadValue memory type { v with size := size' }
    return .loaded ⟨loaded,typeClass,size,distance,bitStride⟩

end Loading

section Taking

/-- Bit `k` of a value, its bytes in order, the lowest bit of each first -/
def bitOf (value : List UInt8) (k : Nat) : Bool := value[k / 8]?.any fun b => b.toNat.testBit (k % 8)

/-- `buf[x / 8] |= 1 << (x % 8)` -/
def writeBit (buf : List UInt8) (x : Nat) : Code (List UInt8) :=
  match buf[x / 8]? with
  | some b => .ok (buf.set (x / 8) (b ||| 1 <<< UInt8.ofNat (x % 8)))
  | none => .error .outside

/-- The bit of the value that round `x` of the loop reads -/
def Access.position (a : Access) (x : Nat) : Nat := (x + a.distance * a.stride.toNat % 2 ^ 64) % 2 ^ 32

/-- The first rounds of the loop over the bits -/
def Access.copyBits (a : Access) : Nat → Code (List UInt8)
  | 0 => .ok (List.replicate a.size.toNat 0)
  | x+1 => do
    let buf ← a.copyBits x
    match a.loaded[a.position x / 8]? with
    | some b => if b.toNat.testBit (a.position x % 8) then writeBit buf x else .ok buf
    | none => .error .outside

/-- The first rounds of the loop that extends the sign -/
def Access.extendSign (a : Access) (buf : List UInt8) : Nat → Code (List UInt8)
  | 0 => .ok buf
  | n+1 => do
    let buf ← a.extendSign buf n
    writeBit buf (a.stride.toNat + n)

/-- The end of that loop; its counter has 32 bits. -/
def Access.bitCount (a : Access) : Nat := a.size.toNat * 8 % 2 ^ 64

def Access.signed (a : Access) (buf : List UInt8) : Code (List UInt8) :=
  match buf[(a.stride.toNat - 1) / 8]? with
  | some b =>
    if b.toNat.testBit ((a.stride.toNat - 1) % 8) then
      if 2 ^ 32 ≤ a.bitCount then .error .endless else a.extendSign buf (a.bitCount - a.stride.toNat)
    else .ok buf
  | none => .error .outside

/-- Only `TYPE_CLASS_INTEGER` is extended. -/
def Access.extended (a : Access) (buf : List UInt8) : Code (List UInt8) :=
  if a.typeClass = .integer then a.signed buf else .ok buf

inductive Element where
  | remote (address : UInt64)
  | bytes (offset : Nat) (value : List UInt8)
  | bits (taken : List Nat) (value : List UInt8)
  deriving DecidableEq, Repr

/-- The element of a loaded value -/
def Access.take (a : Access) : Code Element :=
  if a.stride = 0 then
    let offset := a.distance * a.size.toNat % 2 ^ 64
    if offset + a.size.toNat ≤ a.loaded.length then .ok (.bytes offset ((a.loaded.drop offset).take a.size.toNat))
    else .error .outside
  else do
    let buf ← a.copyBits a.stride.toNat
    let buf ← a.extended buf
    return .bits ((List.range a.stride.toNat).map a.position) buf

/-- `op_index` on an array; `set_value_scale`, which it ends with, looks at types only. -/
def opIndex (memory : UInt64 → Except Nat UInt8) (v : ArrayValue) (index : Except Raise (Except Raise Int64)) : Code Element := do
  match ← access memory v index with
  | .remote address => return .remote address
  | .loaded a => a.take

end Taking

end Tcf.ArrayIndex
