import Tcf.JsonStruct
import Tcf.ProxyRegisters

/-! Registers of a stack frame: the proxy asks for the values of all of them at once, and takes the reply apart. -/
namespace Tcf.ProxyRegisters

open Framing Json

/-- A register of the frame: a pointer into the table of the context. -/
structure Child where
  index : Nat
  slot : Slot
  deriving DecidableEq, Repr

def Child.size (r : Child) : Nat := r.slot.props.regDef.size.toNat

def Child.offset (r : Child) : Nat := r.slot.offset.toNat

def Child.address (r : Child) (j : Nat) : Nat := r.offset + j

/-- Registers with values that have a DWARF ID or a role. -/
def Child.listed (r : Child) : Bool :=
  decide (0 < r.size) && (decide (0 ≤ r.slot.props.regDef.dwarfId) || r.slot.props.regDef.role.isSome)

/-- The loop of `validate_reg_children_cache`; none if a pointer is not into the table. -/
def children (slots : List Slot) (indices : List UInt32) : Option (List Child) :=
  indices.mapM fun r => slots[r.toNat]?.map fun slot => ⟨r.toNat,slot⟩

section Request

/-- `%d` -/
def printInt (n : Int) : Text := if n < 0 then 45 :: decimal n.natAbs else decimal n.toNat

/-- The buffer of the ID has 256 bytes. -/
def register2id (ctx : Text) (frame : Nat) (r : Child) : Text :=
  ([82] ++ printInt (Int.bmod r.index (2 ^ 32)) ++ [64] ++ decimal frame ++ [46] ++ ctx).take 255

def locationText (ctx : Text) (frame : Nat) (r : Child) : Text :=
  [91] ++ quoted (register2id ctx frame r) ++ [comma] ++ decimal 0 ++ [comma] ++ decimal r.size ++ [93]

/-- The loop of `read_reg_bytes`, from the register with an index on. -/
def writeLocations (ctx : Text) (frame : Nat) : Nat → List Child → Text
  | _, [] => []
  | n, r :: rest =>
    (if r.listed then (if n > 0 then [comma] else []) ++ locationText ctx frame r else []) ++
      writeLocations ctx frame (n + 1) rest

/-- The arguments of `Registers.getm`. -/
def requestText (ctx : Text) (frame : Nat) (rs : List Child) : Text :=
  [91] ++ writeLocations ctx frame 0 rs ++ [93]

end Request

section Reply

/-- The blocks that the registers of the frame are in. -/
structure RegisterData where
  data : Nat → UInt8
  mask : Nat → UInt8

def RegisterData.zero : RegisterData := ⟨fun _ => 0,fun _ => 0⟩

/-- Bytes that are read, and their mask. -/
def RegisterData.put (d : RegisterData) (start : Nat) (bytes : List UInt8) : RegisterData where
  data a := if start ≤ a then bytes.getD (a - start) (d.data a) else d.data a
  mask a := if start ≤ a ∧ a < start + bytes.length then 0xff else d.mask a

/-- The loop over the bytes of a register. -/
def readRegister (r : Child) : Nat → Nat → Reader → RegisterData → Code (Reader × RegisterData)
  | 0, _, _, _ => .error .stuck
  | fuel + 1, pos, st, d =>
    if pos < r.size then do
      let (bytes,st) ← jsonReadBinaryData st (r.size - pos)
      require (pos + bytes.length ≤ r.size)
      let d := d.put (r.address pos) bytes
      if bytes = [] then pure (st,d) else readRegister r fuel (pos + bytes.length) st d
    else pure (st,d)

/-- The loop over the registers. -/
def readRegisters (regSize : Nat) : List Child → Reader → RegisterData → Code (Reader × RegisterData)
  | [], st, d => pure (st,d)
  | r :: rest, st, d =>
    if r.listed then do
      require (r.offset + r.size ≤ regSize)
      let (st,d) ← readRegister r (r.size + 1) 0 st d
      readRegisters regSize rest st d
    else readRegisters regSize rest st d

/-- `validate_mid_frame_reg_values_cache` behind the error of the reply: what the frame has then, and how the reading
ends. -/
def validateMidFrameRegValuesCache (regSize : Nat) (rs : List Child) (inp : Input) : Code (RegisterData × Code Input) := do
  let st ← jsonReadBinaryStart inp
  let (st,d) ← readRegisters regSize rs st RegisterData.zero
  pure (d,do
    let inp ← jsonReadBinaryEnd st
    let inp ← jsonTestChar 0 inp
    jsonTestEom inp)

end Reply

end Tcf.ProxyRegisters
