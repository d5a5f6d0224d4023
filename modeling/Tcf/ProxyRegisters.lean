import Mathlib.Algebra.Order.Ring.Int
import Mathlib.Data.List.Basic

/-! The table of registers of a context, as the proxy makes it from the replies of the target. -/
namespace Tcf.ProxyRegisters

abbrev Text := List UInt8

def bytes (s : String) : Text := s.toUTF8.data.toList

def ERR_OTHER : Int := 0x20000 + 1

structure RegisterDefinition where
  name : Option Text
  role : Option Text
  size : UInt16
  dwarfId : Int16
  ehFrameId : Int16
  bigEndian : UInt8
  deriving DecidableEq, Repr

structure RegisterProps where
  id : Option Text
  regDef : RegisterDefinition
  deriving DecidableEq, Repr

/-- A slot of `reg_props` and `reg_defs`, which differ in the offset of the definition only. -/
structure Slot where
  props : RegisterProps
  offset : UInt32
  deriving DecidableEq, Repr

/-- What `memset` leaves. -/
def zeroed : Slot := ⟨⟨none,none,none,0,0,0,0⟩,0⟩

def Slot.named (s : Slot) : Bool := s.props.regDef.name.isSome

def isDigit (c : UInt8) : Bool := 48 ≤ c && c ≤ 57

/-- The loops of `get_reg_index` after an `R`. -/
def indexLoop (r : UInt32) : Text → Option UInt32
  | [] => none
  | c :: id =>
    if c = 46 ∨ c = 64 then some r
    else if isDigit c then indexLoop (r * 10 + (c - 48).toUInt32) id
    else if c = 82 then indexLoop r id
    else none

def getRegIndex : Text → Option UInt32
  | [] => none
  | c :: id => if c = 82 then indexLoop 0 id else none

inductive Request where
  | getChildren (id : Text)
  | getContext (id : Text)
  deriving DecidableEq, Repr

/-- A reply of the target. `failed` is one with an error, a malformed one, or a channel that is closed. -/
inductive Reply where
  | failed (err : Int)
  | children (ids : List Text)
  | context (props : RegisterProps)
  | other
  deriving DecidableEq, Repr

/-- `faulted` says that memory outside of the table, or at NULL, was used. -/
structure ContextCache where
  pending : Nat
  error : Option Int
  slots : List Slot
  regSize : UInt32
  pcDef : Option Nat
  done : Bool
  sent : List Request
  faulted : Bool
  deriving DecidableEq, Repr

/-- The length of the table for an index; none if it gets shorter or the index is not in it, as lengths are `unsigned`. -/
def grown (regMax i : UInt32) : Option UInt32 :=
  if i < regMax then some regMax
  else
    let longer := if regMax + 256 ≤ i then i + 2 else regMax + 256
    if regMax ≤ longer ∧ i < longer then some longer else none

def regMax (slots : List Slot) : UInt32 := UInt32.ofNat slots.length

def ContextCache.fault (c : ContextCache) : ContextCache := { c with faulted := true }

def ContextCache.put (c : ContextCache) (id : Text) (i : UInt32) (props : RegisterProps) : ContextCache :=
  match grown (regMax c.slots) i with
  | none => c.fault
  | some n =>
    let slots := c.slots ++ List.replicate (n.toNat - c.slots.length) zeroed
    { c with slots := slots.set i.toNat ⟨props,0⟩, pending := c.pending + 1, sent := c.sent ++ [.getChildren id] }

/-- A reply to `Registers.getContext`. -/
def ContextCache.receive (c : ContextCache) (props : RegisterProps) : ContextCache :=
  match props.id with
  | none => c.fault
  | some id =>
    match getRegIndex id with
    | none => { c with error := some ERR_OTHER }
    | some i => c.put id i props

/-- The replies, while there is no error. -/
def answer (c : ContextCache) : Reply → ContextCache
  | .failed err => { c with error := some err }
  | .children ids =>
    let ids := ids.filter (· ≠ [])
    { c with pending := c.pending + ids.length, sent := c.sent ++ ids.map .getContext }
  | .context props => c.receive props
  | .other => c

/-- The offsets of the registers that have names, one after the other. -/
def setOffsets (offs : UInt32) : List Slot → List Slot
  | [] => []
  | s :: rest =>
    if s.named then { s with offset := offs } :: setOffsets (offs + s.props.regDef.size.toUInt32) rest
    else s :: setOffsets offs rest

def endOffset (offs : UInt32) : List Slot → UInt32
  | [] => offs
  | s :: rest => endOffset (if s.named then offs + s.props.regDef.size.toUInt32 else offs) rest

/-- The last register with the role. -/
def findPC (slots : List Slot) : Option Nat :=
  (List.range slots.length).reverse.find? fun i => (slots[i]?.bind (·.props.regDef.role)) = some (bytes "PC")

def finish (c : ContextCache) : ContextCache :=
  { c with slots := setOffsets 0 c.slots, regSize := endOffset 0 c.slots, pcDef := findPC c.slots, done := true }

/-- One reply; none if no request waits for it. -/
def validateRegistersCache (c : ContextCache) (reply : Reply) : Option ContextCache :=
  if c.pending = 0 then none
  else
    let c := { c with pending := c.pending - 1 }
    let c := if c.error.isSome then c else answer c reply
    some (if c.pending = 0 then finish c else c)

/-- After the first request. -/
def start (id : Text) : ContextCache := ⟨1,none,[],0,none,false,[.getChildren id],false⟩

def run (c : ContextCache) (replies : List Reply) : Option ContextCache := replies.foldlM validateRegistersCache c

/-- The registers that a caller visits who looks for one, until there is no name; none if the caller leaves the table. -/
def walk : List Slot → Option Nat
  | [] => none
  | s :: rest => if s.named then (walk rest).map (· + 1) else some 0

/-- The registers that replies carry. -/
def received : List Reply → List RegisterProps
  | [] => []
  | .context props :: rest => props :: received rest
  | _ :: rest => received rest

end Tcf.ProxyRegisters
