import Tcf.FrameInfo
import Tcf.LineMachine

/-! Call frame instructions, and the tables of rules that they stand for in the DWARF standard. -/
namespace Tcf.Frames

open Dwarf ByteNumbers

section Encoding

/-- A block of bytes behind its length -/
structure Block where
  size : Leb
  bytes : List UInt8
  sized : size.unsigned = bytes.length
  deriving DecidableEq, Repr

/-- All instructions but DW_CFA_set_loc. The last two are GNU's. -/
inductive FrameInstruction where
  | nop
  | advanceLoc (delta : Fin 64)
  | advanceLoc1 (delta : UInt8)
  | advanceLoc2 (delta : UInt16)
  | advanceLoc4 (delta : UInt32)
  | offset (reg : Fin 64) (n : Leb)
  | offsetExtended (reg n : Leb)
  | offsetExtendedSf (reg n : Leb)
  | valOffset (reg n : Leb)
  | valOffsetSf (reg n : Leb)
  | register (reg source : Leb)
  | expression (reg : Leb) (block : Block)
  | valExpression (reg : Leb) (block : Block)
  | undefined (reg : Leb)
  | sameValue (reg : Leb)
  | restore (reg : Fin 64)
  | restoreExtended (reg : Leb)
  | rememberState
  | restoreState
  | defCfa (reg n : Leb)
  | defCfaSf (reg n : Leb)
  | defCfaRegister (reg : Leb)
  | defCfaOffset (n : Leb)
  | defCfaOffsetSf (n : Leb)
  | defCfaExpression (block : Block)
  | argsSize (n : Leb)
  | negativeOffsetExtended (reg n : Leb)
  deriving DecidableEq, Repr

def Block.encoded (block : Block) : List UInt8 := block.size.bytes ++ block.bytes

namespace FrameInstruction

def opcode : FrameInstruction → Nat
  | nop => 0x00
  | advanceLoc delta => 0x40 + delta.val
  | advanceLoc1 _ => 0x02
  | advanceLoc2 _ => 0x03
  | advanceLoc4 _ => 0x04
  | offset reg _ => 0x80 + reg.val
  | offsetExtended _ _ => 0x05
  | offsetExtendedSf _ _ => 0x11
  | valOffset _ _ => 0x14
  | valOffsetSf _ _ => 0x15
  | register _ _ => 0x09
  | expression _ _ => 0x10
  | valExpression _ _ => 0x16
  | undefined _ => 0x07
  | sameValue _ => 0x08
  | restore reg => 0xc0 + reg.val
  | restoreExtended _ => 0x06
  | rememberState => 0x0a
  | restoreState => 0x0b
  | defCfa _ _ => 0x0c
  | defCfaSf _ _ => 0x12
  | defCfaRegister _ => 0x0d
  | defCfaOffset _ => 0x0e
  | defCfaOffsetSf _ => 0x13
  | defCfaExpression _ => 0x0f
  | argsSize _ => 0x2e
  | negativeOffsetExtended _ _ => 0x2f

def operands (big : Bool) : FrameInstruction → List UInt8
  | advanceLoc1 delta => [delta]
  | advanceLoc2 delta => bytesOf big 2 delta.toNat
  | advanceLoc4 delta => bytesOf big 4 delta.toNat
  | offset _ n | defCfaOffset n | defCfaOffsetSf n | argsSize n => n.bytes
  | offsetExtended reg n | offsetExtendedSf reg n | valOffset reg n | valOffsetSf reg n | register reg n | defCfa reg n | defCfaSf reg n
    | negativeOffsetExtended reg n => reg.bytes ++ n.bytes
  | expression reg block | valExpression reg block => reg.bytes ++ block.encoded
  | undefined reg | sameValue reg | restoreExtended reg | defCfaRegister reg => reg.bytes
  | defCfaExpression block => block.encoded
  | nop | advanceLoc _ | restore _ | rememberState | restoreState => []

def bytes (big : Bool) (i : FrameInstruction) : List UInt8 := UInt8.ofNat i.opcode :: i.operands big

/-- Registers have numbers of 32 bits, and blocks less than 2 GiB. -/
def Fits : FrameInstruction → Prop
  | offsetExtended reg _ | offsetExtendedSf reg _ | valOffset reg _ | valOffsetSf reg _ | negativeOffsetExtended reg _ | defCfa reg _ | defCfaSf reg _
    | undefined reg | sameValue reg | restoreExtended reg | defCfaRegister reg => reg.unsigned < 2 ^ 32
  | register reg source => reg.unsigned < 2 ^ 32 ∧ source.unsigned < 2 ^ 32
  | expression reg block | valExpression reg block => reg.unsigned < 2 ^ 32 ∧ block.bytes.length < 2 ^ 31
  | defCfaExpression block => block.bytes.length < 2 ^ 31
  | nop | advanceLoc _ | advanceLoc1 _ | advanceLoc2 _ | advanceLoc4 _ | offset _ _ | restore _ | rememberState | restoreState | defCfaOffset _
    | defCfaOffsetSf _ | argsSize _ => True

/-- A register that has rules in the code -/
def Indexed (reg : Leb) : Prop := Short 32 reg ∧ reg.unsigned < 2 ^ 30

/-- Operands have at most five bytes in LEB128, and registers with rules have numbers below 2^30. -/
def Readable : FrameInstruction → Prop
  | offset _ n | defCfaOffset n | defCfaOffsetSf n | argsSize n => Short 32 n
  | offsetExtended reg n | offsetExtendedSf reg n | valOffset reg n | valOffsetSf reg n | register reg n | negativeOffsetExtended reg n =>
    Indexed reg ∧ Short 32 n
  | defCfa reg n | defCfaSf reg n => Short 32 reg ∧ Short 32 n
  | expression reg block | valExpression reg block => Indexed reg ∧ Short 32 block.size
  | undefined reg | sameValue reg | restoreExtended reg => Indexed reg
  | defCfaRegister reg => Short 32 reg
  | defCfaExpression block => Short 32 block.size
  | nop | advanceLoc _ | advanceLoc1 _ | advanceLoc2 _ | advanceLoc4 _ | restore _ | rememberState | restoreState => True

end FrameInstruction

end Encoding

section Standard

/-- Offsets are numbers of 32 bits. -/
inductive RegisterRule where
  | undefined
  | sameValue
  | offset (n : Int)
  | valOffset (n : Int)
  | register (reg : Nat)
  | expression (block : List UInt8)
  | valExpression (block : List UInt8)
  deriving DecidableEq, Repr

inductive CfaRule where
  | none
  | registerOffset (reg : Nat) (n : Int)
  | expression (block : List UInt8)
  deriving DecidableEq, Repr

/-- The rules of a row, without its location -/
structure Row where
  cfa : CfaRule
  rule : Nat → RegisterRule

structure TableState where
  row : Row
  stack : List Row

/-- The factors of a CIE, and the rules of the registers before any instruction. -/
structure Setting where
  code : Nat
  data : Int
  implied : Nat → RegisterRule

def word (n : Int) : Int := toI4 (n % 2 ^ 32).toNat

namespace TableState

def setRule (m : TableState) (reg : Nat) (rule : RegisterRule) : TableState :=
  { m with row.rule := fun n => if n = reg then rule else m.row.rule n }

def setCfa (m : TableState) (cfa : CfaRule) : TableState := { m with row.cfa := cfa }

end TableState

/-- The locations that an instruction goes forward, before they are scaled -/
def FrameInstruction.advance : FrameInstruction → Option Nat
  | advanceLoc delta => some delta.val
  | advanceLoc1 delta => some delta.toNat
  | advanceLoc2 delta => some delta.toNat
  | advanceLoc4 delta => some delta.toNat
  | _ => none

/-- What an instruction does with the rules; `initial` is what registers are restored to. `none` is for an instruction that is not valid in this place. -/
def step (f : Setting) (initial : Nat → RegisterRule) (m : TableState) : FrameInstruction → Option TableState
  | .nop | .advanceLoc _ | .advanceLoc1 _ | .advanceLoc2 _ | .advanceLoc4 _ | .argsSize _ => some m
  | .offset reg n => some (m.setRule reg.val (.offset (word (n.unsigned * f.data))))
  | .offsetExtended reg n => some (m.setRule reg.unsigned (.offset (word (n.unsigned * f.data))))
  | .offsetExtendedSf reg n => some (m.setRule reg.unsigned (.offset (word (n.signed * f.data))))
  | .negativeOffsetExtended reg n => some (m.setRule reg.unsigned (.offset (word (-n.signed * f.data))))
  | .valOffset reg n => some (m.setRule reg.unsigned (.valOffset (word (n.unsigned * f.data))))
  | .valOffsetSf reg n => some (m.setRule reg.unsigned (.valOffset (word (n.signed * f.data))))
  | .register reg source => some (m.setRule reg.unsigned (.register source.unsigned))
  | .expression reg block => some (m.setRule reg.unsigned (.expression block.bytes))
  | .valExpression reg block => some (m.setRule reg.unsigned (.valExpression block.bytes))
  | .undefined reg => some (m.setRule reg.unsigned .undefined)
  | .sameValue reg => some (m.setRule reg.unsigned .sameValue)
  | .restore reg => some (m.setRule reg.val (initial reg.val))
  | .restoreExtended reg => some (m.setRule reg.unsigned (initial reg.unsigned))
  | .rememberState => some { m with stack := m.row :: m.stack }
  | .restoreState =>
    match m.stack with
    | [] => none
    | row :: stack => some ⟨row,stack⟩
  | .defCfa reg n => some (m.setCfa (.registerOffset reg.unsigned (word n.unsigned)))
  | .defCfaSf reg n => some (m.setCfa (.registerOffset reg.unsigned (word (n.signed * f.data))))
  | .defCfaRegister reg =>
    match m.row.cfa with
    | .registerOffset _ n => some (m.setCfa (.registerOffset reg.unsigned n))
    | _ => none
  | .defCfaOffset n =>
    match m.row.cfa with
    | .registerOffset reg _ => some (m.setCfa (.registerOffset reg (word n.unsigned)))
    | _ => none
  | .defCfaOffsetSf n =>
    match m.row.cfa with
    | .registerOffset reg _ => some (m.setCfa (.registerOffset reg (word (n.signed * f.data))))
    | _ => none
  | .defCfaExpression block => some (m.setCfa (.expression block.bytes))

/-- A location goes forward by a scaled number of 32 bits. -/
def scaledDelta (f : Setting) (i : FrameInstruction) : Nat := i.advance.getD 0 * f.code % 2 ^ 32

/-- The rows of a table with their locations. An instruction that goes forward ends a row. -/
def table (f : Setting) (initial : Nat → RegisterRule) (location : Nat) (m : TableState) : List FrameInstruction → Option (List (Nat × Row))
  | [] => some [(location,m.row)]
  | i :: later => do
    let next ← step f initial m i
    let rows ← table f initial (location + scaledDelta f i) next later
    pure (if i.advance.isSome then (location,m.row) :: rows else rows)

/-- The rules behind the instructions of a CIE. The rules that a restored register gets there are the implied ones. -/
def initialRow (f : Setting) (cie : List FrameInstruction) : Option Row :=
  (cie.foldlM (step f f.implied) ⟨⟨.none,f.implied⟩,[]⟩).map TableState.row

/-- The last row with a location up to `ip` -/
def rowFor (ip : Nat) (rows : List (Nat × Row)) : Option Row := ((rows.filter fun row => row.1 ≤ ip).getLast?).map Prod.snd

/-- The instructions up to the first that goes beyond `ip`. -/
def executed (f : Setting) (ip location : Nat) : List FrameInstruction → List FrameInstruction
  | [] => []
  | i :: later => if location + scaledDelta f i > ip then [i] else i :: executed f ip (location + scaledDelta f i) later

section Rows

variable {f : Setting} {initial : Nat → RegisterRule} {location ip : Nat} {m : TableState} {rows : List (Nat × Row)} {row : Row}

/-- Locations do not go back. -/
theorem table_later {program : List FrameInstruction} (valid : table f initial location m program = some rows) : ∀ row ∈ rows, location ≤ row.1 := by
  induction program generalizing location m rows with
  | nil =>
    cases valid
    simp
  | cons i later ih =>
    simp only [table,Option.bind_eq_bind,Option.bind_eq_some_iff,Option.pure_def,Option.some.injEq] at valid
    obtain ⟨next,_,others,valid,same⟩ := valid
    have beyond := ih valid
    intro row member
    have behind : row ∈ others → location ≤ row.1 := fun member => Nat.le_of_add_right_le (beyond row member)
    rw [← same] at member
    split at member
    · rcases List.mem_cons.mp member with rfl | member
      · exact Nat.le_refl _
      · exact behind member
    · exact behind member

theorem rowFor_later (first : Nat × Row) (found : rowFor ip rows = some row) : rowFor ip (first :: rows) = some row := by
  unfold rowFor at found ⊢
  rw [Option.map_eq_some_iff] at found ⊢
  obtain ⟨last,found,same⟩ := found
  refine ⟨last,?_,same⟩
  rw [List.filter_cons]
  split
  · rw [List.getLast?_cons,found]
    rfl
  · exact found

theorem rowFor_first (before : location ≤ ip) (beyond : ∀ row ∈ rows, ip < row.1) : rowFor ip ((location,row) :: rows) = some row := by
  have none : rows.filter (fun row => row.1 ≤ ip) = [] := by
    rw [List.filter_eq_nil_iff]
    intro row member
    have later := beyond row member
    simp only [decide_eq_true_eq]
    omega
  unfold rowFor
  rw [List.filter_cons,none]
  simp [before]

end Rows

end Standard

end Tcf.Frames
