import Tcf.LineNumbers

/-! The rows of a unit in the order of their addresses, and the index of them by their places in the text. -/
namespace Tcf.Dwarf

/-- Less, equal or greater. -/
def stateAddressComparator (s1 s2 : LineNumbersState) : Ordering :=
  (compare s1.sect s2.sect).then <| (compare s1.address s2.address).then <|
    if (s1.flags ^^^ s2.flags) &&& LINE_EndSequence ≠ 0 then
      if s1.flags &&& LINE_EndSequence ≠ 0 then .lt else .gt
    else (compare s1.file s2.file).then <| (compare s1.line s2.line).then <| compare s1.column s2.column

def stateTextPosComparator (s1 s2 : LineNumbersState) : Ordering :=
  (compare s1.file s2.file).then <| (compare s1.line s2.line).then <| (compare s1.column s2.column).then <|
    (compare s1.sect s2.sect).then <| compare s1.address s2.address

/-- The addresses and the sections may differ. -/
def sameRow (s1 s2 : LineNumbersState) : Bool :=
  s1.file = s2.file ∧ s1.line = s2.line ∧ s1.column = s2.column ∧ s1.flags = s2.flags ∧ s1.isa = s2.isa ∧
    s1.opIndex = s2.opIndex ∧ s1.discriminator = s2.discriminator

/-- Of neighbours that are the same, the first one stays. -/
def dropRepeats : List LineNumbersState → List LineNumbersState
  | [] => []
  | [s1] => [s1]
  | s1 :: s2 :: rest => if sameRow s1 s2 then dropRepeats (s1 :: rest) else s1 :: dropRepeats (s2 :: rest)
termination_by states => states.length

/-- A pointer into `mStates`: a place, and the row that is there. -/
structure Row where
  place : Nat
  state : LineNumbersState
  deriving DecidableEq, Repr

/-- `mStates`, `mStatesIndex` and, for each row, `mStatesIndexPos`. -/
structure Rows where
  states : List LineNumbersState
  index : List Row
  indexPos : List Nat
  deriving DecidableEq, Repr

def noRows : Rows := ⟨[],[],[]⟩

def rowsOf (states : List LineNumbersState) : List Row := states.zipIdx.map fun p => ⟨p.2,p.1⟩

def computeStatesIndex (states : List LineNumbersState) : Rows :=
  let states := dropRepeats (states.mergeSort fun s1 s2 => (stateAddressComparator s1 s2).isLE)
  let index := (rowsOf states).mergeSort fun r1 r2 => (stateTextPosComparator r1.state r2.state).isLE
  ⟨states,index,(rowsOf states).map fun row => index.idxOf row⟩

end Tcf.Dwarf
