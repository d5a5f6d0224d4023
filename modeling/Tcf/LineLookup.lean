import Tcf.Base.Bisection
import Tcf.CodeAreas
import Tcf.LineIndex
import Tcf.PathMap

/-! Code areas of a line, and of addresses: binary searches in the rows of a unit, and walks from where they end. -/
namespace Tcf.Dwarf

open Bisection CodeAreas PathMap

/-- The first row of the index, behind those of the same place in the text. -/
def getNextInText (rows : Rows) (row : Row) : Option Row :=
  match (rows.index.drop (rows.indexPos.getD row.place 0 + 1)).find? fun next =>
      ¬(next.state.line = row.state.line ∧ next.state.column = row.state.column) with
  | none => none
  | some next => if row.state.file ≠ next.state.file then none else some next

/-- The rows behind a row, the first of which has the place `place`. -/
def nextInCode (state : LineNumbersState) : Nat → List LineNumbersState → Option Row
  | _, [] => none
  | place, next :: rest =>
    if next.file ≠ state.file ∨ next.line ≠ state.line ∨ next.column ≠ state.column then some ⟨place,next⟩
    else if next.sect ≠ state.sect then none
    else if next.flags ≠ state.flags ∨ next.isa ≠ state.isa ∨ next.opIndex ≠ state.opIndex ∨ next.discriminator ≠ state.discriminator ∨
      rest = [] then some ⟨place,next⟩
    else nextInCode state (place + 1) rest

def getNextInCode (rows : Rows) (row : Row) : Option Row :=
  if row.state.flags &&& LINE_EndSequence ≠ 0 then none
  else nextInCode row.state (row.place + 1) (rows.states.drop (row.place + 1))

/-- What `call_client` is called with. -/
structure ClientCall where
  state : Row
  codeNext : Row
  textNext : Option Row
  stateAddr : Nat
  deriving DecidableEq, Repr

/-- A unit, and the run-time addresses of its file. -/
structure LineTable where
  unit : CompUnit
  rows : Rows
  toRunTime : Nat → Nat → Nat

/-- `FILE_PATH_SIZE` -/
def filePathSize : Nat := 4096

/-- The directory and the name of the file of an area. -/
def areaFile (unit : CompUnit) (file : FileInfo) : Option Text × Option Text :=
  match file.name, file.dir with
  | some name, some dir =>
    if isAbsolutePath name then (unit.dir,some name)
    else if isAbsolutePath dir then (some dir,some name)
    else (unit.dir,some ((dir ++ slash :: name).take (filePathSize - 1)))
  | name, _ => (unit.dir,name)

/-- Where the text of a row ends when no other place follows: with its line. -/
def textEnd (row : Row) : Option Row → Nat × Nat
  | some next => (next.state.line,next.state.column)
  | none => ((row.state.line + 1) % 2 ^ 32,0)

/-- The area that the client gets. -/
def ClientCall.area (t : LineTable) (call : ClientCall) : CodeArea Text :=
  let state := call.state.state
  let file := t.unit.files.getD state.file ⟨none,none,0,0,0⟩
  let stop := textEnd call.state call.textNext
  { (CodeArea.zero : CodeArea Text) with
    directory := (areaFile t.unit file).1
    file := (areaFile t.unit file).2
    fileMtime := BitVec.ofNat 32 file.modTime
    fileSize := BitVec.ofNat 32 file.size
    startAddress := BitVec.ofNat 64 call.stateAddr
    startLine := BitVec.ofNat 32 state.line
    startColumn := BitVec.ofNat 32 state.column
    endAddress := BitVec.ofNat 64 call.codeNext.state.address - BitVec.ofNat 64 state.address + BitVec.ofNat 64 call.stateAddr
    endLine := BitVec.ofNat 32 stop.1
    endColumn := BitVec.ofNat 32 stop.2
    nextAddress := match call.textNext with
      | none => 0
      | some next =>
        if next.state.sect = state.sect then
          BitVec.ofNat 64 next.state.address - BitVec.ofNat 64 state.address + BitVec.ofNat 64 call.stateAddr
        else BitVec.ofNat 64 (t.toRunTime next.state.sect next.state.address)
    isa := BitVec.ofNat 32 state.isa
    isStatement := state.flags &&& LINE_IsStmt ≠ 0
    basicBlock := state.flags &&& LINE_BasicBlock ≠ 0
    prologueEnd := state.flags &&& LINE_PrologueEnd ≠ 0
    epilogueBegin := state.flags &&& LINE_EpilogueBegin ≠ 0
    opIndex := BitVec.ofNat 32 state.opIndex
    discriminator := BitVec.ofNat 32 state.discriminator }

/-- The client is called unless there is no row behind in the code. The name of the file is looked into. -/
def callClient (t : LineTable) (state : Row) (codeNext textNext : Option Row) (stateAddr : Nat) : Code (List ClientCall) :=
  match codeNext with
  | none => pure []
  | some next => do
    require (state.state.sect = next.state.sect)
    match (t.unit.files[state.state.file]?).bind FileInfo.name with
    | none => .error .fault
    | some _ => pure [⟨state,next,textNext,stateAddr⟩]

/-- Of two places in the text, lines and columns. -/
def textBefore (a b : Nat × Nat) : Prop := a.1 < b.1 ∨ (a.1 = b.1 ∧ a.2 < b.2)

instance (a b : Nat × Nat) : Decidable (textBefore a b) := inferInstanceAs (Decidable (a.1 < b.1 ∨ (a.1 = b.1 ∧ a.2 < b.2)))

def Row.pos (row : Row) : Nat × Nat := (row.state.line,row.state.column)

section Text

variable (rows : Rows) (file line column : Nat)

/-- Where a row of the index is, seen from the place that is looked up. -/
def probeText (k : Nat) : Ordering :=
  match rows.index[k]? with
  | none => .gt
  | some row =>
    if row.state.file < file then .lt
    else if row.state.file > file ∨ textBefore (line,column) row.pos then .gt
    else if textBefore (line,column) (textEnd row (getNextInText rows row)) then .eq
    else .lt

/-- The first row with the place of `row`, of those up to the place `k` of the index. -/
def firstInText (row : Row) : Nat → Nat
  | 0 => 0
  | k+1 => match rows.index[k]? with
    | none => k + 1
    | some prev => if prev.state.file = row.state.file ∧ prev.pos = row.pos then firstInText row k else k + 1

variable (t : LineTable) (inRegion : Nat → Nat → Option Nat)

/-- What is done with a row that the scan comes to. `inRegion` is `elf_run_time_address_in_region`. -/
def callForLine (row : Row) : Code (List ClientCall) :=
  match inRegion row.state.sect row.state.address with
  | none => pure []
  | some addr => match getNextInCode t.rows row with
    | none => pure []
    | some codeNext =>
      if textBefore (line,column) (textEnd row (getNextInText t.rows row)) then do
        require (row.state.line ≤ line)
        require (row.state.line < line ∨ row.state.column ≤ column)
        callClient t row (some codeNext) (getNextInText t.rows row) addr
      else pure []

/-- The rows from one on, up to one that is behind the line or the column. -/
def scanText : List Row → Code (List ClientCall)
  | [] => pure []
  | row :: rest => do
    let calls ← callForLine line column t inRegion row
    match rest with
    | [] => pure calls
    | next :: _ =>
      if next.state.file > file ∨ next.state.line > line ∨ next.state.column > column then pure calls
      else do
        let others ← scanText rest
        pure (calls ++ others)

/-- No more than `2 ^ 31` rows are ever allocated, so that the sum of two places does not wrap around. -/
def unitLineToAddress : Code (List ClientCall) :=
  if t.rows.states.length ≥ 2 then
    match bisect (probeText t.rows file line column) t.rows.states.length 0 t.rows.states.length with
    | none => pure []
    | some k => match t.rows.index[k]? with
      | none => pure []
      | some row => do
        require (row.state.file = file)
        scanText file line column t inRegion (t.rows.index.drop (firstInText t.rows row k))
  else pure []

end Text

section Code

/-- `UnitAddressRange` -/
structure AddressRange where
  table : LineTable
  sect : Nat
  addr : Nat
  size : Nat

variable (range : AddressRange) (rtAddr : Nat)

/-- The first link-time address that is asked for, modulo `2 ^ 64`. -/
def addrMin (addr0 : Nat) : Nat :=
  let addrMin := (BitVec.ofNat 64 addr0 - BitVec.ofNat 64 rtAddr + BitVec.ofNat 64 range.addr).toNat
  if addrMin < range.addr then range.addr else addrMin

def addrMax (addr1 : Nat) : Nat :=
  let addrMax := (BitVec.ofNat 64 addr1 - BitVec.ofNat 64 rtAddr + BitVec.ofNat 64 range.addr).toNat
  let stop := (BitVec.ofNat 64 range.addr + BitVec.ofNat 64 range.size).toNat
  if addrMax > stop then stop else addrMax

variable (low high : Nat)

/-- Where a row is, seen from the addresses that are looked up. -/
def probeCode (k : Nat) : Ordering :=
  match range.table.rows.states[k]? with
  | none => .gt
  | some state =>
    if state.sect > range.sect then .gt
    else if state.sect < range.sect then .lt
    else if state.address ≥ high then .gt
    else match getNextInCode range.table.rows ⟨k,state⟩ with
      | none => .lt
      | some next => if next.state.address ≤ low then .lt else .eq

/-- The walk back does not look at the sections. -/
def firstInCode (states : List LineNumbersState) : Nat → Nat
  | 0 => 0
  | k+1 => match states[k+1]?, states[k]? with
    | some state, some prev => if state.address ≤ low ∨ prev.address ≥ high then k + 1 else firstInCode states k
    | _, _ => k + 1

/-- What is done with a row that the scan comes to. -/
def callForCode (row : Row) : Code (List ClientCall) :=
  match getNextInCode range.table.rows row with
  | none => pure []
  | some codeNext => do
    let calls ← if row.state.address < codeNext.state.address then
        callClient range.table row (some codeNext) (getNextInText range.table.rows row)
          (BitVec.ofNat 64 row.state.address - BitVec.ofNat 64 range.addr + BitVec.ofNat 64 rtAddr).toNat
      else pure []
    require (codeNext.place > row.place)
    pure calls

/-- The row that the scan comes to next. -/
def placeBehind (row : Row) : Nat :=
  match getNextInCode range.table.rows row with
  | none => row.place + 1
  | some codeNext => codeNext.place

/-- The scan does not look at the sections. A place behind is never the same one, so that there are enough rounds. -/
def scanCode : Nat → Row → Code (List ClientCall)
  | 0, _ => .error .stuck
  | rounds+1, row => do
    let calls ← callForCode range rtAddr row
    match range.table.rows.states[placeBehind range row]? with
    | none => pure calls
    | some state =>
      if state.address ≥ high then pure calls
      else do
        let others ← scanCode rounds ⟨placeBehind range row,state⟩
        pure (calls ++ others)

/-- The rows between two link-time addresses. -/
def linesBetween : Code (List ClientCall) :=
  if range.table.rows.states.length ≥ 2 then
    match bisect (probeCode range low high) range.table.rows.states.length 0 range.table.rows.states.length with
    | none => pure []
    | some k => match range.table.rows.states[firstInCode low high range.table.rows.states k]? with
      | none => pure []
      | some state =>
        scanCode range rtAddr high range.table.rows.states.length ⟨firstInCode low high range.table.rows.states k,state⟩
  else pure []

/-- One range of `address_to_line`. -/
def addressToLineIn (addr0 addr1 : Nat) : Code (List ClientCall) :=
  linesBetween range rtAddr (addrMin range rtAddr addr0) (addrMax range rtAddr addr1)

/-- `findUnit` is `elf_find_unit`: a range, and its address at run time. -/
def addressToLine (findUnit : Nat → Nat → Option (AddressRange × Nat)) : Nat → Nat → Nat → Code (List ClientCall)
  | 0, _, _ => .error .stuck
  | rounds+1, addr0, addr1 =>
    if addr0 < addr1 then
      match findUnit addr0 (addr1 - 1) with
      | none => pure []
      | some found => do
        let calls ← addressToLineIn found.1 found.2 addr0 addr1
        let others ← addressToLine findUnit rounds ((found.2 + found.1.size) % 2 ^ 64) addr1
        pure (calls ++ others)
    else pure []

end Code

end Tcf.Dwarf
