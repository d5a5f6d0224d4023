import Tcf.LineIndex

/-! The line numbers of the units of a file: loaded when they are asked for, and forgotten when that fails. -/
namespace Tcf.Dwarf

/-- A character of a name, from the last one on. -/
def hashChar (h : Nat) (ch : UInt8) : Nat :=
  let h := (h <<< 4 + ch.toNat) % 2 ^ 32
  let g := h &&& 0xf0000000
  if g ≠ 0 then (h ^^^ (g >>> 24)) &&& (2 ^ 32 - 1 - g) else h

/-- Of the part of a name behind the last separator. -/
def calcFileNameHash (name : Option (List UInt8)) : Nat :=
  match name with
  | none => 0
  | some name => ((name.reverse.takeWhile fun ch => ch ≠ 0x2f ∧ ch ≠ 0x5c).foldl hashChar 0)

/-- A unit, with the description of its section. `table.states` are the rows in the order of the program. -/
structure LineUnit where
  version : Nat
  name : Option (List UInt8)
  sec : Section
  table : CompUnit
  rows : Rows
  lineInfoLoaded : Bool

/-- What the units of a file share. An entry of the hash is a unit and a file of it. -/
structure LineCache where
  debugLineV1 : Option (List UInt8)
  debugLineV2 : Option (List UInt8)
  fileInfoHash : Nat → List (Nat × Nat)

def fileInfoHashSize : Nat := 251

def insertFile (id : Nat) (hash : Nat → List (Nat × Nat)) (file : FileInfo × Nat) : Nat → List (Nat × Nat) :=
  let h := calcFileNameHash file.1.name % fileInfoHashSize
  fun bucket => if bucket = h then (id,file.2) :: hash bucket else hash bucket

def computeReverseLookupIndices (cache : LineCache) (id : Nat) (unit : LineUnit) : LineCache × LineUnit :=
  ({ cache with fileInfoHash := unit.table.files.zipIdx.foldl (insertFile id) cache.fileInfoHash },
    { unit with rows := computeStatesIndex unit.table.states })

def freeUnitCache (unit : LineUnit) : LineUnit :=
  { unit with table := { unit.table with files := [], dirs := [], states := [] }, rows := noRows }

/-- One round of the loop. `line` is that of the row before. -/
def readRowV1 (sec : Section) (address sect line : Nat) : Read LineNumbersState := do
  let number ← dioReadU4 sec
  let column ← dioReadU2 sec
  let offset ← dioReadU4 sec
  pure {
    address := (address + offset) % 2 ^ 64
    sect := sect
    file := 0
    line := if number = 0 then (line + 1) % 2 ^ 32 else number
    column := if number = 0 ∨ column = 0xffff then 0 else column
    flags := 0
    isa := 0
    opIndex := 0
    discriminator := 0
    artificial := false }

/-- Every round reads ten bytes, so that as many rounds as there are bytes are enough. -/
def readRowsV1 (sec : Section) (address sect stop : Nat) : Nat → Nat → CompUnit → Read CompUnit
  | 0, _, unit => do
    let pos ← dioGetPos
    if pos < stop then fail .eof else pure unit
  | rounds+1, line, unit => do
    let pos ← dioGetPos
    if pos < stop then do
      let state ← readRowV1 sec address sect line
      readRowsV1 sec address sect stop rounds state.line (addState unit state)
    else pure unit

def loadLineNumbersV1 (sec : Section) (unit : CompUnit) (unitSize : Nat) : Read CompUnit := do
  let address ← dioReadAddress sec
  let left ← dioLeft
  readRowsV1 sec address.1 address.2 ((unit.lineInfoOffs + unitSize) % 2 ^ 64) left 0 unit

/-- The size of a table with its length field, and whether that has 64 bits. -/
def readUnitSize (sec : Section) : Read (Nat × Bool) := do
  let size ← dioReadU4 sec
  if size = 0xffffffff then do
    let size ← dioReadU8 sec
    pure ((size + 12) % 2 ^ 64,true)
  else pure (size + 4,false)

/-- An end that wraps around is in front of the program, as the offset of the table itself is. -/
def wrappedSize (offset size : Nat) : Nat := (offset + size) % 2 ^ 64 - offset

def readTable (unit : LineUnit) : Read CompUnit := do
  let table := addFile unit.table ⟨unit.name,unit.table.dir,0,0,0⟩
  if unit.version ≤ 1 then do
    let size ← dioReadU4 unit.sec
    loadLineNumbersV1 unit.sec table size
  else do
    let size ← readUnitSize unit.sec
    loadLineNumbersV2 unit.sec table (wrappedSize table.lineInfoOffs size.1) size.2

/-- The assertions about the position. -/
def dioEnterSection (data : List UInt8) (offset : Nat) : Except Failure Dio :=
  if offset < data.length then .ok ⟨offset,data.drop offset⟩ else .error .undefined

def LineCache.section (cache : LineCache) (unit : LineUnit) : Option (List UInt8) :=
  if unit.version ≤ 1 then cache.debugLineV1 else cache.debugLineV2

/-- The exception that is raised, if any, is the last part of the result. -/
def loadLineNumbers (cache : LineCache) (id : Nat) (unit : LineUnit) : LineCache × LineUnit × Option Failure :=
  match cache.section unit with
  | none => (cache,unit,none)
  | some data =>
    if unit.lineInfoLoaded then (cache,unit,none)
    else match dioEnterSection data unit.table.lineInfoOffs with
      | .error failure => (cache,unit,some failure)
      | .ok d => match readTable unit d with
        | .error failure => (cache,freeUnitCache unit,some failure)
        | .ok (table,_) =>
          let next := computeReverseLookupIndices cache id { unit with table := table }
          (next.1,{ next.2 with lineInfoLoaded := true },none)

end Tcf.Dwarf
