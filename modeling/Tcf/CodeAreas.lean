import Tcf.JsonStruct

/-! Code areas on the wire: the agent writes each with its predecessor, the proxy reads them
one by one and keeps them for its clients. -/
namespace Tcf.CodeAreas

open Framing Json

/-- `CodeArea`, over what stands for a string. -/
structure CodeArea (ρ : Type) where
  directory : Option ρ
  file : Option ρ
  fileMtime : BitVec 32
  fileSize : BitVec 32
  startAddress : BitVec 64
  startLine : BitVec 32
  startColumn : BitVec 32
  endAddress : BitVec 64
  endLine : BitVec 32
  endColumn : BitVec 32
  nextAddress : BitVec 64
  isa : BitVec 32
  isStatement : Bool
  basicBlock : Bool
  prologueEnd : Bool
  epilogueBegin : Bool
  opIndex : BitVec 32
  discriminator : BitVec 32
  deriving DecidableEq, Repr

/-- After `memset`. -/
def CodeArea.zero {ρ : Type} : CodeArea ρ := ⟨none,none,0,0,0,0,0,0,0,0,0,0,false,false,false,false,0,0⟩

def CodeArea.map {ρ ρ' : Type} (f : ρ → ρ') (area : CodeArea ρ) : CodeArea ρ' :=
  { area with directory := area.directory.map f, file := area.file.map f }

abbrev Pointer := BitVec 64

/-- The agent's strings, and the memory behind their NULs. -/
structure Memory where
  text : Pointer → List UInt8
  junk : Pointer → List UInt8
  nulFree : ∀ p, 0 ∉ text p

def Memory.at (m : Memory) (p : Pointer) : List UInt8 := m.text p ++ 0 :: m.junk p

/-- The string that is the same as one of the agent's. -/
def Memory.string (m : Memory) (p : Pointer) : List UInt8 := m.text p ++ [0]

section Writer

variable {σ : Type} (S : OutStream σ) (m : Memory)

/-- A string that is not NULL; `json_write_string` otherwise writes null. -/
def writePointer (p : Option Pointer) (s : σ) : Code σ :=
  match p with
  | none => writeString S s (literal "null")
  | some p => jsonWriteString S s (m.at p)

def writeCodeArea (area : CodeArea Pointer) (prev : Option (CodeArea Pointer)) (s : σ) : Code σ := do
  let s ← S.writeByte s 0x7b
  let s ← writeMember S "SAddr" (jsonWriteUint64 S · area.startAddress.toNat) s
  let s ← writeIf (0 < area.startLine.toInt) (fun s => do
    let s ← writeNext S "SLine" (jsonWriteUlong S · area.startLine.toInt.toNat) s
    writeIf (0 < area.startColumn.toInt) (writeNext S "SCol" (jsonWriteUlong S · area.startColumn.toInt.toNat)) s) s
  let s ← writeIf (area.endAddress ≠ 0) (writeNext S "EAddr" (jsonWriteUint64 S · area.endAddress.toNat)) s
  let s ← writeIf (0 < area.endLine.toInt) (fun s => do
    let s ← writeNext S "ELine" (jsonWriteUlong S · area.endLine.toInt.toNat) s
    writeIf (0 < area.endColumn.toInt) (writeNext S "ECol" (jsonWriteUlong S · area.endColumn.toInt.toNat)) s) s
  let s ← writeIf (area.nextAddress ≠ 0) (writeNext S "NAddr" (jsonWriteUint64 S · area.nextAddress.toNat)) s
  let s ← writeIf (area.file ≠ none ∧ ∀ p ∈ prev, p.file ≠ area.file) (writeNext S "File" (writePointer S m area.file)) s
  let s ← writeIf (area.directory ≠ none ∧ ∀ p ∈ prev, p.directory ≠ area.directory)
    (writeNext S "Dir" (writePointer S m area.directory)) s
  let s ← writeIf (0 < area.isa.toInt) (writeNext S "ISA" (jsonWriteUlong S · area.isa.toInt.toNat)) s
  let s ← writeIf (area.isStatement = true) (writeNext S "IsStmt" (jsonWriteBoolean S · true)) s
  let s ← writeIf (area.basicBlock = true) (writeNext S "BasicBlock" (jsonWriteBoolean S · true)) s
  let s ← writeIf (area.prologueEnd = true) (writeNext S "PrologueEnd" (jsonWriteBoolean S · true)) s
  let s ← writeIf (area.epilogueBegin = true) (writeNext S "EpilogueBegin" (jsonWriteBoolean S · true)) s
  let s ← writeIf (area.opIndex ≠ 0) (writeNext S "OpIndex" (jsonWriteLong S · area.opIndex.toInt)) s
  let s ← writeIf (area.discriminator ≠ 0) (writeNext S "Discriminator" (jsonWriteLong S · area.discriminator.toInt)) s
  S.writeByte s 0x7d

/-- The loop over `code_area_buf`; `prev` is the area in front, which `write_line_info` passes on. -/
def writeLineInfo (prev : CodeArea Pointer) : List (CodeArea Pointer) → σ → Code σ
  | [], s => pure s
  | area :: rest, s => do
    let s ← S.writeByte s comma
    let s ← writeCodeArea S m area (some prev) s
    writeLineInfo area rest s

/-- What `map_to_source_cache_client` and `map_to_memory_cache_client` write after the token, with
the errno of a query that succeeded. -/
def writeAreas (areas : List (CodeArea Pointer)) (s : σ) : Code σ := do
  let s ← S.writeByte s 0
  let s ← (match areas with
    | [] => writeStringz S s (literal "null")
    | area :: rest => do
      let s ← S.writeByte s 0x5b
      let s ← writeCodeArea S m area none s
      let s ← writeLineInfo S m area rest s
      let s ← S.writeByte s 0x5d
      S.writeByte s 0 : Code σ)
  S.write s .eom

end Writer

section Reader

abbrev ReadArea := CodeArea (List UInt8)

def readCodeAreaProps (name : List UInt8) (area : ReadArea) (inp : Input) : Code (ReadArea × Input) :=
  if name = literal "SLine" then do let (n,inp) ← jsonReadInt inp; pure ({ area with startLine := n },inp)
  else if name = literal "SCol" then do let (n,inp) ← jsonReadInt inp; pure ({ area with startColumn := n },inp)
  else if name = literal "SAddr" then do let (n,inp) ← jsonReadUint64 inp; pure ({ area with startAddress := n },inp)
  else if name = literal "ELine" then do let (n,inp) ← jsonReadInt inp; pure ({ area with endLine := n },inp)
  else if name = literal "ECol" then do let (n,inp) ← jsonReadInt inp; pure ({ area with endColumn := n },inp)
  else if name = literal "EAddr" then do let (n,inp) ← jsonReadUint64 inp; pure ({ area with endAddress := n },inp)
  else if name = literal "NAddr" then do let (n,inp) ← jsonReadUint64 inp; pure ({ area with nextAddress := n },inp)
  else if name = literal "File" then do let (str,inp) ← jsonReadAllocString inp; pure ({ area with file := str },inp)
  else if name = literal "Dir" then do let (str,inp) ← jsonReadAllocString inp; pure ({ area with directory := str },inp)
  else if name = literal "ISA" then do let (n,inp) ← jsonReadInt inp; pure ({ area with isa := n },inp)
  else if name = literal "IsStmt" then do let (b,inp) ← jsonReadBoolean inp; pure ({ area with isStatement := b },inp)
  else if name = literal "BasicBlock" then do let (b,inp) ← jsonReadBoolean inp; pure ({ area with basicBlock := b },inp)
  else if name = literal "PrologueEnd" then do let (b,inp) ← jsonReadBoolean inp; pure ({ area with prologueEnd := b },inp)
  else if name = literal "EpilogueBegin" then do let (b,inp) ← jsonReadBoolean inp; pure ({ area with epilogueBegin := b },inp)
  else if name = literal "OpIndex" then do let (n,inp) ← jsonReadInt inp; pure ({ area with opIndex := n },inp)
  else if name = literal "Discriminator" then do let (n,inp) ← jsonReadInt inp; pure ({ area with discriminator := n },inp)
  else pure (area,inp)

def readCodeArea (inp : Input) : Code (ReadArea × Input) := do
  let ((_,area),inp) ← jsonReadStruct readCodeAreaProps .zero inp
  pure (area,inp)

/-- `code_area_buf` takes one more area. -/
def readCodeAreaArray (buf : List ReadArea) (inp : Input) : Code (List ReadArea × Input) := do
  let (area,inp) ← readCodeArea inp
  pure (buf ++ [area],inp)

/-- `readErrorObject` stands for `read_error_object`. -/
def readErrno (readErrorObject : Input → Code (Nat × Input)) (inp : Input) : Code (Nat × Input) := do
  let (ch,inp) ← jsonPeek inp
  let (no,inp) ← (if ch ≠ .byte 0 then readErrorObject inp else pure (0,inp) : Code (Nat × Input))
  let inp ← jsonTestChar 0 inp
  pure (no,inp)

end Reader

/-- A query for a text position or for an address range. -/
inductive Query where
  | position (file : List UInt8) (line column : BitVec 32)
  | range (addr0 addr1 : BitVec 64)
  deriving DecidableEq, Repr

/-- An error report: of the reply, or of what was wrong with it. -/
inductive Failure where
  | reported (no : Nat)
  | unreadable
  deriving DecidableEq, Repr

/-- `LineNumbersCacheEntry` -/
structure CacheEntry where
  ctx : Nat
  query : Query
  pending : Bool
  error : Option Failure
  areas : List ReadArea
  deriving DecidableEq, Repr

/-- `LineNumbersCache`, its hash chains as one list. -/
structure LineNumbersCache where
  serviceAvailable : Bool
  entries : List CacheEntry
  deriving DecidableEq, Repr

inductive Answer where
  | unavailable
  | wait (request : Bool)
  | failed (error : Failure)
  | call (areas : List ReadArea)
  deriving DecidableEq, Repr

/-- What `line_to_address` and `address_to_line` do for the context's symbols group `ctx`. -/
def ask (cache : LineNumbersCache) (ctx : Nat) (query : Query) : Answer × LineNumbersCache :=
  if cache.serviceAvailable = false then (.unavailable,cache)
  else match cache.entries.find? fun c => c.ctx = ctx ∧ c.query = query with
    | none => (.wait true,{ cache with entries := ⟨ctx,query,true,none,[]⟩ :: cache.entries })
    | some entry =>
      if entry.pending then (.wait false,cache)
      else match entry.error with
        | some error => (.failed error,cache)
        | none => (.call entry.areas,cache)

def lineToAddress (cache : LineNumbersCache) (ctx : Nat) (file : List UInt8) (line column : BitVec 32) :
    Answer × LineNumbersCache := ask cache ctx (.position file line column)

def addressToLine (cache : LineNumbersCache) (ctx : Nat) (addr0 addr1 : BitVec 64) : Answer × LineNumbersCache :=
  ask cache ctx (.range addr0 addr1)

/-- What is read of a reply that is no failed command. -/
def readReply (readErrorObject : Input → Code (Nat × Input)) (inp : Input) : Code ((Nat × List ReadArea) × Input) := do
  let (error,inp) ← readErrno readErrorObject inp
  let ((_,areas),inp) ← jsonReadArray readCodeAreaArray [] inp
  let inp ← jsonTestChar 0 inp
  let inp ← jsonTestEom inp
  pure ((error,areas),inp)

/-- `error` is that of the command. -/
def validateCacheEntry (readErrorObject : Input → Code (Nat × Input)) (entry : CacheEntry) (error : Nat)
    (inp : Input) : CacheEntry :=
  if error ≠ 0 then { entry with pending := false, error := some (.reported error) }
  else match readReply readErrorObject inp with
    | .ok ((error,areas),_) =>
      { entry with
        pending := false
        error := if error = 0 then none else some (.reported error)
        areas := if areas = [] then entry.areas else areas }
    | .error _ => { entry with pending := false, error := some .unreadable }

/-- The reply to the command that a query has sent. -/
def processReply (readErrorObject : Input → Code (Nat × Input)) (cache : LineNumbersCache) (ctx : Nat) (query : Query)
    (error : Nat) (inp : Input) : LineNumbersCache :=
  { cache with entries := cache.entries.map fun c =>
      if c.ctx = ctx ∧ c.query = query ∧ c.pending then validateCacheEntry readErrorObject c error inp else c }

end Tcf.CodeAreas
