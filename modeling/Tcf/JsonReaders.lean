import Tcf.CodeAreas

/-! Readers of numbers with a fraction and of error reports. -/
namespace Tcf.Json

open Framing

/-- `json_read_int64` is the same code as `json_read_long`. -/
def jsonReadInt64 (inp : Input) : Code (Int × Input) := jsonReadLong inp

/-- The characters of a number, as many as there is memory for. -/
def readDoubleChars : Nat → List UInt8 → Input → Code (List UInt8 × Input)
  | 0, _, _ => .error .stuck
  | fuel + 1, buf, inp => do
    let ch ← peekStream inp
    if isNumberChar ch then
      if buf.length ≥ 255 then .error .exception
      else
        let (ch,inp) ← readStream inp
        readDoubleChars fuel (bufAdd buf ch.char) inp
    else pure (buf,inp)

/-- `strToDouble` stands for `str_to_double`: the number, and how many characters were taken for it. -/
def jsonReadDouble {δ : Type} (strToDouble : List UInt8 → δ × Nat) (inp : Input) : Code (δ × Input) := do
  let inp ← readWhitespace inp
  let (buf,inp) ← readDoubleChars (inp.length + 1) [] inp
  if buf = [] then .error .exception
  else
    let (n,taken) := strToDouble buf
    if taken ≠ buf.length then .error .exception else pure (n,inp)

/-- `ErrorReport` -/
structure ErrorReport where
  code : BitVec 32
  format : Option (List UInt8)
  params : List (List UInt8)
  timeStamp : BitVec 64
  props : List (List UInt8 × List UInt8)
  deriving DecidableEq, Repr

/-- `create_error_report` -/
def createErrorReport : ErrorReport := ⟨0,none,[],0,[]⟩

/-- `read_errno_param` -/
def readErrnoParam (err : ErrorReport) (inp : Input) : Code (ErrorReport × Input) := do
  let (param,inp) ← jsonReadObject inp
  pure ({ err with params := err.params ++ [param] },inp)

/-- A member of an error report; the first one creates it. -/
def readErrorMember (name : List UInt8) (err : Option ErrorReport) (inp : Input) : Code (Option ErrorReport × Input) := do
  let err := err.getD createErrorReport
  if name = literal "Code" then
    let (code,inp) ← jsonReadInt inp
    pure (some { err with code },inp)
  else if name = literal "Time" then
    let (timeStamp,inp) ← jsonReadUint64 inp
    pure (some { err with timeStamp },inp)
  else if name = literal "Format" then
    let (format,inp) ← jsonReadAllocString inp
    pure (some { err with format },inp)
  else if name = literal "Params" then
    let ((_,err),inp) ← jsonReadArray readErrnoParam err inp
    pure (some err,inp)
  else
    let (value,inp) ← jsonReadObject inp
    pure (some { err with props := (name,value) :: err.props },inp)

/-- `read_error_object`; `setErrno` stands for `set_error_report_errno`. -/
def readErrorObject (setErrno : ErrorReport → Nat) (inp : Input) : Code (Nat × Input) := do
  let ((_,err),inp) ← jsonReadStruct readErrorMember none inp
  match err with
  | none => pure (0,inp)
  | some err => pure (if err.code ≠ 0 then setErrno err else 0,inp)

end Tcf.Json
