import Mathlib.Data.List.Basic

/-! Names of files, in the form in which they are compared and mapped. -/
namespace Tcf.PathMap

/-- A string without its NUL. -/
abbrev Text := List UInt8

def slash : UInt8 := 0x2f
def backslash : UInt8 := 0x5c
def dot : UInt8 := 0x2e
def colon : UInt8 := 0x3a

def isSeparator (c : UInt8) : Bool := c = slash ∨ c = backslash

/-- `s[i]`, where the NUL is read at the end. -/
def charAt (s : Text) (i : Nat) : UInt8 := s.getD i 0

/-- The buffer in front of its last directory, when `..` and a separator follow and may remove it. The last character is the first. -/
def parent (buf fnm : Text) : Option Text :=
  if buf ≠ [] ∧ charAt fnm 0 = dot ∧ isSeparator (charAt fnm 1) then
    let name := buf.tail.takeWhile fun c => c ≠ slash
    if name ≠ [] ∧ name ≠ [dot] ∧ name ≠ [dot,dot] then some (buf.tail.dropWhile fun c => c ≠ slash) else none
  else none

/-- The letter of a drive in upper case. -/
def driveLetter (buf fnm : Text) (ch : UInt8) : UInt8 :=
  if buf = [] ∧ 0x61 ≤ ch ∧ ch ≤ 0x7a ∧ charAt fnm 0 = colon then ch - 0x61 + 0x41 else ch

/-- The loop over the characters, `skip` of which are passed over. -/
def canonicLoop : Text → Nat → Text → Text
  | [], _, buf => buf
  | _ :: fnm, skip+1, buf => canonicLoop fnm skip buf
  | c :: fnm, 0, buf =>
    let ch := if c = backslash then slash else c
    if ch = 0 then buf
    else if ch = slash ∧ 2 ≤ buf.length ∧ buf.head? = some slash then canonicLoop fnm 0 buf
    else if ch = slash ∧ charAt fnm 0 = 0 ∧ buf ≠ [] ∧ buf.head? ≠ some colon then buf
    else if ch = dot ∧ (buf = [] ∨ buf.head? = some slash) then
      if isSeparator (charAt fnm 0) then canonicLoop fnm 1 buf
      else match parent buf fnm with
        | some front => canonicLoop fnm 2 front
        | none => canonicLoop fnm 0 (ch :: buf)
    else canonicLoop fnm 0 (driveLetter buf fnm ch :: buf)

def canonicPathMapFileName (fnm : Text) : Text := (canonicLoop fnm 0 []).reverse

def isAbsolutePath (fnm : Text) : Bool :=
  isSeparator (charAt fnm 0) ∨ (charAt fnm 0 ≠ 0 ∧ charAt fnm 1 = colon ∧ isSeparator (charAt fnm 2))

end Tcf.PathMap
