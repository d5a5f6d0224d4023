import Mathlib.Algebra.Order.Ring.Int
import Tcf.JsonStruct

/-! The lexer of expressions. A text is what is left of it from `text_ch` on, without the NUL at its end. -/
namespace Tcf.Expressions

open Json

abbrev Text := List UInt8

def byte (ch : Char) : UInt8 := ch.toNat.toUInt8

/-- `text_ch`, which stays 0 at the end. -/
def textCh (text : Text) : UInt8 := text.headD 0

/-- `text_sy` -/
inductive Sy where
  | none
  | char (ch : UInt8)
  | leq
  | geq
  | equ
  | neq
  | and
  | or
  | shl
  | shr
  | val
  | id
  | ref
  | dec
  | inc
  | aSub
  | aAdd
  | aShl
  | aShr
  | aOr
  | aXor
  | aAnd
  | aMul
  | aDiv
  | aMod
  | sizeof
  | name
  | scope
  | pmD
  | pmR
  deriving DecidableEq, Repr

inductive TypeClass where
  | integer
  | cardinal
  | real
  | array
  deriving DecidableEq, Repr

/-- `text_val_flags` -/
structure Flags where
  x : Bool
  u : Bool
  l : Bool
  f : Bool
  c : Bool
  s : Bool
  deriving DecidableEq, Repr

def noFlags : Flags := ⟨false,false,false,false,false,false⟩

/-- The memory of a value, by what is stored there: a number in the order of the host, or characters before a NUL. The number of a real value is left out. -/
inductive Stored where
  | number (size n : Nat)
  | real (size : Nat)
  | chars (charSize : Nat) (chars : List Nat)
  deriving DecidableEq, Repr

structure TextVal where
  typeClass : TypeClass
  value : Stored
  deriving DecidableEq, Repr

/-- What `next_sy` sets. A symbol without a value leaves `text_val` as it was. -/
structure Token where
  sy : Sy
  val : Option TextVal
  flags : Flags
  deriving DecidableEq, Repr

section Characters

def isSpace (ch : UInt8) : Bool := ch = byte ' ' ∨ ch = byte '\r' ∨ ch = byte '\n' ∨ ch = byte '\t'

def isDigit (ch : UInt8) : Bool := byte '0' ≤ ch ∧ ch ≤ byte '9'

def isOctal (ch : UInt8) : Bool := byte '0' ≤ ch ∧ ch ≤ byte '7'

def isHex (ch : UInt8) : Bool := isDigit ch ∨ (byte 'A' ≤ ch ∧ ch ≤ byte 'F') ∨ (byte 'a' ≤ ch ∧ ch ≤ byte 'f')

def isNameCharacter (ch : UInt8) : Bool :=
  (byte 'A' ≤ ch ∧ ch ≤ byte 'Z') ∨ (byte 'a' ≤ ch ∧ ch ≤ byte 'z') ∨ isDigit ch ∨ ch = byte '_' ∨ ch = byte '$' ∨ ch = byte '@'

def hexValue (ch : UInt8) : Nat :=
  if isDigit ch then ch.toNat - 0x30 else if ch ≤ byte 'F' then ch.toNat - 0x41 + 10 else ch.toNat - 0x61 + 10

def nextHex (text : Text) : Code (Nat × Text) :=
  if isHex (textCh text) then .ok (hexValue (textCh text),text.tail) else .error .exception

def nextOct (text : Text) : Code (Nat × Text) :=
  if isOctal (textCh text) then .ok (hexValue (textCh text),text.tail) else .error .exception

/-- Three digits of an escape sequence. -/
def nextThree (next : Text → Code (Nat × Text)) (shift : Nat) (text : Text) : Code (Nat × Text) := do
  let (a,text) ← next text
  let (b,text) ← next text
  let (c,text) ← next text
  pure (((a <<< shift) ||| b) <<< shift ||| c,text)

/-- What the escapes of one character denote. -/
def escaped (ch : UInt8) : Nat :=
  if ch = byte 'n' then 10
  else if ch = byte 't' then 9
  else if ch = byte 'v' then 11
  else if ch = byte 'b' then 8
  else if ch = byte 'r' then 13
  else if ch = byte 'f' then 12
  else if ch = byte 'a' then 7
  else ch.toNat

def nextCharVal (text : Text) : Code (Nat × Text) :=
  if text = [] then .error .exception
  else if textCh text = byte '\\' then
    let text := text.tail
    if textCh text = byte 'x' then nextThree nextHex 4 text.tail
    else if byte '0' ≤ textCh text ∧ textCh text ≤ byte '3' then nextThree nextOct 3 text
    else .ok (escaped (textCh text),text.tail)
  else .ok ((textCh text).toNat,text.tail)

/-- The first pass over a string, up to the quote. -/
def countChars : Nat → Text → Code (Nat × Text)
  | 0, _ => .error .stuck
  | fuel+1, text =>
    if textCh text = byte '"' then .ok (0,text)
    else do
      let (_,text) ← nextCharVal text
      let (len,text) ← countChars fuel text
      pure (len + 1,text)

/-- The loop that looks for a closing brace. -/
def countId : Nat → Text → Code (Nat × Text)
  | 0, _ => .error .stuck
  | fuel+1, text =>
    if textCh text = byte '}' then .ok (0,text)
    else do
      let (len,text) ← countId fuel text.tail
      pure (len + 1,text)

/-- The second pass. -/
def readChars : Nat → Text → Code (List Nat × Text)
  | 0, text => .ok ([],text)
  | len+1, text => do
    let (ch,text) ← nextCharVal text
    let (chars,text) ← readChars len text
    pure (ch :: chars,text)

def readPlain : Nat → Text → List Nat × Text
  | 0, text => ([],text)
  | len+1, text =>
    let read := readPlain len text.tail
    ((textCh text).toNat :: read.1,read.2)

def stringVal (charSize : Nat) (chars : List Nat) : TextVal := ⟨.array,.chars charSize (chars.map (· % 2 ^ (8 * charSize)))⟩

/-- `set_string_text_val` from the text at `pos` -/
def setStringTextVal (text : Text) (len : Nat) (inQuotes : Bool) (charSize : Nat) : Code (TextVal × Text) :=
  if inQuotes then do
    let (chars,text) ← readChars len text
    pure (stringVal charSize chars,text)
  else
    let read := readPlain len text
    .ok (stringVal charSize read.1,read.2)

end Characters

section Numbers

/-- `set_int_value` -/
def setIntValue (size n : Nat) : Code Stored :=
  if size = 1 ∨ size = 2 ∨ size = 4 ∨ size = 8 then .ok (.number size (n % 2 ^ (8 * size))) else .error .assertion

/-- The size that a literal is stored in. -/
def storedSize (limit : Nat → Nat) (value : Nat) : Nat :=
  if value ≤ limit 1 then 1 else if value ≤ limit 2 then 2 else if value ≤ limit 4 then 4 else 8

def maxCardinal (size : Nat) : Nat := 2 ^ (8 * size) - 1

def maxInteger (size : Nat) : Nat := 2 ^ (8 * size - 1) - 1

/-- A number grows by its digits in 64 bits. -/
def digitsValue (base : Nat) (start : Nat) (digits : Text) : Nat :=
  digits.foldl (fun value ch => (value * base + hexValue ch) % 2 ^ 64) start

def isL (ch : UInt8) : Bool := ch = byte 'l' ∨ ch = byte 'L'

def isU (ch : UInt8) : Bool := ch = byte 'u' ∨ ch = byte 'U'

/-- The loop over suffixes. -/
def readSuffixes (flags : Flags) : Text → Flags × Text
  | [] => (flags,[])
  | ch :: text =>
    if isL ch then readSuffixes { flags with l := true } text
    else if isU ch then readSuffixes { flags with u := true } text
    else (flags,ch :: text)

/-- Where `str_to_double` stops in a text that begins with a digit. -/
def strToDoubleEnd (text : Text) : Text :=
  let text := text.dropWhile isDigit
  let text := if textCh text = byte '.' then text.tail.dropWhile isDigit else text
  if textCh text = byte 'E' ∨ textCh text = byte 'e' then
    let text := text.tail
    let text := if textCh text = byte '-' ∨ textCh text = byte '+' then text.tail else text
    text.dropWhile isDigit
  else text

/-- A number that goes on as a real one. -/
def isReal (text : Text) : Bool :=
  textCh text = byte '.' ∨ textCh text = byte 'e' ∨ textCh text = byte 'E' ∨ textCh text = byte 'f' ∨ textCh text = byte 'F'

/-- `parse_fp_number` for the text from the first digit on -/
def parseFpNumber (text : Text) : Token × Text :=
  let text := strToDoubleEnd text
  if textCh text = byte 'f' ∨ textCh text = byte 'F' then (⟨.val,some ⟨.real,.real 4⟩,{ noFlags with f := true }⟩,text.tail)
  else if isL (textCh text) then (⟨.val,some ⟨.real,.real 8⟩,{ noFlags with l := true }⟩,text.tail)
  else (⟨.val,some ⟨.real,.real 8⟩,noFlags⟩,text)

/-- `case '0'`; the text is behind it. -/
def parseZero (text : Text) : Code (Token × Text) := do
  if isReal text then pure (parseFpNumber (byte '0' :: text))
  else
    let hex := textCh text = byte 'x'
    let digits := if hex then text.tail.takeWhile isHex else text.takeWhile isOctal
    let text := if hex then text.tail.dropWhile isHex else text.dropWhile isOctal
    let value := digitsValue (if hex then 16 else 8) 0 digits
    let x := hex ∨ digits ≠ []
    let stored ← setIntValue (storedSize maxCardinal value) value
    let (flags,text) := readSuffixes { noFlags with x := x } text
    pure (⟨.val,some ⟨if x then .cardinal else .integer,stored⟩,flags⟩,text)

/-- A decimal number; the text is behind its first digit. -/
def parseDecimal (ch : UInt8) (text : Text) : Code (Token × Text) := do
  let value := digitsValue 10 (hexValue ch) (text.takeWhile isDigit)
  let after := text.dropWhile isDigit
  if isReal after then pure (parseFpNumber (ch :: text))
  else
    let (flags,after) := readSuffixes noFlags after
    let stored ← setIntValue (storedSize (if flags.u then maxCardinal else maxInteger) value) value
    pure (⟨.val,some ⟨if flags.u then .cardinal else .integer,stored⟩,flags⟩,after)

end Numbers

section Symbols

/-- What can follow the first character of an operator; the first alternative that is there is taken. -/
def alternatives (ch : UInt8) : List (String × Sy) :=
  if ch = byte '.' then [("*",.pmD)]
  else if ch = byte ':' then [(":",.scope)]
  else if ch = byte '-' then [(">*",.pmR),(">",.ref),("-",.dec),("=",.aSub)]
  else if ch = byte '+' then [("+",.inc),("=",.aAdd)]
  else if ch = byte '<' then [("<=",.aShl),("<",.shl),("=",.leq)]
  else if ch = byte '>' then [(">=",.aShr),(">",.shr),("=",.geq)]
  else if ch = byte '=' then [("=",.equ)]
  else if ch = byte '!' then [("=",.neq)]
  else if ch = byte '&' then [("&",.and),("=",.aAnd)]
  else if ch = byte '|' then [("|",.or),("=",.aOr)]
  else if ch = byte '*' then [("=",.aMul)]
  else if ch = byte '/' then [("|",.aDiv)]
  else if ch = byte '%' then [("|",.aMod)]
  else if ch = byte '^' then [("=",.aXor)]
  else []

def operators : Text := literal ".:-+<>=!&|*/%^"

/-- Characters that are symbols of their own. -/
def brackets : Text := literal "(){}~[];?,"

/-- The symbol, and the text behind it. -/
def operator (ch : UInt8) (text : Text) : Sy × Text :=
  match (alternatives ch).find? fun alternative => literal alternative.1 <+: text with
  | some alternative => (alternative.2,text.drop (literal alternative.1).length)
  | none => (.char ch,text)

/-- `parse_char_value` -/
def parseCharValue (l : Bool) (text : Text) : Code (Token × Text) := do
  let (value,text) ← nextCharVal text
  let stored ← setIntValue (if l then if value ≤ 0xffff then 2 else 4 else if value ≤ 0x7f then 1 else 2) value
  if textCh text = byte '\'' then
    pure (⟨.val,some ⟨if l then .cardinal else .integer,stored⟩,{ noFlags with l := l, c := true }⟩,text.tail)
  else .error .exception

/-- `parse_string_value` -/
def parseStringValue (fuel : Nat) (l : Bool) (text : Text) : Code (Token × Text) := do
  let (len,_) ← countChars fuel text
  let (val,text) ← setStringTextVal text len true (if l then 4 else 1)
  pure (⟨.val,some val,{ noFlags with l := l, s := true }⟩,text.tail)

/-- `$` with a quoted name -/
def parseQuotedName (fuel : Nat) (text : Text) : Code (Token × Text) := do
  let (len,_) ← countChars fuel text
  let (val,text) ← setStringTextVal text len true 1
  pure (⟨.name,some val,noFlags⟩,text.tail)

/-- `$` with an ID in braces -/
def parseId (fuel : Nat) (text : Text) : Code (Token × Text) := do
  let (len,_) ← countId fuel text
  let (val,text) ← setStringTextVal text len false 1
  pure (⟨.id,some val,noFlags⟩,text.tail)

def sizeofVal : TextVal := stringVal 1 ((literal "sizeof").map UInt8.toNat)

/-- A name; the text begins with its first character. -/
def parseName (text : Text) : Code (Token × Text) := do
  let (val,text) ← setStringTextVal text (text.takeWhile isNameCharacter).length false 1
  pure (⟨if val = sizeofVal then .sizeof else .name,some val,noFlags⟩,text)

/-- `next_sy`. The fuel bounds the loops that look for the end of a string or an ID. -/
def nextSy (fuel : Nat) (text : Text) : Code (Token × Text) :=
  match text.dropWhile isSpace with
  | [] => .ok (⟨.none,none,noFlags⟩,[])
  | ch :: text =>
    if ch ∈ brackets then .ok (⟨.char ch,none,noFlags⟩,text)
    else if ch ∈ operators then
      let found := operator ch text
      .ok (⟨found.1,none,noFlags⟩,found.2)
    else if ch = byte '\'' then parseCharValue false text
    else if ch = byte '"' then parseStringValue fuel false text
    else if ch = byte '0' then parseZero text
    else if isDigit ch then parseDecimal ch text
    else if ch = byte '$' ∧ textCh text = byte '"' then parseQuotedName fuel text.tail
    else if ch = byte '$' ∧ textCh text = byte '{' then parseId fuel text.tail
    else if ch = byte 'L' ∧ textCh text = byte '\'' then parseCharValue true text.tail
    else if ch = byte 'L' ∧ textCh text = byte '"' then parseStringValue fuel true text.tail
    else if isNameCharacter ch then parseName (ch :: text)
    else .error .exception

end Symbols

end Tcf.Expressions
