import Tcf.OutStream

/-! Strings in JSON texts: two writers, which copy runs of plain bytes and escape the others,
and three readers. -/
namespace Tcf.Json

open Framing

def quote : UInt8 := 0x22
def backslash : UInt8 := 0x5c

/-- `char_escaping`. -/
def charEscaping (ch : UInt8) : Bool := ch < 0x20 || ch == quote || ch == backslash || ch == 0x7f

def hexDigit (n : UInt8) : UInt8 := if n &&& 0xf < 10 then 0x30 + (n &&& 0xf) else 0x41 + ((n &&& 0xf) - 10)

/-- The bytes that `write_escape_seq` writes. -/
def escapeSeq (n : UInt8) : List UInt8 :=
  if n = quote ∨ n = backslash then [backslash,n]
  else if n = 0x08 then [backslash,0x62]
  else if n = 0x0c then [backslash,0x66]
  else if n = 0x0a then [backslash,0x6e]
  else if n = 0x0d then [backslash,0x72]
  else if n = 0x09 then [backslash,0x74]
  else [backslash,0x75,0x30,0x30,hexDigit (n >>> 4),hexDigit n]

/-- Bytes up to the next one to be escaped. -/
def plainRun (str : List UInt8) : List UInt8 := str.takeWhile fun ch => !charEscaping ch

/-- `unsigned`. -/
def unsigned (n : Nat) : Nat := n % 2^32

section Writers

variable {σ : Type} (S : OutStream σ)

/-- A run goes directly to the buffer when there is room. Its length is an `unsigned`. -/
def writeRun (s : σ) (run : List UInt8) : Code σ :=
  if run = [] then pure s
  else
    let len := unsigned run.length
    if len ≤ S.room s then pure (S.copy s (run.take len)) else S.writeBlock s (run.take len)

/-- The loop of `json_write_string_len`. -/
def writeLen : Nat → σ → List UInt8 → Code σ
  | 0, _, _ => .error .stuck
  | fuel + 1, s, str => do
    let run := plainRun str
    let s ← writeRun S s run
    match str.drop run.length with
    | [] => pure s
    | ch :: rest => do
      let s ← S.writeBytes s (escapeSeq ch)
      writeLen fuel s rest

def jsonWriteStringLen (s : σ) (str : List UInt8) : Code σ := do
  let s ← S.writeByte s quote
  let s ← writeLen S (str.length + 1) s str
  S.writeByte s quote

/-- The loop of `json_write_string`; the memory at `str` goes on after its NUL. -/
def writeZ : Nat → σ → List UInt8 → Code σ
  | 0, _, _ => .error .stuck
  | fuel + 1, s, memory => do
    let run := plainRun memory
    let s ← writeRun S s run
    match memory.drop run.length with
    | [] => .error .fault
    | ch :: rest =>
      if ch = 0 then pure s
      else do
        let s ← S.writeBytes s (escapeSeq ch)
        writeZ fuel s rest

def jsonWriteString (s : σ) (memory : List UInt8) : Code σ := do
  let s ← S.writeByte s quote
  let s ← writeZ S (memory.length + 1) s memory
  S.writeByte s quote

end Writers

/-- What an input stream is going to deliver. -/
abbrev Input := List Item

def readStream : Input → Code (Item × Input)
  | [] => .error .stuck
  | ch :: rest => .ok (ch,rest)

def peekStream : Input → Code Item
  | [] => .error .stuck
  | ch :: _ => .ok ch

/-- `ch > 0 && isspace(ch)` -/
def isSpace : Item → Bool
  | .byte ch => ch == 0x20 || (0x09 ≤ ch && ch ≤ 0x0d)
  | _ => false

/-- `ignore_whitespace` -/
def ignoreWhitespace : Item → Input → Code (Item × Input)
  | ch, inp => if isSpace ch then match inp with
    | [] => .error .stuck
    | next :: rest => ignoreWhitespace next rest
    else .ok (ch,inp)
termination_by structural _ inp => inp

/-- A byte after white space. -/
def readToken (inp : Input) : Code (Item × Input) := do
  let (ch,inp) ← readStream inp
  ignoreWhitespace ch inp

def jsonTestChar (x : UInt8) (inp : Input) : Code Input := do
  let (ch,inp) ← readToken inp
  if ch = .byte x then pure inp else .error .exception

/-- The next byte that is no white space, and the input from it on. -/
def jsonPeek : Input → Code (Item × Input)
  | [] => .error .stuck
  | ch :: rest => if isSpace ch then jsonPeek rest else .ok (ch,ch :: rest)

/-- The rest of `null`. -/
def testUll (inp : Input) : Code Input := do
  let inp ← jsonTestChar 0x75 inp
  let inp ← jsonTestChar 0x6c inp
  jsonTestChar 0x6c inp

def readHexDigit (inp : Input) : Code (Nat × Input) := do
  let (ch,inp) ← readStream inp
  match ch with
  | .byte v =>
    if 0x30 ≤ v ∧ v ≤ 0x39 then pure ((v - 0x30).toNat,inp)
    else if 0x41 ≤ v ∧ v ≤ 0x46 then pure ((v - 0x41).toNat + 10,inp)
    else if 0x61 ≤ v ∧ v ≤ 0x66 then pure ((v - 0x61).toNat + 10,inp)
    else .error .exception
  | _ => .error .exception

def readHexChar (inp : Input) : Code (Nat × Input) := do
  let (n3,inp) ← readHexDigit inp
  let (n2,inp) ← readHexDigit inp
  let (n1,inp) ← readHexDigit inp
  let (n0,inp) ← readHexDigit inp
  pure (n3 <<< 12 ||| n2 <<< 8 ||| n1 <<< 4 ||| n0,inp)

/-- A character as UTF-8. -/
def utf8 (ch : Nat) : List UInt8 :=
  if ch < 0x80 then [UInt8.ofNat ch]
  else if ch < 0x800 then [UInt8.ofNat (ch >>> 6 ||| 0xc0),UInt8.ofNat (ch &&& 0x3f ||| 0x80)]
  else [UInt8.ofNat (ch >>> 12 ||| 0xe0),UInt8.ofNat ((ch >>> 6) &&& 0x3f ||| 0x80),
    UInt8.ofNat (ch &&& 0x3f ||| 0x80)]

/-- What the character after a backslash stands for, `none` for the hexadecimal form. -/
def escaped : UInt8 → Option (Option Nat)
  | 0x22 => some (some 0x22)
  | 0x5c => some (some 0x5c)
  | 0x2f => some (some 0x2f)
  | 0x62 => some (some 0x08)
  | 0x66 => some (some 0x0c)
  | 0x6e => some (some 0x0a)
  | 0x72 => some (some 0x0d)
  | 0x74 => some (some 0x09)
  | 0x75 => some none
  | _ => none

def readEscChar (inp : Input) : Code (List UInt8 × Input) := do
  let (ch,inp) ← readStream inp
  match ch with
  | .byte v =>
    match escaped v with
    | some (some ch) => pure (utf8 ch,inp)
    | some none => do
      let (ch,inp) ← readHexChar inp
      pure (utf8 ch,inp)
    | none => .error .exception
  | _ => .error .exception

/-- The loop that all three readers have, after the opening quote; they differ in what they
do with a byte. -/
def readText {τ : Type} (emit : τ → UInt8 → τ) : Nat → τ → Input → Code (τ × Input)
  | 0, _, _ => .error .stuck
  | fuel + 1, st, inp => do
    let (ch,inp) ← readStream inp
    match ch with
    | .byte v =>
      if v = quote then pure (st,inp)
      else if v = backslash then do
        let (bytes,inp) ← readEscChar inp
        readText emit fuel (bytes.foldl emit st) inp
      else readText emit fuel (emit st v) inp
    | _ => .error .exception

/-- A C `int`. -/
def toInt (n : Nat) : Int := Int.bmod n (2^32)

/-- The loop variables of `json_read_string`: the client's memory and the `unsigned` count. -/
structure Copying where
  str : List UInt8
  i : Nat
  deriving DecidableEq, Repr

def Copying.emit (c : Copying) (ch : UInt8) : Copying :=
  ⟨if c.i < c.str.length - 1 then c.str.set c.i ch else c.str,unsigned (c.i + 1)⟩

/-- `size` is the length of the memory. Returns the memory and the count. -/
def jsonReadString (inp : Input) (str : List UInt8) : Code ((List UInt8 × Int) × Input) := do
  let (ch,inp) ← readToken inp
  if ch = .byte 0x6e then
    let inp ← testUll inp
    pure ((str.set 0 0,-1),inp)
  else if ch ≠ .byte quote then .error .exception
  else
    let (c,inp) ← readText Copying.emit (inp.length + 1) ⟨str,0⟩ inp
    let i := if c.i < c.str.length then c.i else c.str.length - 1
    pure ((c.str.set i 0,toInt c.i),inp)

/-- `buf_add` -/
def bufAdd (buf : List UInt8) (ch : UInt8) : List UInt8 := buf ++ [ch]

/-- The allocated block, or `none` for NULL. -/
def jsonReadAllocString (inp : Input) : Code (Option (List UInt8) × Input) := do
  let (ch,inp) ← readToken inp
  if ch = .byte 0x6e then
    let inp ← testUll inp
    pure (none,inp)
  else if ch ≠ .byte quote then .error .exception
  else
    let (buf,inp) ← readText bufAdd (inp.length + 1) [] inp
    pure (some (bufAdd buf 0),inp)

/-- The buffer, and the lengths of the strings in it. -/
structure Strings where
  buf : List UInt8
  lens : List Nat
  deriving DecidableEq, Repr

/-- One element of an array. -/
def readElement (st : Strings) (inp : Input) : Code (Strings × Input) := do
  let (ch,inp) ← readToken inp
  if ch = .byte 0x6e then
    let inp ← testUll inp
    pure (⟨bufAdd st.buf 0,st.lens ++ [0]⟩,inp)
  else if ch ≠ .byte quote then .error .exception
  else
    let (buf,inp) ← readText bufAdd (inp.length + 1) st.buf inp
    pure (⟨bufAdd buf 0,st.lens ++ [buf.length - st.buf.length]⟩,inp)

/-- Elements up to the closing bracket. -/
def readElements : Nat → Strings → Input → Code (Strings × Input)
  | 0, _, _ => .error .stuck
  | fuel + 1, st, inp => do
    let (st,inp) ← readElement st inp
    let (ch,inp) ← readToken inp
    if ch = .byte 0x2c then readElements fuel st inp
    else if ch = .byte 0x5d then pure (st,inp)
    else .error .exception

/-- The memory at each of the array's pointers. -/
def pointers (str : List UInt8) : List Nat → List (List UInt8)
  | [] => []
  | len :: lens => str :: pointers (str.drop (len + 1)) lens

/-- The strings in the array, as the memory from each of them on. -/
def Strings.array (st : Strings) : List (List UInt8) := pointers (bufAdd st.buf 0) st.lens

def jsonReadAllocStringArray (inp : Input) : Code (Option (List (List UInt8)) × Input) := do
  let (ch,inp) ← readToken inp
  if ch = .byte 0x6e then
    let inp ← testUll inp
    pure (none,inp)
  else if ch ≠ .byte 0x5b then .error .exception
  else
    let (ch,inp) ← jsonPeek inp
    if ch = .byte 0x5d then pure (some (Strings.array ⟨[],[]⟩),inp.tail)
    else
      let (st,inp) ← readElements (inp.length + 1) ⟨[],[]⟩ inp
      pure (some st.array,inp)

end Tcf.Json
