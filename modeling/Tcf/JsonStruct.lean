import Tcf.JsonBinary

/-! Numbers, booleans, structs and arrays in JSON texts. `Appends` says what a writer adds to a
stream and `Reads` what a reader makes of a text; both go through the pieces of a writer or reader. -/
namespace Tcf.Json

open Framing

/-- The bytes of a string literal, without its NUL. -/
def literal (s : String) : List UInt8 := s.toUTF8.data.toList

/-- A decision that goes through the list, and not through all of its type. -/
theorem forall_of_all {α : Type} {p : α → Prop} [DecidablePred p] {l : List α} (all : l.all (fun x => decide (p x)) = true) : ∀ x ∈ l, p x :=
  fun x mem => of_decide_eq_true (List.all_eq_true.mp all x mem)

def comma : UInt8 := 0x2c
def colon : UInt8 := 0x3a

section Writers

variable {σ : Type} (S : OutStream σ)

/-- A character of `write_string` in a stream with a buffer. -/
def writeStringChar (s : σ) (ch : UInt8) : Code σ :=
  if ch ≠ ESC ∧ 0 < S.room s then pure (S.copy s [ch]) else S.write s (.byte ch)

/-- `write_string` -/
def writeString (s : σ) (str : List UInt8) : Code σ := str.foldlM (writeStringChar S) s

/-- `write_stringz` -/
def writeStringz (s : σ) (str : List UInt8) : Code σ := writeString S s (str ++ [0])

def jsonWriteLiteral (s : σ) (name : String) : Code σ := jsonWriteString S s (literal name ++ [0])

/-- `json_write_uint64`: the same digits as from `json_write_ulong`. -/
def jsonWriteUint64 (s : σ) (n : Nat) : Code σ := jsonWriteUlong S s n

def jsonWriteLong (s : σ) (n : Int) : Code σ :=
  if n < 0 then do
    let s ← S.writeByte s 0x2d
    jsonWriteUlong S s n.natAbs
  else jsonWriteUlong S s n.toNat

def jsonWriteBoolean (s : σ) (b : Bool) : Code σ := writeString S s (if b then literal "true" else literal "false")

/-- The name of a member and its value. -/
def writeMember (name : String) (value : σ → Code σ) (s : σ) : Code σ := do
  let s ← jsonWriteLiteral S s name
  let s ← S.writeByte s colon
  value s

/-- A part that is there on a condition. -/
def writeIf (c : Prop) [Decidable c] (write : σ → Code σ) (s : σ) : Code σ := if c then write s else pure s

/-- A member behind others. -/
def writeNext (name : String) (value : σ → Code σ) (s : σ) : Code σ := do
  let s ← S.writeByte s comma
  writeMember S name value s

end Writers

section Readers

def readWhitespace (inp : Input) : Code Input := do
  let (_,inp) ← jsonPeek inp
  pure inp

def jsonReadBoolean (inp : Input) : Code (Bool × Input) := do
  let (ch,inp) ← readToken inp
  if ch = .byte 0x74 then
    let inp ← jsonTestChar 0x72 inp
    let inp ← jsonTestChar 0x75 inp
    let inp ← jsonTestChar 0x65 inp
    pure (true,inp)
  else if ch = .byte 0x66 then
    let inp ← jsonTestChar 0x61 inp
    let inp ← jsonTestChar 0x6c inp
    let inp ← jsonTestChar 0x73 inp
    let inp ← jsonTestChar 0x65 inp
    pure (false,inp)
  else .error .exception

/-- `json_read_uint64`, and with it `json_read_ulong`. -/
def jsonReadUint64 (inp : Input) : Code (BitVec 64 × Input) := do
  let (n,inp) ← jsonReadUlong inp
  pure (BitVec.ofNat 64 n,inp)

/-- `json_read_long` runs through the same digits; a `long` has 64 bits. -/
def jsonReadLong (inp : Input) : Code (Int × Input) := do
  let (n,inp) ← jsonReadUlong inp
  pure ((BitVec.ofNat 64 n).toInt,inp)

/-- `(int)json_read_long(inp)` -/
def jsonReadInt (inp : Input) : Code (BitVec 32 × Input) := do
  let (n,inp) ← jsonReadLong inp
  pure (BitVec.ofInt 32 n,inp)

/-- What `strcmp` sees of the memory of a string. -/
def upToNul (memory : List UInt8) : List UInt8 := memory.takeWhile (· ≠ 0)

/-- A member's name, in 256 bytes, and the colon. -/
def readName (inp : Input) : Code (List UInt8 × Input) := do
  let ((nm,_),inp) ← jsonReadString inp (List.replicate 256 0)
  let inp ← readWhitespace inp
  let inp ← jsonTestChar colon inp
  pure (upToNul nm,inp)

variable {τ : Type}

def readMember (callBack : List UInt8 → τ → Input → Code (τ × Input)) (st : τ) (inp : Input) : Code (τ × Input) := do
  let (name,inp) ← readName inp
  callBack name st inp

/-- The loop of `json_read_struct` and `json_read_array`. -/
def readSeparated (close : UInt8) (item : τ → Input → Code (τ × Input)) : Nat → τ → Input → Code (τ × Input)
  | 0, _, _ => .error .stuck
  | fuel + 1, st, inp => do
    let (st,inp) ← item st inp
    let (ch,inp) ← readToken inp
    if ch = .byte comma then readSeparated close item fuel st inp
    else if ch = .byte close then pure (st,inp)
    else .error .exception

/-- What `json_read_struct` and `json_read_array` have in common. The result says that it was not null. -/
def readBracketed (opening close : UInt8) (item : τ → Input → Code (τ × Input)) (st : τ) (inp : Input) :
    Code ((Bool × τ) × Input) := do
  let (ch,inp) ← readToken inp
  if ch = .byte 0x6e then
    let inp ← testUll inp
    pure ((false,st),inp)
  else if ch ≠ .byte opening then .error .exception
  else
    let (ch,inp) ← jsonPeek inp
    if ch = .byte close then pure ((true,st),inp.tail)
    else
      let (st,inp) ← readSeparated close item (inp.length + 1) st inp
      pure ((true,st),inp)

def jsonReadStruct (callBack : List UInt8 → τ → Input → Code (τ × Input)) :
    τ → Input → Code ((Bool × τ) × Input) := readBracketed 0x7b 0x7d (readMember callBack)

def jsonReadArray (callBack : τ → Input → Code (τ × Input)) :
    τ → Input → Code ((Bool × τ) × Input) := readBracketed 0x5b 0x5d callBack

/-- `skip_char` -/
def skipChar (buf : List UInt8) (inp : Input) : Code ((UInt8 × List UInt8) × Input) := do
  let (ch,inp) ← readStream inp
  match ch with
  | .byte ch => pure ((ch,bufAdd buf ch),inp)
  | _ => .error .exception

/-- `skip_char` after white space, which is not kept. -/
def skipToken (buf : List UInt8) (inp : Input) : Code ((UInt8 × List UInt8) × Input) := do
  let inp ← readWhitespace inp
  skipChar buf inp

/-- `check_char` of each next character. -/
def skipChars : List UInt8 → List UInt8 → Input → Code (List UInt8 × Input)
  | [], buf, inp => pure (buf,inp)
  | x :: xs, buf, inp => do
    let ((ch,buf),inp) ← skipChar buf inp
    if ch = x then skipChars xs buf inp else .error .exception

/-- The rest of a string; what is escaped is not looked at. -/
def skipString : Nat → List UInt8 → Input → Code (List UInt8 × Input)
  | 0, _, _ => .error .stuck
  | fuel + 1, buf, inp => do
    let ((ch,buf),inp) ← skipChar buf inp
    if ch = quote then pure (buf,inp)
    else if ch = backslash then
      let ((_,buf),inp) ← skipChar buf inp
      skipString fuel buf inp
    else skipString fuel buf inp

def isNumberChar : Item → Bool
  | .byte ch => (0x30 ≤ ch && ch ≤ 0x39) || [0x2e,0x65,0x45,0x2d,0x2b].contains ch
  | _ => false

def skipNumber : Nat → List UInt8 → Input → Code (List UInt8 × Input)
  | 0, _, _ => .error .stuck
  | fuel + 1, buf, inp => do
    let ch ← peekStream inp
    if isNumberChar ch then
      let ((_,buf),inp) ← skipChar buf inp
      skipNumber fuel buf inp
    else pure (buf,inp)

/-- Items up to the closing bracket. -/
def skipSeparated (close : UInt8) (item : List UInt8 → Input → Code (List UInt8 × Input)) :
    Nat → List UInt8 → Input → Code (List UInt8 × Input)
  | 0, _, _ => .error .stuck
  | fuel + 1, buf, inp => do
    let (buf,inp) ← item buf inp
    let ((ch,buf),inp) ← skipToken buf inp
    if ch = comma then skipSeparated close item fuel buf inp
    else if ch = close then pure (buf,inp)
    else .error .exception

/-- What is between brackets. -/
def skipBracketed (close : UInt8) (item : List UInt8 → Input → Code (List UInt8 × Input)) (buf : List UInt8) (inp : Input) :
    Code (List UInt8 × Input) := do
  let (ch,inp) ← jsonPeek inp
  if ch = .byte close then
    let ((_,buf),inp) ← skipChar buf inp
    pure (buf,inp)
  else skipSeparated close item (inp.length + 1) buf inp

def skipMember (item : List UInt8 → Input → Code (List UInt8 × Input)) (buf : List UInt8) (inp : Input) :
    Code (List UInt8 × Input) := do
  let (buf,inp) ← item buf inp
  let ((ch,buf),inp) ← skipToken buf inp
  if ch = colon then item buf inp else .error .exception

/-- The bytes of a block. -/
def skipBytes : Nat → List UInt8 → Input → Code (List UInt8 × Input)
  | 0, buf, inp => pure (buf,inp)
  | size + 1, buf, inp => do
    let ((_,buf),inp) ← skipChar buf inp
    skipBytes size buf inp

/-- A block of binary data; the digits of its size are not kept. -/
def skipBlock (buf : List UInt8) (inp : Input) : Code (List UInt8 × Input) := do
  let (size,inp) ← jsonReadUlong inp
  let ((ch,buf),inp) ← skipChar buf inp
  if ch = 0x29 then skipBytes size buf inp else .error .exception

/-- `skip_object`, which adds to the buffer. -/
def skipObject : Nat → List UInt8 → Input → Code (List UInt8 × Input)
  | 0, _, _ => .error .stuck
  | fuel + 1, buf, inp => do
    let ((ch,buf),inp) ← skipToken buf inp
    if ch = 0x6e then skipChars (literal "ull") buf inp
    else if ch = 0x66 then skipChars (literal "alse") buf inp
    else if ch = 0x74 then skipChars (literal "rue") buf inp
    else if ch = quote then skipString (inp.length + 1) buf inp
    else if ch = 0x2d ∨ 0x30 ≤ ch ∧ ch ≤ 0x39 then skipNumber (inp.length + 1) buf inp
    else if ch = 0x5b then skipBracketed 0x5d (skipObject fuel) buf inp
    else if ch = 0x7b then skipBracketed 0x7d (skipMember (skipObject fuel)) buf inp
    else if ch = 0x28 then skipBlock buf inp
    else .error .exception

/-- The text of an object, as a C string. -/
def jsonReadObject (inp : Input) : Code (List UInt8 × Input) := do
  let (buf,inp) ← skipObject (inp.length + 1) [] inp
  pure (bufAdd buf 0,inp)

def jsonSkipObject (inp : Input) : Code Input := do
  let (_,inp) ← skipObject (inp.length + 1) [] inp
  pure inp

/-- `json_test_char(inp, MARKER_EOM)` does not pass white space. -/
def jsonTestEom (inp : Input) : Code Input := do
  let (ch,inp) ← readStream inp
  if ch = .eom then pure inp else .error .exception

end Readers

/-! Strings with runs of any length. -/

section Clipping

/-- What is written of a string: of each run as many bytes as its length has as an `unsigned`. -/
def clip : Nat → List UInt8 → List UInt8
  | 0, _ => []
  | fuel + 1, str =>
    let run := plainRun str
    run.take (unsigned run.length) ++ match str.drop run.length with
      | [] => []
      | ch :: rest => ch :: clip fuel rest

/-- No 2^32 bytes in a row without one to be escaped. -/
def ShortRuns (str : List UInt8) : Prop :=
  ∀ run, run <:+: str → (∀ ch ∈ run, charEscaping ch = false) → run.length < 2^32

theorem shortRuns_of_length {str : List UInt8} (short : str.length < 2^32) : ShortRuns str :=
  fun _ inside _ => Nat.lt_of_le_of_lt inside.length_le short

theorem take_unsigned {run : List UInt8} : run.take (unsigned run.length) = run ↔ run.length < 2^32 := by
  constructor
  · intro whole
    have length := congrArg List.length whole
    have bound : unsigned run.length < 2^32 := Nat.mod_lt _ (by decide)
    rw [List.length_take] at length
    omega
  · intro short
    rw [unsigned,Nat.mod_eq_of_lt short,List.take_length]

theorem clip_length (fuel : Nat) (str : List UInt8) : (clip fuel str).length ≤ str.length := by
  induction fuel generalizing str with
  | zero => exact Nat.zero_le _
  | succ fuel ih =>
    have whole := congrArg List.length (plainRun_split str).1
    rw [List.length_append] at whole
    simp only [clip,List.length_append,List.length_take]
    cases drop : str.drop (plainRun str).length with
    | nil =>
      simp only [List.length_nil]
      omega
    | cons ch rest =>
      have rest_ := ih rest
      rw [drop,List.length_cons] at whole
      simp only [List.length_cons]
      omega

theorem clip_fuel {f g : Nat} {str : List UInt8} (enough : str.length < f) (enough' : str.length < g) :
    clip f str = clip g str := by
  induction f generalizing g str with
  | zero => omega
  | succ f ih =>
    obtain ⟨g,rfl⟩ := Nat.exists_eq_succ_of_ne_zero (Nat.ne_of_gt (Nat.zero_lt_of_lt enough'))
    have whole := congrArg List.length (plainRun_split str).1
    rw [List.length_append] at whole
    simp only [clip]
    cases drop : str.drop (plainRun str).length with
    | nil => rfl
    | cons ch rest =>
      rw [drop,List.length_cons] at whole
      have later : clip f rest = clip g rest := ih (by omega) (by omega)
      simp only [later]

/-- A run lies on one side of a byte to be escaped. -/
theorem infix_side {run front rest : List UInt8} {ch : UInt8} (plain : ∀ ch ∈ run, charEscaping ch = false)
    (special : charEscaping ch = true) (inside : run <:+: front ++ ch :: rest) :
    run <:+: front ∨ run <:+: rest := by
  obtain ⟨before,after,whole⟩ := inside
  rw [List.append_assoc,List.append_eq_append_iff] at whole
  rcases whole with ⟨more,rfl,whole⟩ | ⟨more,rfl,whole⟩
  · rw [List.append_eq_append_iff] at whole
    rcases whole with ⟨last,rfl,_⟩ | ⟨last,rfl,back⟩
    · exact .inl ⟨before,last,by simp⟩
    · cases last with
      | nil => exact .inl ⟨before,[],by simp⟩
      | cons first last =>
        obtain ⟨rfl,_⟩ := List.cons_eq_cons.mp back
        have member := plain ch (by simp)
        rw [special] at member
        cases member
  · cases more with
    | nil =>
      cases run with
      | nil => exact .inl List.nil_infix
      | cons first run =>
        obtain ⟨rfl,_⟩ := List.cons_eq_cons.mp whole
        have member := plain ch (by simp)
        rw [special] at member
        cases member
    | cons first more =>
      obtain ⟨rfl,rest_⟩ := List.cons_eq_cons.mp whole
      exact .inr ⟨more,after,by simpa using rest_.symm⟩

theorem clip_eq_iff {fuel : Nat} {str : List UInt8} (enough : str.length < fuel) :
    clip fuel str = str ↔ ShortRuns str := by
  induction fuel generalizing str with
  | zero => omega
  | succ fuel ih =>
    obtain ⟨split,plain,special⟩ := plainRun_split str
    simp only [clip]
    cases drop : str.drop (plainRun str).length with
    | nil =>
      rw [drop,List.append_nil] at split
      rw [List.append_nil]
      have same : (plainRun str).take (unsigned (plainRun str).length) = str ↔
          (plainRun str).take (unsigned (plainRun str).length) = plainRun str := by rw [← split]
      rw [same,take_unsigned]
      constructor
      · intro short
        rw [← split] at short
        exact shortRuns_of_length short
      · intro runs
        exact runs _ (List.takeWhile_prefix _).isInfix plain
    | cons ch rest =>
      rw [drop] at split
      have count := congrArg List.length split
      rw [List.length_append,List.length_cons] at count
      have ch_special := special ch rest drop
      have later : clip fuel rest = rest ↔ ShortRuns rest := ih (by omega)
      have parts : (plainRun str).take (unsigned (plainRun str).length) ++ ch :: clip fuel rest = str ↔
          (plainRun str).length < 2^32 ∧ ShortRuns rest := by
        rw [← later,← take_unsigned]
        constructor
        · intro whole
          have length := congrArg List.length whole
          have rest_ := clip_length fuel rest
          rw [List.length_append,List.length_cons,List.length_take] at length
          have equal := whole.trans split
          have same : ((plainRun str).take (unsigned (plainRun str).length)).length = (plainRun str).length := by
            rw [List.length_take]
            omega
          obtain ⟨front,back⟩ := List.append_inj equal same
          exact ⟨front,(List.cons_eq_cons.mp back).2⟩
        · rintro ⟨front,back⟩
          rw [front,back]
          exact split.symm
      rw [parts]
      constructor
      · rintro ⟨short,runs⟩ run inside run_plain
        rw [split] at inside
        rcases infix_side run_plain ch_special inside with front | back
        · exact Nat.lt_of_le_of_lt front.length_le short
        · exact runs run back run_plain
      · intro runs
        refine ⟨runs _ (List.takeWhile_prefix _).isInfix plain,fun run inside => runs run ?_⟩
        rw [split]
        exact inside.trans ⟨plainRun str ++ [ch],[],by simp⟩

end Clipping

/-! What writers append. -/

section Appending

variable {σ : Type} (S : OutStream σ)

def Appends (write : σ → Code σ) (text : Input) : Prop :=
  ∀ s items, S.Holds s items → ∃ next, write s = .ok next ∧ S.Holds next (items ++ text)

variable {S}

theorem appends_nothing : Appends S pure [] := fun s items h => ⟨s,rfl,by simpa using h⟩

theorem appends_bind {first second : σ → Code σ} {front back : Input} (one : Appends S first front)
    (two : Appends S second back) : Appends S (fun s => first s >>= second) (front ++ back) := by
  intro s items h
  obtain ⟨middle,run,holds⟩ := one s items h
  obtain ⟨next,run',holds'⟩ := two middle _ holds
  refine ⟨next,?_,by simpa using holds'⟩
  simp only [run,Code.ok_bind]
  exact run'

theorem appends_if {c : Prop} [Decidable c] {write : σ → Code σ} {text : Input} (writes : c → Appends S write text) :
    Appends S (writeIf c write) (if c then text else []) := by
  intro s items h
  by_cases holds : c
  · simp only [writeIf,if_pos holds]
    exact writes holds s items h
  · simp only [writeIf,if_neg holds]
    exact appends_nothing s items h

theorem appends_byte (ch : UInt8) : Appends S (S.writeByte · ch) [.byte ch] := fun _ _ h => S.writeByte_holds h ch

theorem appends_eom : Appends S (S.write · .eom) [.eom] := fun _ _ h => S.write_holds h .eom

theorem appends_char (ch : UInt8) : Appends S (writeStringChar S · ch) [.byte ch] := by
  intro s items h
  simp only [writeStringChar]
  split
  next fast =>
    have free : ESC ∉ [ch] := by simpa using Ne.symm fast.1
    exact ⟨_,rfl,S.copy_holds h [ch] free fast.2⟩
  next => exact S.write_holds h (.byte ch)

theorem appends_string (str : List UInt8) : Appends S (writeString S · str) (str.map .byte) := by
  induction str with
  | nil => exact appends_nothing
  | cons ch rest ih =>
    have both := appends_bind (appends_char ch) ih
    simpa [writeString] using both

theorem appends_ulong (n : Nat) : Appends S (jsonWriteUlong S · n) ((decimal n).map .byte) :=
  fun _ _ h => jsonWriteUlong_holds h n

/-- The text of an integer. -/
def signed (n : Int) : List UInt8 := if n < 0 then 0x2d :: decimal n.natAbs else decimal n.toNat

theorem appends_long (n : Int) : Appends S (jsonWriteLong S · n) ((signed n).map .byte) := by
  unfold jsonWriteLong signed
  by_cases negative : n < 0
  · simp only [if_pos negative]
    exact appends_bind (appends_byte 0x2d) (appends_ulong n.natAbs)
  · simp only [if_neg negative]
    exact appends_ulong n.toNat

theorem appends_quoted {str : List UInt8} (short : str.length < 2^32) (nulFree : 0 ∉ str) (junk : List UInt8) :
    Appends S (jsonWriteString S · (str ++ 0 :: junk)) ((quoted str).map .byte) :=
  fun _ _ h => jsonWriteString_holds h short nulFree junk

theorem appends_run {run : List UInt8} (plain : ∀ ch ∈ run, charEscaping ch = false) :
    Appends S (writeRun S · run) ((run.take (unsigned run.length)).map .byte) := by
  intro s items h
  by_cases empty : run = []
  · subst empty
    exact ⟨s,rfl,by simpa using h⟩
  · have free : ESC ∉ run.take (unsigned run.length) :=
      fun member => (plain_bytes (plain ESC (List.mem_of_mem_take member))).1 rfl
    have bound : unsigned run.length ≤ run.length := Nat.mod_le _ _
    simp only [writeRun,if_neg empty]
    split
    next fits =>
      exact ⟨_,rfl,S.copy_holds h _ free (by rwa [List.length_take,min_eq_left bound])⟩
    next => exact S.writeBlock_holds h _

theorem appends_escape {ch : UInt8} (special : charEscaping ch = true) :
    Appends S (S.writeBytes · (escapeSeq ch)) ((escape ch).map .byte) := by
  intro s items h
  rw [escape,if_pos special]
  exact S.writeBytes_holds _ h

theorem appends_writeZ {fuel : Nat} {str : List UInt8} (enough : str.length < fuel) (nulFree : 0 ∉ str)
    (junk : List UInt8) :
    Appends S (writeZ S fuel · (str ++ 0 :: junk)) (((clip fuel str).flatMap escape).map .byte) := by
  induction fuel generalizing str with
  | zero => omega
  | succ fuel ih =>
    obtain ⟨split,plain,special⟩ := plainRun_split str
    have same := plainRun_nul str junk
    have count := congrArg List.length split
    rw [List.length_append] at count
    have drop_ : (str ++ 0 :: junk).drop (plainRun str).length = str.drop (plainRun str).length ++ 0 :: junk :=
      List.drop_append_of_le_length (by omega)
    have run_plain : ((plainRun str).take (unsigned (plainRun str).length)).flatMap escape =
        (plainRun str).take (unsigned (plainRun str).length) :=
      escape_plain fun ch member => plain ch (List.mem_of_mem_take member)
    simp only [writeZ,same,drop_,clip,List.flatMap_append,run_plain,List.map_append]
    refine appends_bind (appends_run plain) ?_
    cases drop : str.drop (plainRun str).length with
    | nil => exact appends_nothing
    | cons ch rest =>
      rw [drop] at count split
      rw [List.length_cons] at count
      have nonzero : ch ≠ 0 := by
        rintro rfl
        exact nulFree (split ▸ List.mem_append_right _ List.mem_cons_self)
      have free : 0 ∉ rest := fun member =>
        nulFree (split ▸ List.mem_append_right _ (List.mem_cons_of_mem _ member))
      simp only [List.cons_append,if_neg nonzero,List.flatMap_cons,List.map_append]
      exact appends_bind (appends_escape (special ch rest drop)) (ih (by omega) free)

/-- What is written of a string of any length. -/
def clipped (str : List UInt8) : List UInt8 := clip (str.length + 1) str

theorem clipped_eq_iff (str : List UInt8) : clipped str = str ↔ ShortRuns str := clip_eq_iff (Nat.lt_succ_self _)

theorem appends_clipped {str : List UInt8} (nulFree : 0 ∉ str) (junk : List UInt8) :
    Appends S (jsonWriteString S · (str ++ 0 :: junk)) ((quoted (clipped str)).map .byte) := by
  have enough : str.length < (str ++ 0 :: junk).length + 1 := by
    rw [List.length_append]
    omega
  have text := appends_bind (appends_byte quote) (appends_bind (@appends_writeZ σ S _ _ enough nulFree junk)
    (appends_byte quote))
  rw [clip_fuel enough (Nat.lt_succ_self _)] at text
  simpa [quoted,clipped,jsonWriteString] using text

/-- The name and value of a member. -/
def memberText (name : String) (text : Input) : Input :=
  (quoted (literal name)).map .byte ++ .byte colon :: text

/-- Names that `char nm[256]` can hold. -/
def IsName (name : String) : Prop := (literal name).length < 256 ∧ 0 ∉ literal name

instance (name : String) : Decidable (IsName name) := inferInstanceAs (Decidable (_ ∧ _))

theorem appends_member {name : String} (isName : IsName name) {value : σ → Code σ} {text : Input}
    (writes : Appends S value text) : Appends S (writeMember S name value) (memberText name text) := by
  obtain ⟨short,nulFree⟩ := isName
  have quoted_ := @appends_quoted σ S _ (by omega) nulFree []
  exact appends_bind quoted_ (appends_bind (appends_byte colon) writes)

theorem appends_next {name : String} (isName : IsName name) {value : σ → Code σ} {text : Input}
    (writes : Appends S value text) : Appends S (writeNext S name value) (.byte comma :: memberText name text) :=
  appends_bind (appends_byte comma) (appends_member isName writes)

end Appending

/-! What readers make of a text. -/

section Reading

variable {α β τ : Type}

/-- The value of a text in front of a character that is no digit. -/
def Reads (read : Input → Code (α × Input)) (text : Input) (value : α) : Prop :=
  ∀ (stop : UInt8) (rest : Input), stop < 0x30 ∨ stop > 0x39 →
    read (text ++ .byte stop :: rest) = .ok (value,.byte stop :: rest)

theorem reads_map {read : Input → Code (α × Input)} {text : Input} {value : α} (f : α → β)
    (reads : Reads read text value) :
    Reads (fun inp => do let (value,inp) ← read inp; pure (f value,inp)) text (f value) := by
  intro stop rest out
  simp only [reads stop rest out,Code.ok_bind,Code.pure_eq]

theorem reads_ulong {n : Nat} (small : n < 2^64) : Reads jsonReadUlong ((decimal n).map .byte) n :=
  fun _ rest out => jsonReadUlong_decimal small out rest

theorem reads_uint64 (n : BitVec 64) : Reads jsonReadUint64 ((decimal n.toNat).map .byte) n := by
  have reads := reads_map (BitVec.ofNat 64) (reads_ulong n.isLt)
  rwa [BitVec.ofNat_toNat,BitVec.setWidth_eq] at reads

theorem reads_alloc_string (str : List UInt8) :
    Reads jsonReadAllocString ((quoted str).map .byte) (some (str ++ [0])) :=
  fun _ _ _ => jsonReadAllocString_quoted str _

theorem reads_true : Reads jsonReadBoolean ((literal "true").map .byte) true := fun _ _ _ => rfl

/-- A minus sign and digits. -/
theorem jsonReadUlong_negative {n : Nat} (small : n < 2^64) {stop : UInt8} (out : stop < 0x30 ∨ stop > 0x39)
    (rest : Input) :
    jsonReadUlong ((0x2d :: decimal n).map Item.byte ++ .byte stop :: rest) =
      .ok ((2^64 - n) % 2^64,.byte stop :: rest) := by
  obtain ⟨digits,some_⟩ := decimal_digits n
  have value := decimal_value small
  obtain ⟨ch,ds,split⟩ := List.exists_cons_of_ne_nil some_
  rw [split] at digits value ⊢
  obtain ⟨first,later⟩ := List.forall_mem_cons.mp digits
  have first_ : addDigit 0 ch = ch.toNat - 0x30 := by
    obtain ⟨low,high⟩ := first
    simp only [addDigit]
    omega
  rw [List.foldl_cons,first_] at value
  rw [List.map_cons,List.cons_append,jsonReadUlong,readToken_plain (by decide)]
  simp [readSign,readStream,not_out first,readDigits_run later out,value]

theorem reads_long {n : Int} (low : -2^63 ≤ n) (high : n < 2^63) :
    Reads jsonReadLong ((signed n).map .byte) n := by
  intro stop rest out
  unfold signed jsonReadLong
  by_cases negative : n < 0
  · have value : (BitVec.ofNat 64 ((2^64 - n.natAbs) % 2^64)).toInt = n := by
      rw [BitVec.toInt_ofNat',Int.bmod_def]
      split <;> omega
    rw [if_pos negative,jsonReadUlong_negative (by omega) out]
    simp only [Code.ok_bind,value,Code.pure_eq]
  · have value : (BitVec.ofNat 64 n.toNat).toInt = n := by
      rw [BitVec.toInt_ofNat',Int.bmod_def]
      split <;> omega
    rw [if_neg negative,jsonReadUlong_decimal (by omega) out]
    simp only [Code.ok_bind,value,Code.pure_eq]

theorem reads_int (n : BitVec 32) : Reads jsonReadInt ((signed n.toInt).map .byte) n := by
  have low := @BitVec.le_toInt 32 n
  have high := @BitVec.toInt_lt 32 n
  have reads := reads_map (BitVec.ofInt 32) (reads_long (n := n.toInt) (by omega) (by omega))
  rwa [BitVec.ofInt_toInt] at reads

/-- What `json_write_ulong` makes of an `int` that is not negative. -/
theorem reads_int_ulong {n : BitVec 32} (positive : 0 ≤ n.toInt) :
    Reads jsonReadInt ((decimal n.toInt.toNat).map .byte) n := by
  have reads := reads_int n
  rwa [signed,if_neg (by omega)] at reads

theorem upToNul_append {str : List UInt8} (nulFree : 0 ∉ str) (junk : List UInt8) :
    upToNul (str ++ 0 :: junk) = str := by
  have all : ∀ ch ∈ str, decide (ch ≠ 0) = true := by
    intro ch member
    rw [decide_eq_true_iff]
    rintro rfl
    exact nulFree member
  rw [upToNul,List.takeWhile_append_of_pos all]
  simp

/-- A string that fits whole into 256 bytes. -/
theorem jsonReadString_whole {str : List UInt8} (short : str.length < 256) (nulFree : 0 ∉ str) (rest : Input) :
    ∃ after, jsonReadString ((quoted str).map Item.byte ++ rest) (List.replicate 256 0) = .ok ((after,str.length),rest) ∧
      upToNul after = str := by
  obtain ⟨after,run,_,⟨junk,cells⟩⟩ := @jsonReadString_quoted str (List.replicate 256 0) (by omega) (by decide) rest
  have whole : str.length ≤ (List.replicate 256 (0 : UInt8)).length - 1 := by
    rw [List.length_replicate]
    omega
  rw [List.take_of_length_le whole,List.append_assoc] at cells
  exact ⟨after,run,by rw [← cells]; exact upToNul_append nulFree junk⟩

theorem readName_bytes {name : List UInt8} (short : name.length < 256) (nulFree : 0 ∉ name) (rest : Input) :
    readName ((quoted name).map .byte ++ .byte colon :: rest) = .ok (name,rest) := by
  obtain ⟨after,run,same⟩ := jsonReadString_whole short nulFree (.byte colon :: rest)
  have spaces : readWhitespace (.byte colon :: rest) = .ok (.byte colon :: rest) := rfl
  have test : jsonTestChar colon (.byte colon :: rest) = .ok rest := by
    rw [jsonTestChar,readToken_plain rfl]
    rfl
  simp only [readName,run,Code.ok_bind,spaces,test,Code.pure_eq,same]

theorem readName_text {name : String} (isName : IsName name) (rest : Input) :
    readName ((quoted (literal name)).map .byte ++ .byte colon :: rest) = .ok (literal name,rest) :=
  readName_bytes isName.1 isName.2 rest

theorem reads_member {name : String} (isName : IsName name)
    {callBack : List UInt8 → τ → Input → Code (τ × Input)} {st next : τ} {text : Input}
    (reads : Reads (callBack (literal name) st) text next) :
    Reads (readMember callBack st) (memberText name text) next := by
  intro stop rest out
  have whole : memberText name text ++ .byte stop :: rest =
      (quoted (literal name)).map .byte ++ .byte colon :: (text ++ .byte stop :: rest) := by simp [memberText]
  rw [whole,readMember,readName_text isName]
  exact reads stop rest out

/-- A run of an item reader over the texts of items. -/
inductive Runs (item : τ → Input → Code (τ × Input)) : τ → List Input → τ → Prop where
  | nil : Runs item st [] st
  | cons : Reads (item st) text middle → Runs item middle texts final → Runs item st (text :: texts) final

variable {item : τ → Input → Code (τ × Input)}

theorem Runs.append {st middle final : τ} {xs ys : List Input}
    (first : Runs item st xs middle) (second : Runs item middle ys final) : Runs item st (xs ++ ys) final := by
  induction first with
  | nil => exact second
  | cons reads _ ih => exact .cons reads (ih second)

/-- Items with commas between them, and the closing bracket. -/
def separated (close : UInt8) : List Input → Input
  | [] => [.byte close]
  | text :: texts => text ++ texts.flatMap (.byte comma :: ·) ++ [.byte close]

theorem readSeparated_text {close : UInt8} (bracket : close = 0x7d ∨ close = 0x5d)
    {fuel : Nat} {st final : τ} {text : Input} {texts : List Input}
    (runs : Runs item st (text :: texts) final) (enough : texts.length < fuel) (rest : Input) :
    readSeparated close item fuel st (separated close (text :: texts) ++ rest) = .ok (final,rest) := by
  induction texts generalizing fuel st text with
  | nil =>
    obtain ⟨fuel,rfl⟩ := Nat.exists_eq_succ_of_ne_zero (Nat.ne_of_gt enough)
    cases runs with
    | cons reads later =>
      cases later
      have out : close < 0x30 ∨ close > 0x39 := by rcases bracket with rfl | rfl <;> decide
      have no_comma : ¬Item.byte close = .byte comma := by rcases bracket with rfl | rfl <;> decide
      have plain : isSpace (.byte close) = false := by rcases bracket with rfl | rfl <;> rfl
      have whole : separated close [text] ++ rest = text ++ .byte close :: rest := by simp [separated]
      rw [whole,readSeparated,reads close rest out]
      simp only [Code.ok_bind,readToken_plain plain,if_neg no_comma,if_true,Code.pure_eq]
  | cons next texts ih =>
    obtain ⟨fuel,rfl⟩ := Nat.exists_eq_succ_of_ne_zero (Nat.ne_of_gt (Nat.zero_lt_of_lt enough))
    cases runs with
    | cons reads later =>
      have enough' : texts.length < fuel := by simpa using enough
      have whole : separated close (text :: next :: texts) ++ rest =
          text ++ .byte comma :: (separated close (next :: texts) ++ rest) := by simp [separated]
      rw [whole,readSeparated,reads comma _ (by decide)]
      simp only [Code.ok_bind,readToken_plain (show isSpace (.byte comma) = false from rfl),if_true]
      exact ih later enough'

/-- A text that begins with a character that is neither white space nor a closing bracket. -/
def Begins (text : Input) : Prop :=
  ∃ ch rest, text = .byte ch :: rest ∧ isSpace (.byte ch) = false ∧ ch ≠ 0x7d ∧ ch ≠ 0x5d

theorem begins_member (name : String) (text : Input) : Begins (memberText name text) := by
  refine ⟨quote,((literal name).flatMap escape ++ [quote]).map .byte ++ .byte colon :: text,?_,rfl,by decide,by decide⟩
  simp [memberText,quoted]

theorem separated_length (close : UInt8) (text : Input) (texts : List Input) :
    texts.length < (separated close (text :: texts)).length := by
  have grows : texts.length ≤ (texts.flatMap (Item.byte comma :: ·)).length := by
    induction texts with
    | nil => exact Nat.le_refl _
    | cons text texts ih =>
      simp only [List.flatMap_cons,List.length_append,List.length_cons]
      omega
  simp only [separated,List.length_append,List.length_singleton]
  omega

/-- A struct or an array with at least one item. -/
theorem readBracketed_text {opening close : UInt8} (brackets : opening = 0x7b ∧ close = 0x7d ∨ opening = 0x5b ∧ close = 0x5d)
    {st final : τ} {text : Input} {texts : List Input}
    (begins : Begins text) (runs : Runs item st (text :: texts) final) :
    Reads (readBracketed opening close item st) (.byte opening :: separated close (text :: texts)) (true,final) := by
  intro stop rest out
  obtain ⟨ch,tail,rfl,plain,no_brace,no_bracket⟩ := begins
  have enough : texts.length <
      (separated close ((.byte ch :: tail) :: texts) ++ .byte stop :: rest).length + 1 := by
    have grows := separated_length close (.byte ch :: tail) texts
    rw [List.length_append]
    omega
  have read := readSeparated_text (brackets.imp And.right And.right) runs enough (.byte stop :: rest)
  have peek : jsonPeek (separated close ((.byte ch :: tail) :: texts) ++ .byte stop :: rest) =
      .ok (.byte ch,separated close ((.byte ch :: tail) :: texts) ++ .byte stop :: rest) := by
    simp [separated,jsonPeek,plain]
  have different : ¬Item.byte ch = .byte close := by
    rcases brackets with ⟨_,rfl⟩ | ⟨_,rfl⟩
    · simpa using no_brace
    · simpa using no_bracket
  have token : isSpace (.byte opening) = false := by rcases brackets with ⟨rfl,_⟩ | ⟨rfl,_⟩ <;> rfl
  have no_null : ¬Item.byte opening = .byte 0x6e := by rcases brackets with ⟨rfl,_⟩ | ⟨rfl,_⟩ <;> decide
  rw [List.cons_append,readBracketed,readToken_plain token]
  simp only [Code.ok_bind,if_neg no_null,ne_eq,not_true,if_false,peek,if_neg different,read,Code.pure_eq]

theorem readBracketed_empty {opening close : UInt8} (brackets : opening = 0x7b ∧ close = 0x7d ∨ opening = 0x5b ∧ close = 0x5d)
    (item : τ → Input → Code (τ × Input)) (st : τ) :
    Reads (readBracketed opening close item st) (.byte opening :: separated close []) (true,st) := by
  intro stop rest out
  rcases brackets with ⟨rfl,rfl⟩ | ⟨rfl,rfl⟩ <;> rfl

theorem readBracketed_null (opening close : UInt8) (item : τ → Input → Code (τ × Input)) (st : τ) :
    Reads (readBracketed opening close item st) ((literal "null").map .byte) (false,st) := fun _ _ _ => rfl

end Reading

end Tcf.Json
