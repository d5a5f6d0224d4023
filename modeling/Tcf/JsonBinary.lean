import Tcf.Base64
import Tcf.JsonString

/-! Binary data in JSON texts, as a block of a given size or as BASE64: however it is split
between the calls that write it and the calls that read it, it comes back. -/
namespace Tcf.Json

open Framing

inductive Encoding where
  | binary
  | base64
  deriving DecidableEq, Repr

/-- `json_write_ulong` -/
def jsonWriteUlong {σ : Type} (S : OutStream σ) (s : σ) (n : Nat) : Code σ :=
  if n ≥ 10 then do
    let s ← jsonWriteUlong S s (n / 10)
    S.writeByte s (UInt8.ofNat (n % 10 + 0x30))
  else S.writeByte s (UInt8.ofNat (n + 0x30))
termination_by n
decreasing_by omega

/-- `JsonWriteBinaryState`. `buf` has the `rem` bytes that wait for others of their group. -/
structure Writer (σ : Type) where
  out : σ
  encoding : Encoding
  sizeStart : Nat
  sizeDone : Nat
  buf : List UInt8

section Writers

variable {σ : Type} (S : OutStream σ)

def jsonWriteBinaryStart (out : σ) (size : Nat) : Code (Writer σ) :=
  if S.supportsZeroCopy out = true ∧ size > 0 then do
    let out ← S.writeByte out 0x28
    let out ← jsonWriteUlong S out size
    let out ← S.writeByte out 0x29
    pure ⟨out,.binary,size,0,[]⟩
  else do
    let out ← S.writeByte out quote
    pure ⟨out,.base64,size,0,[]⟩

/-- Waiting bytes are made a group, as far as the data goes. Returns the rest of it. -/
def completeGroup (st : Writer σ) (data : List UInt8) : Code (Writer σ × List UInt8) := do
  if st.buf.length > 0 then
    let buf := st.buf ++ data.take (3 - st.buf.length)
    let data := data.drop (3 - st.buf.length)
    require (buf.length ≤ 3)
    if buf.length ≥ 3 then
      let out ← writeBase64 S st.out buf
      pure ({ st with out, buf := [] },data)
    else pure ({ st with buf },data)
  else pure (st,data)

/-- Whole groups are written; what is left waits. -/
def writeGroups (st : Writer σ) (data : List UInt8) : Code (Writer σ) := do
  if data.length > 0 then
    require (st.buf = [])
    let len := data.length - data.length % 3
    let out ← writeBase64 S st.out (data.take len)
    pure { st with out, buf := data.drop len, sizeDone := st.sizeDone + len }
  else pure st

def jsonWriteBinaryData (st : Writer σ) (data : List UInt8) : Code (Writer σ) :=
  if data.length = 0 then pure st
  else match st.encoding with
    | .binary => do
      let out ← S.writeBlock st.out data
      pure { st with out, sizeDone := st.sizeDone + data.length }
    | .base64 => do
      let (st,data) ← completeGroup S st data
      writeGroups S st data

/-- The last group, which may be short. -/
def writeWaiting (st : Writer σ) : Code σ :=
  if st.buf.length > 0 then writeBase64 S st.out st.buf else pure st.out

def jsonWriteBinaryEnd (st : Writer σ) : Code σ :=
  match st.encoding with
  | .binary => do
    require (st.sizeStart = st.sizeDone)
    pure st.out
  | .base64 => do
    let out ← writeWaiting S st
    S.writeByte out quote

/-- `data` is not NULL. -/
def jsonWriteBinary (out : σ) (data : List UInt8) : Code σ := do
  let st ← jsonWriteBinaryStart S out data.length
  let st ← jsonWriteBinaryData S st data
  jsonWriteBinaryEnd S st

/-- The data written in any number of calls. -/
def writeInParts (out : σ) (size : Nat) (parts : List (List UInt8)) : Code σ := do
  let st ← jsonWriteBinaryStart S out size
  let st ← parts.foldlM (jsonWriteBinaryData S) st
  jsonWriteBinaryEnd S st

end Writers

/-- Digits up to another character. -/
def readDigits : Nat → Input → Code (Nat × Input)
  | _, [] => .error .stuck
  | res, .byte ch :: rest =>
    if ch < 0x30 ∨ ch > 0x39 then .ok (res,.byte ch :: rest)
    else readDigits ((res * 10 + (ch.toNat - 0x30)) % 2^64) rest
  | res, marker :: rest => .ok (res,marker :: rest)

/-- A minus sign, and the character after it. -/
def readSign (ch : Item) (inp : Input) : Code (Item × Input) :=
  if ch = .byte 0x2d then readStream inp else pure (ch,inp)

def jsonReadUlong (inp : Input) : Code (Nat × Input) := do
  let (ch,inp) ← readToken inp
  let neg := ch == .byte 0x2d
  let (ch,inp) ← readSign ch inp
  match ch with
  | .byte ch =>
    if ch < 0x30 ∨ ch > 0x39 then .error .exception
    else do
      let (res,inp) ← readDigits (ch.toNat - 0x30) inp
      pure (if neg then (2^64 - res) % 2^64 else res,inp)
  | _ => .error .exception

/-- `JsonReadBinaryState`. `buf` has the `rem` bytes that did not fit before. -/
structure Reader where
  inp : Input
  encoding : Encoding
  sizeStart : Nat
  sizeDone : Nat
  buf : List UInt8

def jsonReadBinaryStart (inp : Input) : Code Reader := do
  let (ch,inp) ← readToken inp
  if ch = .byte 0x28 then
    let (size,inp) ← jsonReadUlong inp
    let inp ← jsonTestChar 0x29 inp
    pure ⟨inp,.binary,size,0,[]⟩
  else if ch = .byte quote then pure ⟨inp,.base64,0,0,[]⟩
  else if ch = .byte 0x6e then
    let inp ← testUll inp
    pure ⟨inp,.binary,0,0,[]⟩
  else .error .exception

/-- `(uint8_t)inp->read(inp)` a number of times. -/
def readRaw : Nat → Input → Code (List UInt8 × Input)
  | 0, inp => .ok ([],inp)
  | _ + 1, [] => .error .stuck
  | n + 1, ch :: rest => do
    let (bytes,inp) ← readRaw n rest
    pure (ch.char :: bytes,inp)

/-- The loop of `json_read_binary_data` for BASE64; `len` is what the client's buffer has left.
`early` is a return from inside the loop. -/
def readParts : Nat → Reader → Nat → Code ((List UInt8 × Bool) × Reader)
  | 0, _, _ => .error .stuck
  | fuel + 1, st, len =>
    if len = 0 then pure (([],false),st)
    else do
      require (st.buf.length ≤ 3)
      let front := st.buf.take len
      if front.length < st.buf.length then
        pure ((front,true),{ st with buf := st.buf.drop len })
      else
        let len := len - front.length
        if len ≥ 3 then
          let (bytes,inp) ← readBase64 st.inp len
          if bytes = [] then pure ((front,false),{ st with inp, buf := [] })
          else
            let (more,st) ← readParts fuel { st with inp, buf := [] } (len - bytes.length)
            pure ((front ++ (bytes ++ more.1),more.2),st)
        else
          let (bytes,inp) ← readBase64 st.inp 3
          if bytes = [] then pure ((front,false),{ st with inp, buf := [] })
          else
            let (more,st) ← readParts fuel { st with inp, buf := bytes } len
            pure ((front ++ more.1,more.2),st)

def jsonReadBinaryData (st : Reader) (len : Nat) : Code (List UInt8 × Reader) := do
  match st.encoding with
  | .binary =>
    let (bytes,inp) ← readRaw (min len (st.sizeStart - st.sizeDone)) st.inp
    pure (bytes,{ st with inp, sizeDone := st.sizeDone + bytes.length })
  | .base64 =>
    let ((bytes,early),st) ← readParts (2 * len + 2) st len
    pure (bytes,if early then st else { st with sizeDone := st.sizeDone + bytes.length })

def jsonReadBinaryEnd (st : Reader) : Code Input :=
  if st.buf.length ≠ 0 then .error .exception
  else match st.encoding with
    | .binary => do
      require (st.sizeStart = st.sizeDone)
      pure st.inp
    | .base64 => jsonTestChar quote st.inp

/-- A client reads until it gets nothing; the lengths of its buffers are given by `lens`. -/
def readAll (lens : Nat → Nat) : Nat → Nat → Reader → Code (List UInt8 × Reader)
  | 0, _, _ => .error .stuck
  | calls + 1, k, st => do
    let (bytes,st) ← jsonReadBinaryData st (lens k)
    if bytes = [] then pure ([],st)
    else
      let (more,st) ← readAll lens calls (k + 1) st
      pure (bytes ++ more,st)

/-- `realloc_buf`, when the buffer is full -/
def growBuf (pos size : Nat) : Nat := if pos ≥ size then (if size = 0 then 0x1000 else size * 2) else size

/-- The loop of `json_read_alloc_binary`. The buffer is static; `size` is what it has now. -/
def readAllocLoop : Nat → List UInt8 → Nat → Reader → Code (List UInt8 × Reader)
  | 0, _, _, _ => .error .stuck
  | calls + 1, buf, size, st => do
    let size := growBuf buf.length size
    let (bytes,st) ← jsonReadBinaryData st (size - buf.length)
    if bytes = [] then pure (buf,st) else readAllocLoop calls (buf ++ bytes) size st

/-- Returns the data, or `none` for NULL. -/
def jsonReadAllocBinary (calls bufSize : Nat) (inp : Input) : Code (Option (List UInt8) × Input) := do
  let (ch,inp) ← jsonPeek inp
  if ch = .byte 0x6e then
    let inp ← testUll inp.tail
    pure (none,inp)
  else
    let st ← jsonReadBinaryStart inp
    let (buf,st) ← readAllocLoop calls [] bufSize st
    require (st.sizeStart = 0 ∨ buf.length = st.sizeStart)
    let inp ← jsonReadBinaryEnd st
    pure (some buf,inp)

/-! Decimal sizes. -/

def decimal (n : Nat) : List UInt8 :=
  if n ≥ 10 then decimal (n / 10) ++ [UInt8.ofNat (n % 10 + 0x30)] else [UInt8.ofNat (n + 0x30)]
termination_by n
decreasing_by omega

variable {items : List Item}

theorem jsonWriteUlong_holds {σ : Type} {S : OutStream σ} {s : σ} (h : S.Holds s items) (n : Nat) :
    ∃ next, jsonWriteUlong S s n = .ok next ∧ S.Holds next (items ++ (decimal n).map .byte) := by
  induction n using Nat.strongRecOn with
  | ind n ih =>
    unfold jsonWriteUlong decimal
    by_cases more : n ≥ 10
    · obtain ⟨middle,first,holds⟩ := ih (n / 10) (by omega)
      obtain ⟨next,second,result⟩ := S.writeByte_holds holds (UInt8.ofNat (n % 10 + 0x30))
      rw [if_pos more,if_pos more,first]
      exact ⟨next,second,by simpa using result⟩
    · rw [if_neg more,if_neg more]
      exact S.writeByte_holds h _

def Digit (ch : UInt8) : Prop := 0x30 ≤ ch.toNat ∧ ch.toNat ≤ 0x39

variable {n : Nat}

theorem digit_ofNat (small : n < 10) :
    Digit (UInt8.ofNat (n + 0x30)) ∧ (UInt8.ofNat (n + 0x30)).toNat - 0x30 = n := by
  have value : (UInt8.ofNat (n + 0x30)).toNat = n + 0x30 := by
    rw [UInt8.toNat_ofNat']
    exact Nat.mod_eq_of_lt (by omega)
  simp only [Digit,value]
  omega

theorem not_out {ch : UInt8} (digit : Digit ch) : ¬(ch < 0x30 ∨ ch > 0x39) := by
  rw [UInt8.lt_iff_toNat_lt,gt_iff_lt,UInt8.lt_iff_toNat_lt]
  obtain ⟨low,high⟩ := digit
  simp only [UInt8.reduceToNat]
  omega

theorem decimal_digits (n : Nat) : (∀ ch ∈ decimal n, Digit ch) ∧ decimal n ≠ [] := by
  induction n using Nat.strongRecOn with
  | ind n ih =>
    unfold decimal
    by_cases more : n ≥ 10
    · obtain ⟨digits,_⟩ := ih (n / 10) (by omega)
      rw [if_pos more]
      refine ⟨fun ch member => ?_,by simp⟩
      rcases List.mem_append.mp member with front | last
      · exact digits ch front
      · rw [List.mem_singleton.mp last]
        exact (digit_ofNat (Nat.mod_lt _ (by decide))).1
    · rw [if_neg more]
      refine ⟨fun ch member => ?_,by simp⟩
      rw [List.mem_singleton.mp member]
      exact (digit_ofNat (by omega)).1

/-- One digit more, in 64 bits. -/
def addDigit (res : Nat) (ch : UInt8) : Nat := (res * 10 + (ch.toNat - 0x30)) % 2^64

theorem decimal_value (small : n < 2^64) : (decimal n).foldl addDigit 0 = n := by
  induction n using Nat.strongRecOn with
  | ind n ih =>
    unfold decimal
    by_cases more : n ≥ 10
    · have last := (@digit_ofNat (n % 10) (by omega)).2
      rw [if_pos more,List.foldl_append,ih (n / 10) (by omega) (by omega)]
      simp only [List.foldl_cons,List.foldl_nil,addDigit,last]
      omega
    · have last := (@digit_ofNat n (by omega)).2
      rw [if_neg more]
      simp only [List.foldl_cons,List.foldl_nil,addDigit,last]
      omega

theorem readDigits_run {digits : List UInt8} (all : ∀ ch ∈ digits, Digit ch) {stop : UInt8}
    (out : stop < 0x30 ∨ stop > 0x39) (res : Nat) (rest : Input) :
    readDigits res (digits.map Item.byte ++ .byte stop :: rest) = .ok (digits.foldl addDigit res,.byte stop :: rest) := by
  induction digits generalizing res with
  | nil => simp [readDigits,out]
  | cons ch digits ih =>
    obtain ⟨first,later⟩ := List.forall_mem_cons.mp all
    simp only [List.map_cons,List.cons_append,readDigits,if_neg (not_out first)]
    exact ih later _

theorem isSpace_digit {ch : UInt8} (digit : Digit ch) : isSpace (.byte ch) = false := by
  obtain ⟨low,_⟩ := digit
  have one : (ch == 0x20) = false := by
    rw [beq_eq_false_iff_ne]
    rintro rfl
    exact absurd low (by decide)
  have two : ¬ch ≤ 0x0d := by
    rw [UInt8.le_iff_toNat_le]
    simp only [UInt8.reduceToNat]
    omega
  simp [isSpace,one,two]

theorem readToken_plain {ch : Item} (plain : isSpace ch = false) (rest : Input) :
    readToken (ch :: rest) = .ok (ch,rest) := by
  simp only [readToken,readStream,Code.ok_bind]
  cases rest <;> simp [ignoreWhitespace,plain]

theorem jsonReadUlong_decimal (small : n < 2^64) {stop : UInt8} (out : stop < 0x30 ∨ stop > 0x39)
    (rest : Input) :
    jsonReadUlong ((decimal n).map Item.byte ++ .byte stop :: rest) = .ok (n,.byte stop :: rest) := by
  obtain ⟨digits,some_⟩ := decimal_digits n
  have value := decimal_value small
  obtain ⟨ch,ds,split⟩ := List.exists_cons_of_ne_nil some_
  rw [split] at digits value ⊢
  obtain ⟨first,later⟩ := List.forall_mem_cons.mp digits
  have first_ : addDigit 0 ch = ch.toNat - 0x30 := by
    obtain ⟨low,high⟩ := first
    simp only [addDigit]
    omega
  have no_sign : ¬(Item.byte ch = .byte 0x2d) := by
    rintro ⟨⟩
    exact absurd first.1 (by decide)
  rw [List.foldl_cons,first_] at value
  rw [List.map_cons,List.cons_append,jsonReadUlong,readToken_plain (isSpace_digit first)]
  simp only [Code.ok_bind,readSign,if_neg no_sign,Code.pure_eq,if_neg (not_out first),readDigits_run later out,value]
  simp [no_sign]

/-- The text of binary data. -/
def binaryText (encoding : Encoding) (data : List UInt8) : List UInt8 :=
  match encoding with
  | .binary => 0x28 :: decimal data.length ++ 0x29 :: data
  | .base64 => quote :: encode64 data ++ [quote]

/-! Reading. -/

variable {front : List UInt8}

theorem take_append_of_le {back : List UInt8} {len : Nat} (whole : front.length ≤ len) :
    (front ++ back).take len = front ++ back.take (len - front.length) ∧
      (front ++ back).drop len = back.drop (len - front.length) := by
  rw [List.take_append,List.drop_append,List.take_of_length_le whole,List.drop_of_length_le whole]
  exact ⟨rfl,rfl⟩

variable {rest : Input}

/-- The client gets what it asks for, or what there is; the rest is still to be read. -/
theorem readParts_text {fuel len done : Nat} {buf left : List UInt8} (short : buf.length ≤ 3)
    (enough : 2 * len + (if buf = [] then 1 else 0) < fuel) :
    ∃ early buf' left', readParts fuel ⟨text64 left rest,.base64,0,done,buf⟩ len =
        .ok (((buf ++ left).take len,early),⟨text64 left' rest,.base64,0,done,buf'⟩) ∧
      buf'.length ≤ 3 ∧ buf' ++ left' = (buf ++ left).drop len := by
  induction fuel generalizing len buf left with
  | zero => omega
  | succ fuel ih =>
    by_cases finished : len = 0
    · subst finished
      exact ⟨false,buf,left,by simp [readParts,Code.pure_eq],short,by simp⟩
    simp only [readParts,if_neg finished,require_true short,Code.ok_bind]
    by_cases part : len < buf.length
    · have cut : (buf.take len).length < buf.length := by
        rw [List.length_take]
        omega
      rw [if_pos cut]
      have taken : (buf ++ left).take len = buf.take len := by
        rw [List.take_append_of_le_length (by omega)]
      have kept : (buf ++ left).drop len = buf.drop len ++ left := by
        rw [List.drop_append_of_le_length (by omega)]
      refine ⟨true,buf.drop len,left,?_,?_,kept.symm⟩
      · rw [taken]
        rfl
      · rw [List.length_drop]
        omega
    · have whole : buf.length ≤ len := by omega
      have front : buf.take len = buf := List.take_of_length_le whole
      obtain ⟨taken,kept⟩ := @take_append_of_le buf left len whole
      rw [front,if_neg (by omega),taken,kept]
      generalize remaining : len - buf.length = len'
      by_cases direct : len' ≥ 3
      · rw [if_pos direct,readBase64_text left direct,Code.ok_bind]
        by_cases none_ : left.take (len' / 3 * 3) = []
        · have ended : left = [] := by
            rcases List.take_eq_nil_iff.mp none_ with zero | ended
            · omega
            · exact ended
          subst ended
          exact ⟨false,[],[],by simp [Code.pure_eq],by simp,by simp⟩
        · rw [if_neg none_]
          have some_ := List.length_pos_of_ne_nil none_
          have short' : (left.take (len' / 3 * 3)).length ≤ len' := by
            rw [List.length_take]
            omega
          have enough' : 2 * (len' - (left.take (len' / 3 * 3)).length) + (if ([] : List UInt8) = [] then 1 else 0)
              < fuel := by
            simp only [if_true]
            omega
          obtain ⟨early,buf',left',run,bound,same⟩ := ih (by simp) enough'
          obtain ⟨more,later⟩ := @take_append_of_le (left.take (len' / 3 * 3)) (left.drop (len' / 3 * 3)) len' short'
          rw [List.take_append_drop] at more later
          refine ⟨early,buf',left',?_,bound,?_⟩
          · rw [run,more]
            rfl
          · rw [later,same]
            rfl
      · rw [if_neg direct,readBase64_text left (Nat.le_refl 3),Code.ok_bind]
        by_cases none_ : left.take 3 = []
        · have ended : left = [] := by simpa using none_
          subst ended
          exact ⟨false,[],[],by simp [Code.pure_eq],by simp,by simp⟩
        · have cost : 2 * len' + (if left.take 3 = [] then 1 else 0) < fuel := by
            rw [if_neg none_]
            by_cases empty : buf = []
            · rw [if_pos empty] at enough
              omega
            · have some_ := List.length_pos_of_ne_nil empty
              omega
          have short' : (left.take 3).length ≤ 3 := by
            rw [List.length_take]
            omega
          obtain ⟨early,buf',left',run,bound,same⟩ := @ih len' (left.take 3) (left.drop 3) short' cost
          rw [List.take_append_drop] at run same
          rw [if_neg none_]
          refine ⟨early,buf',left',?_,bound,same⟩
          rw [run]
          rfl

/-- The reader stands before `data`, which ends before `rest`, and `pos` bytes are read. -/
def Serves (st : Reader) (pos : Nat) (data : List UInt8) (rest : Input) : Prop :=
  match st.encoding with
  | .binary => st.buf = [] ∧ st.inp = data.map .byte ++ rest ∧ st.sizeDone = pos ∧ st.sizeStart = pos + data.length
  | .base64 => ∃ left, data = st.buf ++ left ∧ st.buf.length ≤ 3 ∧ st.inp = text64 left rest ∧ st.sizeStart = 0

theorem readRaw_bytes (bytes : List UInt8) (inp : Input) :
    readRaw bytes.length (bytes.map .byte ++ inp) = .ok (bytes,inp) := by
  induction bytes with
  | nil => rfl
  | cons ch bytes ih =>
    simp only [List.length_cons,List.map_cons,List.cons_append,readRaw,ih]
    rfl

variable {pos : Nat} {data : List UInt8}

theorem jsonReadBinaryData_serves {st : Reader}
    (h : Serves st pos data rest) (len : Nat) :
    ∃ next, jsonReadBinaryData st len = .ok (data.take len,next) ∧
      Serves next (pos + (data.take len).length) (data.drop len) rest := by
  obtain ⟨inp,encoding,sizeStart,sizeDone,buf⟩ := st
  cases encoding with
  | binary =>
    obtain ⟨rfl,rfl,rfl,total⟩ := h
    obtain rfl : sizeStart = sizeDone + data.length := total
    have amount : min len (sizeDone + data.length - sizeDone) = (data.take len).length := by
      rw [List.length_take,Nat.add_sub_cancel_left]
    have split : data.map Item.byte ++ rest = (data.take len).map .byte ++ ((data.drop len).map .byte ++ rest) := by
      rw [← List.append_assoc,← List.map_append,List.take_append_drop]
    refine ⟨⟨(data.drop len).map .byte ++ rest,.binary,sizeDone + data.length,sizeDone + (data.take len).length,[]⟩,
      ?_,rfl,rfl,rfl,?_⟩
    · simp only [jsonReadBinaryData,amount,split,readRaw_bytes,Code.ok_bind]
      rfl
    · simp only [List.length_take,List.length_drop]
      omega
  | base64 =>
    obtain ⟨left,rfl,short,rfl,rfl⟩ := h
    have enough : 2 * len + (if buf = [] then 1 else 0) < 2 * len + 2 := by
      split <;> omega
    obtain ⟨early,buf',left',run,bound,same⟩ := @readParts_text rest _ len sizeDone buf left short enough
    simp only [jsonReadBinaryData,run,Code.ok_bind]
    refine ⟨_,rfl,?_⟩
    cases early <;> exact ⟨left',same.symm,bound,rfl,rfl⟩

theorem jsonReadBinaryEnd_serves {st : Reader} (h : Serves st pos [] rest) :
    jsonReadBinaryEnd st = .ok rest := by
  obtain ⟨inp,encoding,sizeStart,sizeDone,buf⟩ := st
  cases encoding with
  | binary =>
    obtain ⟨rfl,rfl,rfl,total⟩ := h
    obtain rfl : sizeStart = sizeDone := total
    simp [jsonReadBinaryEnd,require_true,Code.pure_eq]
  | base64 =>
    obtain ⟨left,empty,_,rfl,rfl⟩ := h
    obtain ⟨rfl,rfl⟩ := List.append_eq_nil_iff.mp empty.symm
    have plain : isSpace (.byte quote) = false := by decide
    simp [jsonReadBinaryEnd,text64,encode64,jsonTestChar,readToken_plain plain,Code.pure_eq]

variable {calls : Nat}

theorem readAll_serves {lens : Nat → Nat} (positive : ∀ k, 0 < lens k) {k : Nat} {st : Reader}
    (h : Serves st pos data rest) (enough : data.length < calls) :
    ∃ last, readAll lens calls k st = .ok (data,last) ∧ Serves last (pos + data.length) [] rest := by
  induction calls generalizing k st pos data with
  | zero => omega
  | succ calls ih =>
    obtain ⟨next,run,serves⟩ := jsonReadBinaryData_serves h (lens k)
    simp only [readAll,run,Code.ok_bind]
    have len := positive k
    by_cases ended : data = []
    · subst ended
      exact ⟨next,by simp [Code.pure_eq],by simpa using serves⟩
    · have size := List.length_pos_of_ne_nil ended
      have more : ¬(data.take (lens k) = []) := by
        rw [List.take_eq_nil_iff]
        rintro (zero | none_)
        · omega
        · exact ended none_
      have less : (data.drop (lens k)).length < calls := by
        rw [List.length_drop]
        omega
      obtain ⟨last,later,result⟩ := ih (k := k + 1) serves less
      rw [if_neg more,later]
      refine ⟨last,?_,?_⟩
      · simp [Code.pure_eq]
      · have total : pos + (data.take (lens k)).length + (data.drop (lens k)).length = pos + data.length := by
          rw [Nat.add_assoc,← List.length_append,List.take_append_drop]
        rwa [total] at result

variable {size : Nat}

theorem growBuf_room (inside : pos ≤ size) : pos < growBuf pos size := by
  unfold growBuf
  split
  · split <;> omega
  · omega

theorem readAllocLoop_serves {buf : List UInt8} {st : Reader}
    (h : Serves st buf.length data rest) (inside : buf.length ≤ size) (enough : data.length < calls) :
    ∃ last, readAllocLoop calls buf size st = .ok (buf ++ data,last) ∧ Serves last (buf ++ data).length [] rest := by
  induction calls generalizing size buf st data with
  | zero => omega
  | succ calls ih =>
    have room := growBuf_room inside
    generalize grown : growBuf buf.length size = size' at room
    obtain ⟨next,run,serves⟩ := jsonReadBinaryData_serves h (size' - buf.length)
    simp only [readAllocLoop,grown,run,Code.ok_bind]
    by_cases ended : data = []
    · subst ended
      exact ⟨next,by simp [Code.pure_eq],by simpa using serves⟩
    · have amount := List.length_pos_of_ne_nil ended
      have more : ¬(data.take (size' - buf.length) = []) := by
        rw [List.take_eq_nil_iff]
        rintro (zero | none_)
        · omega
        · exact ended none_
      have less : (data.drop (size' - buf.length)).length < calls := by
        rw [List.length_drop]
        omega
      have inside' : (buf ++ data.take (size' - buf.length)).length ≤ size' := by
        rw [List.length_append,List.length_take]
        omega
      rw [← List.length_append] at serves
      obtain ⟨last,later,result⟩ := ih serves inside' less
      rw [List.append_assoc,List.take_append_drop] at later result
      exact ⟨last,by rw [if_neg more,later],result⟩

theorem jsonReadBinaryStart_base64 (data : List UInt8) (rest : Input) :
    ∃ st, jsonReadBinaryStart ((binaryText .base64 data).map .byte ++ rest) = .ok st ∧ Serves st 0 data rest := by
  have plain : isSpace (.byte quote) = false := by decide
  have other : ¬(Item.byte quote = .byte 0x28) := by decide
  have text : (binaryText .base64 data).map Item.byte ++ rest = .byte quote :: text64 data rest := by
    simp [binaryText,text64]
  refine ⟨⟨text64 data rest,.base64,0,0,[]⟩,?_,data,rfl,by simp,rfl,rfl⟩
  simp only [text,jsonReadBinaryStart,readToken_plain plain,Code.ok_bind,if_neg other,if_true]
  rfl

variable {encoding : Encoding}

theorem jsonReadBinaryStart_text (small : data.length < 2^64) (rest : Input) :
    ∃ st, jsonReadBinaryStart ((binaryText encoding data).map .byte ++ rest) = .ok st ∧ Serves st 0 data rest := by
  cases encoding with
  | binary =>
    have plain : isSpace (.byte 0x28) = false := by decide
    have plain' : isSpace (.byte 0x29) = false := by decide
    have stop : (0x29 : UInt8) < 0x30 ∨ (0x29 : UInt8) > 0x39 := by decide
    have text : (binaryText .binary data).map Item.byte ++ rest = .byte 0x28 :: ((decimal data.length).map .byte ++
        .byte 0x29 :: (data.map .byte ++ rest)) := by simp [binaryText]
    refine ⟨⟨data.map .byte ++ rest,.binary,data.length,0,[]⟩,?_,rfl,rfl,rfl,by simp⟩
    simp only [text,jsonReadBinaryStart,readToken_plain plain,Code.ok_bind,if_true,jsonReadUlong_decimal small stop,
      jsonTestChar,readToken_plain plain']
    rfl
  | base64 => exact jsonReadBinaryStart_base64 data rest

theorem jsonPeek_text (encoding : Encoding) (data : List UInt8) (rest : Input) :
    ∃ ch, jsonPeek ((binaryText encoding data).map .byte ++ rest) =
      .ok (ch,(binaryText encoding data).map .byte ++ rest) ∧ ch ≠ .byte 0x6e := by
  cases encoding with
  | binary => exact ⟨.byte 0x28,rfl,by decide⟩
  | base64 => exact ⟨.byte quote,rfl,by decide⟩

theorem jsonReadAllocBinary_text {bufSize : Nat}
    (small : data.length < 2^64) (enough : data.length < calls) (rest : Input) :
    jsonReadAllocBinary calls bufSize ((binaryText encoding data).map .byte ++ rest) = .ok (some data,rest) := by
  obtain ⟨ch,peek,other⟩ := jsonPeek_text encoding data rest
  obtain ⟨st,start,serves⟩ := @jsonReadBinaryStart_text data encoding small rest
  obtain ⟨last,run,ended⟩ := @readAllocLoop_serves rest data calls bufSize [] st serves (Nat.zero_le _) enough
  have sizes : last.sizeStart = 0 ∨ data.length = last.sizeStart := by
    unfold Serves at ended
    split at ended
    · obtain ⟨_,_,_,total⟩ := ended
      exact .inr (by simpa using total.symm)
    · obtain ⟨_,_,_,_,zero⟩ := ended
      exact .inl zero
  rw [List.nil_append] at run ended
  simp only [jsonReadAllocBinary,peek,Code.ok_bind,if_neg other,start,run,require_true sizes,
    jsonReadBinaryEnd_serves ended]
  rfl

/-! Writing. -/

section Writers

variable {σ : Type} {S : OutStream σ}

/-- `done` was written after `items`; of a group that is not whole its bytes wait. -/
def Took (S : OutStream σ) (st : Writer σ) (items : List Item) (size : Nat) (done : List UInt8) : Prop :=
  match st.encoding with
  | .binary => S.Holds st.out (items ++ (0x28 :: decimal size ++ 0x29 :: done).map .byte) ∧ st.sizeStart = size ∧
    st.sizeDone = done.length
  | .base64 => ∃ front, done = front ++ st.buf ∧ front.length % 3 = 0 ∧ st.buf.length < 3 ∧
    S.Holds st.out (items ++ (quote :: encode64 front).map .byte)

/-- The encoding that a stream gets. -/
def chosen (S : OutStream σ) (out : σ) (size : Nat) : Encoding :=
  if S.supportsZeroCopy out = true ∧ size > 0 then .binary else .base64

theorem jsonWriteBinaryStart_took {out : σ} (h : S.Holds out items) (size : Nat) :
    ∃ st, jsonWriteBinaryStart S out size = .ok st ∧ st.encoding = chosen S out size ∧ Took S st items size [] := by
  unfold jsonWriteBinaryStart chosen
  by_cases raw : S.supportsZeroCopy out = true ∧ size > 0
  · obtain ⟨out₁,first,holds₁⟩ := S.writeByte_holds h 0x28
    obtain ⟨out₂,second,holds₂⟩ := jsonWriteUlong_holds holds₁ size
    obtain ⟨out₃,third,holds₃⟩ := S.writeByte_holds holds₂ 0x29
    refine ⟨⟨out₃,.binary,size,0,[]⟩,?_,?_,?_,rfl,rfl⟩
    · simp only [if_pos raw,first,second,third,Code.ok_bind]
      rfl
    · rw [if_pos raw]
    · simpa using holds₃
  · obtain ⟨out₁,first,holds⟩ := S.writeByte_holds h quote
    refine ⟨⟨out₁,.base64,size,0,[]⟩,?_,?_,[],rfl,rfl,by simp,?_⟩
    · simp only [if_neg raw,first,Code.ok_bind]
      rfl
    · rw [if_neg raw]
    · simpa [encode64] using holds

variable {st : Writer σ}

theorem writeGroups_took (data : List UInt8)
    (base : st.encoding = .base64) (whole : front.length % 3 = 0) (short : st.buf.length < 3)
    (holds : S.Holds st.out (items ++ (quote :: encode64 front).map .byte)) (turn : data ≠ [] → st.buf = []) :
    ∃ next, writeGroups S st data = .ok next ∧ next.encoding = .base64 ∧
      ∃ front', (front ++ st.buf) ++ data = front' ++ next.buf ∧ front'.length % 3 = 0 ∧ next.buf.length < 3 ∧
        S.Holds next.out (items ++ (quote :: encode64 front').map .byte) := by
  unfold writeGroups
  by_cases none_ : data = []
  · subst none_
    exact ⟨st,rfl,base,front,by simp,whole,short,holds⟩
  · have some_ : data.length > 0 := List.length_pos_of_ne_nil none_
    have size : (data.take (data.length - data.length % 3)).length = data.length - data.length % 3 := by
      rw [List.length_take]
      omega
    obtain ⟨out,run,written⟩ := writeBase64_holds holds (data.take (data.length - data.length % 3))
    rw [if_pos some_,require_true (turn none_),Code.ok_bind]
    simp only [run,Code.ok_bind]
    refine ⟨_,rfl,base,front ++ data.take (data.length - data.length % 3),?_,?_,?_,?_⟩
    · simp [turn none_]
    · rw [List.length_append,size]
      omega
    · rw [List.length_drop]
      omega
    · rw [encode64_append whole]
      simpa using written

theorem completeGroup_took (data : List UInt8)
    (base : st.encoding = .base64) (whole : front.length % 3 = 0) (short : st.buf.length < 3)
    (holds : S.Holds st.out (items ++ (quote :: encode64 front).map .byte)) :
    ∃ next left, completeGroup S st data = .ok (next,left) ∧ next.encoding = .base64 ∧ (left ≠ [] → next.buf = []) ∧
      ∃ front', (front ++ st.buf) ++ data = (front' ++ next.buf) ++ left ∧ front'.length % 3 = 0 ∧
        next.buf.length < 3 ∧ S.Holds next.out (items ++ (quote :: encode64 front').map .byte) := by
  unfold completeGroup
  by_cases waits : st.buf.length > 0
  · have parts := List.take_append_drop (3 - st.buf.length) data
    have size : (st.buf ++ data.take (3 - st.buf.length)).length = st.buf.length + min (3 - st.buf.length) data.length := by
      rw [List.length_append,List.length_take]
    have bound : (st.buf ++ data.take (3 - st.buf.length)).length ≤ 3 := by omega
    simp only [if_pos waits,require_true bound,Code.ok_bind]
    by_cases full : (st.buf ++ data.take (3 - st.buf.length)).length ≥ 3
    · obtain ⟨out,run,written⟩ := writeBase64_holds holds (st.buf ++ data.take (3 - st.buf.length))
      simp only [if_pos full,run,Code.ok_bind]
      refine ⟨_,_,rfl,base,fun _ => rfl,front ++ (st.buf ++ data.take (3 - st.buf.length)),?_,?_,by simp,?_⟩
      · simp [parts]
      · rw [List.length_append]
        omega
      · rw [encode64_append whole]
        simpa using written
    · have ended : data.drop (3 - st.buf.length) = [] := by
        apply List.drop_eq_nil_of_le
        omega
      rw [if_neg full,ended]
      rw [ended,List.append_nil] at parts
      refine ⟨_,_,rfl,base,fun some_ => absurd rfl some_,front,by simp [parts],whole,?_,holds⟩
      exact Nat.not_le.mp full
  · have none_ : st.buf = [] := List.length_eq_zero_iff.mp (by omega)
    rw [if_neg waits]
    exact ⟨st,data,rfl,base,fun _ => none_,front,rfl,whole,short,holds⟩

theorem jsonWriteBinaryData_took {done : List UInt8}
    (h : Took S st items size done) (data : List UInt8) :
    ∃ next, jsonWriteBinaryData S st data = .ok next ∧ next.encoding = st.encoding ∧
      Took S next items size (done ++ data) := by
  unfold jsonWriteBinaryData
  by_cases none_ : data.length = 0
  · rw [if_pos none_,List.length_eq_zero_iff.mp none_,List.append_nil]
    exact ⟨st,rfl,rfl,h⟩
  rw [if_neg none_]
  unfold Took at h
  rcases encoding : st.encoding with _ | _
  · rw [encoding] at h
    obtain ⟨holds,start,count⟩ := h
    obtain ⟨out,run,written⟩ := S.writeBlock_holds holds data
    simp only [run,Code.ok_bind]
    refine ⟨_,rfl,rfl,?_⟩
    simp only [Took]
    exact ⟨by simpa using written,start,by rw [count,List.length_append]⟩
  · rw [encoding] at h
    obtain ⟨front,rfl,whole,short,holds⟩ := h
    obtain ⟨middle,left,first,base,turn,front₁,same₁,whole₁,short₁,holds₁⟩ :=
      completeGroup_took data encoding whole short holds
    obtain ⟨next,second,base₂,front₂,same₂,whole₂,short₂,holds₂⟩ :=
      writeGroups_took left base whole₁ short₁ holds₁ turn
    simp only [first,Code.ok_bind,second]
    refine ⟨next,rfl,base₂,?_⟩
    simp only [Took,base₂]
    exact ⟨front₂,by rw [same₁,same₂],whole₂,short₂,holds₂⟩

theorem writeParts_took {done : List UInt8}
    (h : Took S st items size done) (parts : List (List UInt8)) :
    ∃ next, parts.foldlM (jsonWriteBinaryData S) st = .ok next ∧ next.encoding = st.encoding ∧
      Took S next items size (done ++ parts.flatten) := by
  induction parts generalizing st done with
  | nil => exact ⟨st,rfl,rfl,by simpa using h⟩
  | cons data parts ih =>
    obtain ⟨middle,first,same,took⟩ := jsonWriteBinaryData_took h data
    obtain ⟨next,later,same',took'⟩ := ih took
    refine ⟨next,?_,same'.trans same,by simpa using took'⟩
    rw [List.foldlM_cons,first]
    exact later

theorem jsonWriteBinaryEnd_took
    (h : Took S st items data.length data ∨ st.encoding = .base64 ∧ ∃ size, Took S st items size data) :
    ∃ final, jsonWriteBinaryEnd S st = .ok final ∧
      S.Holds final (items ++ (binaryText st.encoding data).map .byte) := by
  unfold jsonWriteBinaryEnd binaryText
  rcases encoding : st.encoding with _ | _
  · rcases h with took | ⟨other,_⟩
    · unfold Took at took
      rw [encoding] at took
      obtain ⟨holds,start,count⟩ := took
      refine ⟨st.out,?_,holds⟩
      simp only [require_true (start.trans count.symm)]
      rfl
    · rw [encoding] at other
      cases other
  · have took : ∃ size, Took S st items size data := by
      rcases h with took | ⟨_,took⟩
      · exact ⟨_,took⟩
      · exact took
    obtain ⟨size,took⟩ := took
    unfold Took at took
    rw [encoding] at took
    obtain ⟨front,rfl,whole,short,holds⟩ := took
    have waiting : ∃ out, writeWaiting S st = .ok out ∧
        S.Holds out (items ++ (quote :: encode64 (front ++ st.buf)).map .byte) := by
      unfold writeWaiting
      rw [encode64_append whole]
      split
      · obtain ⟨out,run,written⟩ := writeBase64_holds holds st.buf
        exact ⟨out,run,by simpa using written⟩
      next none_ =>
        have empty : st.buf = [] := List.length_eq_zero_iff.mp (by omega)
        exact ⟨st.out,rfl,by simpa [empty,encode64] using holds⟩
    obtain ⟨out,first,holds₁⟩ := waiting
    obtain ⟨final,second,holds₂⟩ := S.writeByte_holds holds₁ quote
    simp only [first,Code.ok_bind]
    exact ⟨final,second,by simpa using holds₂⟩

/-- The text does not depend on how the data is split. The total may be left out, as 0. -/
theorem writeInParts_holds {out : σ} (h : S.Holds out items)
    {parts : List (List UInt8)} (total : size = parts.flatten.length ∨ size = 0) :
    ∃ final, writeInParts S out size parts = .ok final ∧
      S.Holds final (items ++ (binaryText (chosen S out size) parts.flatten).map .byte) := by
  obtain ⟨first,start,encoding,took⟩ := jsonWriteBinaryStart_took h size
  obtain ⟨last,run,same,took'⟩ := writeParts_took took parts
  rw [List.nil_append] at took'
  have ready : Took S last items parts.flatten.length parts.flatten ∨
      last.encoding = .base64 ∧ ∃ size, Took S last items size parts.flatten := by
    rcases total with rfl | rfl
    · exact .inl took'
    · refine .inr ⟨?_,_,took'⟩
      rw [same,encoding]
      simp [chosen]
  obtain ⟨final,finish,holds⟩ := jsonWriteBinaryEnd_took ready
  rw [same,encoding] at holds
  refine ⟨final,?_,holds⟩
  simp only [writeInParts,start,run,Code.ok_bind]
  exact finish

theorem jsonWriteBinary_parts (out : σ) (data : List UInt8) :
    jsonWriteBinary S out data = writeInParts S out data.length [data] := by
  unfold jsonWriteBinary writeInParts
  simp only [List.foldlM_cons,List.foldlM_nil]
  rcases jsonWriteBinaryStart S out data.length with error | st
  · rfl
  · simp only [Code.ok_bind]
    rcases jsonWriteBinaryData S st data with error | st
    · rfl
    · rfl

end Writers

/-- What writing binary data is for: clients get it back from its text in reads of any lengths, up
to the end of the text and no further, and so does the reader that allocates. -/
def BinaryRoundTrips {σ : Type} (S : OutStream σ) (w : S.Writing) (write : σ → Code σ) (encoding : Encoding)
    (data : List UInt8) : Prop :=
  let text := (binaryText encoding data).map Item.byte
  (∃ final, write w.state = .ok final ∧ S.Holds final (w.items ++ text)) ∧
    (∀ (rest : Input) (lens : Nat → Nat), (∀ k, 0 < lens k) → ∀ calls > data.length, ∃ first last,
      jsonReadBinaryStart (text ++ rest) = .ok first ∧ readAll lens calls 0 first = .ok (data,last) ∧
        jsonReadBinaryEnd last = .ok rest) ∧
    ∀ (rest : Input) (bufSize : Nat), ∀ calls > data.length,
      jsonReadAllocBinary calls bufSize (text ++ rest) = .ok (some data,rest)

theorem binaryRoundTrips_text {σ : Type} {S : OutStream σ} {w : S.Writing} {write : σ → Code σ}
    (small : data.length < 2^64)
    (writes : ∃ final, write w.state = .ok final ∧ S.Holds final (w.items ++ (binaryText encoding data).map .byte)) :
    BinaryRoundTrips S w write encoding data := by
  refine ⟨writes,?_,fun rest _ _ enough => jsonReadAllocBinary_text small enough rest⟩
  intro rest lens positive calls enough
  obtain ⟨first,start,serves⟩ := @jsonReadBinaryStart_text data encoding small rest
  obtain ⟨last,all,ended⟩ := readAll_serves positive serves enough
  exact ⟨first,last,start,all,jsonReadBinaryEnd_serves ended⟩

/-- Data whose length is a `size_t` comes back, however it was written. -/
theorem binary_round_trip {σ : Type} (S : OutStream σ) (w : S.Writing) (parts : List (List UInt8))
    (sizeT : parts.flatten.length < 2^64) :
    (∀ size, size = parts.flatten.length ∨ size = 0 →
      BinaryRoundTrips S w (writeInParts S · size parts) (chosen S w.state size) parts.flatten) ∧
    BinaryRoundTrips S w (jsonWriteBinary S · parts.flatten) (chosen S w.state parts.flatten.length) parts.flatten := by
  refine ⟨fun size total => binaryRoundTrips_text sizeT (writeInParts_holds w.holds total),?_⟩
  apply binaryRoundTrips_text sizeT
  have total : parts.flatten.length = [parts.flatten].flatten.length ∨ parts.flatten.length = 0 := .inl (by simp)
  have whole := writeInParts_holds w.holds total
  rw [← jsonWriteBinary_parts] at whole
  simpa using whole

def smallFresh : smallTcp.Writing := tcpFresh _ _ true

/-- Four bytes in two calls, in a new channel with zero copy. -/
theorem binary_round_trip_escape :
    (∀ size, size = 4 ∨ size = 0 →
      BinaryRoundTrips smallTcp smallFresh (writeInParts smallTcp · size [[3,0],[0xff,3]])
        (chosen smallTcp smallFresh.state size) [3,0,0xff,3]) ∧
    BinaryRoundTrips smallTcp smallFresh (jsonWriteBinary smallTcp · [3,0,0xff,3])
      (chosen smallTcp smallFresh.state 4) [3,0,0xff,3] :=
  binary_round_trip smallTcp smallFresh [[3,0],[0xff,3]] (by decide)

end Tcf.Json
