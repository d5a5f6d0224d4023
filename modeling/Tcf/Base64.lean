import Tcf.Json
import Mathlib.Tactic.IntervalCases

/-! BASE64 text: groups of four characters for three bytes, padded at the end. -/
namespace Tcf.Json

open Framing

def int2char : List UInt8 :=
  [0x41,0x42,0x43,0x44,0x45,0x46,0x47,0x48,0x49,0x4a,0x4b,0x4c,0x4d,0x4e,0x4f,0x50,
   0x51,0x52,0x53,0x54,0x55,0x56,0x57,0x58,0x59,0x5a,0x61,0x62,0x63,0x64,0x65,0x66,
   0x67,0x68,0x69,0x6a,0x6b,0x6c,0x6d,0x6e,0x6f,0x70,0x71,0x72,0x73,0x74,0x75,0x76,
   0x77,0x78,0x79,0x7a,0x30,0x31,0x32,0x33,0x34,0x35,0x36,0x37,0x38,0x39,0x2b,0x2f]

def char2int : List Int :=
  [-1,-1,-1,-1,-1,-1,-1,-1,-1,-1,-1,-1,-1,-1,-1,-1,
   -1,-1,-1,-1,-1,-1,-1,-1,-1,-1,-1,-1,-1,-1,-1,-1,
   -1,-1,-1,-1,-1,-1,-1,-1,-1,-1,-1,62,-1,-1,-1,63,
   52,53,54,55,56,57,58,59,60,61,-1,-1,-1,-1,-1,-1,
   -1,0,1,2,3,4,5,6,7,8,9,10,11,12,13,14,
   15,16,17,18,19,20,21,22,23,24,25,-1,-1,-1,-1,-1,
   -1,26,27,28,29,30,31,32,33,34,35,36,37,38,39,40,
   41,42,43,44,45,46,47,48,49,50,51]

/-- `& 0x3f` -/
def low6 (n : UInt8) : UInt8 := n &&& 0x3f

/-- The character for six bits. -/
def char64 (n : UInt8) : UInt8 := int2char.getD n.toNat 0

/-- The six bits of a character of the alphabet. -/
def digit64 : Item → Option UInt8
  | .byte ch =>
    match char2int[ch.toNat]? with
    | some n => if n < 0 then none else some (UInt8.ofNat n.toNat)
    | none => none
  | _ => none

def padding : UInt8 := 0x3d

/-- `OBF_SIZE` -/
def obfSize : Nat := 0x100

section Writer

variable {σ : Type} (S : OutStream σ)

/-- A full output buffer is written. -/
def flushObf (s : σ) (obf : List UInt8) : Code (σ × List UInt8) := do
  if obf.length ≥ obfSize then
    let s ← S.writeBlock s obf
    pure (s,[])
  else pure (s,obf)

/-- The loop of `write_base64`. -/
def base64Loop (s : σ) (obf : List UInt8) : List UInt8 → Code (σ × List UInt8)
  | [] => pure (s,obf)
  | [byte0] =>
    flushObf S s (obf ++ [char64 (byte0 >>> 2),char64 (low6 (byte0 <<< 4)),padding,padding])
  | [byte0,byte1] =>
    flushObf S s (obf ++ [char64 (byte0 >>> 2),char64 (low6 (byte0 <<< 4) ||| (byte1 >>> 4)),
      char64 (low6 (byte1 <<< 2)),padding])
  | byte0 :: byte1 :: byte2 :: rest => do
    let (s,obf) ← flushObf S s (obf ++ [char64 (byte0 >>> 2),char64 (low6 (byte0 <<< 4) ||| (byte1 >>> 4)),
      char64 (low6 (byte1 <<< 2) ||| (byte2 >>> 6)),char64 (low6 byte2)])
    base64Loop s obf rest

def writeBase64 (s : σ) (buf : List UInt8) : Code σ := do
  let (s,obf) ← base64Loop S s [] buf
  if obf.length > 0 then S.writeBlock s obf else pure s

end Writer

/-- One group after its first character: the bytes, and whether it was padded. -/
def readGroup (n0 : UInt8) (inp : Input) : Code ((List UInt8 × Bool) × Input) := do
  let (ch1,inp) ← readStream inp
  let (ch2,inp) ← readStream inp
  let (ch3,inp) ← readStream inp
  match digit64 ch1 with
  | none => .error .exception
  | some n1 =>
    let byte0 := n0 <<< 2 ||| n1 >>> 4
    if ch2 = .byte padding then pure (([byte0],true),inp)
    else match digit64 ch2 with
      | none => .error .exception
      | some n2 =>
        let byte1 := n1 <<< 4 ||| n2 >>> 2
        if ch3 = .byte padding then pure (([byte0,byte1],true),inp)
        else match digit64 ch3 with
          | none => .error .exception
          | some n3 => pure (([byte0,byte1,n2 <<< 6 ||| n3],false),inp)

/-- The loop of `read_base64`; `room` is what is left of the buffer. -/
def readGroups : Nat → Nat → Input → Code (List UInt8 × Input)
  | 0, _, _ => .error .stuck
  | fuel + 1, room, inp =>
    if room < 3 then pure ([],inp)
    else do
      let ch0 ← peekStream inp
      match digit64 ch0 with
      | none => pure ([],inp)
      | some n0 => do
        let (_,inp) ← readStream inp
        let (group,inp) ← readGroup n0 inp
        if group.2 = true then pure (group.1,inp)
        else do
          let (bytes,inp) ← readGroups fuel (room - 3) inp
          pure (group.1 ++ bytes,inp)

def readBase64 (inp : Input) (bufSize : Nat) : Code (List UInt8 × Input) := do
  require (bufSize ≥ 3)
  readGroups (bufSize / 3 + 1) bufSize inp

/-! The text of a byte string. -/

def encode64 : List UInt8 → List UInt8
  | [] => []
  | [byte0] => [char64 (byte0 >>> 2),char64 (low6 (byte0 <<< 4)),padding,padding]
  | [byte0,byte1] =>
    [char64 (byte0 >>> 2),char64 (low6 (byte0 <<< 4) ||| (byte1 >>> 4)),
      char64 (low6 (byte1 <<< 2)),padding]
  | byte0 :: byte1 :: byte2 :: rest =>
    [char64 (byte0 >>> 2),char64 (low6 (byte0 <<< 4) ||| (byte1 >>> 4)),
      char64 (low6 (byte1 <<< 2) ||| (byte2 >>> 6)),char64 (low6 byte2)] ++ encode64 rest

/-- Whole groups are encoded by themselves. -/
theorem encode64_append {front : List UInt8} (whole : front.length % 3 = 0) (back : List UInt8) :
    encode64 (front ++ back) = encode64 front ++ encode64 back := by
  induction front using encode64.induct with
  | case1 => rfl
  | case2 byte0 => simp at whole
  | case3 byte0 byte1 => simp at whole
  | case4 byte0 byte1 byte2 rest ih =>
    have whole : rest.length % 3 = 0 := by
      simp only [List.length_cons] at whole
      omega
    simp [encode64,ih whole]

section Writer

variable {σ : Type} {S : OutStream σ}

theorem flushObf_holds {s : σ} {items : List Item} (h : S.Holds s items) (obf : List UInt8) :
    ∃ next left, flushObf S s obf = .ok (next,left) ∧
      ∃ items', S.Holds next items' ∧ items' ++ left.map .byte = items ++ obf.map .byte := by
  unfold flushObf
  split
  · obtain ⟨next,run,holds⟩ := S.writeBlock_holds h obf
    exact ⟨next,[],by simp [run],_,holds,by simp⟩
  · exact ⟨s,obf,rfl,items,h,rfl⟩

theorem base64Loop_holds {s : σ} {items : List Item} (h : S.Holds s items) (obf bytes : List UInt8) :
    ∃ next left, base64Loop S s obf bytes = .ok (next,left) ∧
      ∃ items', S.Holds next items' ∧ items' ++ left.map .byte = items ++ (obf ++ encode64 bytes).map .byte := by
  induction bytes using encode64.induct generalizing s items obf with
  | case1 => exact ⟨s,obf,rfl,items,h,by simp [encode64]⟩
  | case2 byte0 => exact flushObf_holds h _
  | case3 byte0 byte1 => exact flushObf_holds h _
  | case4 byte0 byte1 byte2 rest ih =>
    obtain ⟨middle,left,first,items',holds,same⟩ := flushObf_holds h (obf ++
      [char64 (byte0 >>> 2),char64 (low6 (byte0 <<< 4) ||| (byte1 >>> 4)),
        char64 (low6 (byte1 <<< 2) ||| (byte2 >>> 6)),char64 (low6 byte2)])
    obtain ⟨next,left',later,items₂,holds',same'⟩ := ih holds left
    refine ⟨next,left',?_,items₂,holds',?_⟩
    · simp only [base64Loop,first,Code.ok_bind]
      exact later
    · rw [same',List.map_append,← List.append_assoc,same]
      simp [encode64]

/-- What is written is the text. -/
theorem writeBase64_holds {s : σ} {items : List Item} (h : S.Holds s items) (bytes : List UInt8) :
    ∃ next, writeBase64 S s bytes = .ok next ∧ S.Holds next (items ++ (encode64 bytes).map .byte) := by
  obtain ⟨middle,left,run,items',holds,same⟩ := base64Loop_holds h [] bytes
  rw [List.nil_append] at same
  rw [← same]
  simp only [writeBase64,run,Code.ok_bind]
  split
  · exact S.writeBlock_holds holds left
  next none_ =>
    have empty : left = [] := List.length_eq_zero_iff.mp (by omega)
    exact ⟨middle,rfl,by simpa [empty] using holds⟩

end Writer

theorem digit64_char64 {n : UInt8} (small : n < 64) : digit64 (.byte (char64 n)) = some n ∧ char64 n ≠ padding := by
  have all : ∀ k < 64, digit64 (.byte (char64 (UInt8.ofNat k))) = some (UInt8.ofNat k) ∧
      char64 (UInt8.ofNat k) ≠ padding := by decide +kernel
  have here := all n.toNat (UInt8.lt_iff_toNat_lt.mp small)
  rwa [UInt8.ofNat_toNat] at here

theorem high_bits_small (a : UInt8) : a >>> 2 < 64 := by
  have bound := a.toNat_lt
  rw [UInt8.lt_iff_toNat_lt]
  simp [Nat.shiftRight_eq_div_pow]
  omega

theorem low6_small (a : UInt8) : low6 a < 64 := by
  have bound := @Nat.and_le_right a.toNat 63
  rw [UInt8.lt_iff_toNat_lt]
  simp [low6]
  omega

theorem or_small {a b : UInt8} (first : a < 64) (second : b < 64) : a ||| b < 64 := by
  rw [UInt8.lt_iff_toNat_lt] at *
  simpa using @Nat.or_lt_two_pow a.toNat b.toNat 6 first second

theorem high4_small (a : UInt8) : a >>> 4 < 64 := by
  have bound := a.toNat_lt
  rw [UInt8.lt_iff_toNat_lt]
  simp [Nat.shiftRight_eq_div_pow]
  omega

theorem high2_small (a : UInt8) : a >>> 6 < 64 := by
  have bound := a.toNat_lt
  rw [UInt8.lt_iff_toNat_lt]
  simp [Nat.shiftRight_eq_div_pow]
  omega

/-! Two neighbours give a byte back, whatever else is in them. -/

theorem join_first (a b : UInt8) : (a >>> 2) <<< 2 ||| (low6 (a <<< 4) ||| b >>> 4) >>> 4 = a := by
  unfold low6
  apply UInt8.toBitVec_inj.mp
  ext i bound
  simp
  interval_cases i <;> simp

theorem join_second (a b c : UInt8) :
    (low6 (a <<< 4) ||| b >>> 4) <<< 4 ||| (low6 (b <<< 2) ||| c >>> 6) >>> 2 = b := by
  unfold low6
  apply UInt8.toBitVec_inj.mp
  ext i bound
  simp
  interval_cases i <;> simp

theorem join_third (b c : UInt8) : (low6 (b <<< 2) ||| c >>> 6) <<< 6 ||| low6 c = c := by
  unfold low6
  apply UInt8.toBitVec_inj.mp
  ext i bound
  simp
  interval_cases i <;> simp

/-- A last group of one byte, or of two, is one whose other bytes are zero. -/
theorem low6_last (a : UInt8) : low6 a = low6 a ||| 0 := by simp

theorem readGroup_three (a b c : UInt8) (inp : Input) :
    readGroup (a >>> 2) (.byte (char64 (low6 (a <<< 4) ||| b >>> 4)) :: .byte (char64 (low6 (b <<< 2) ||| c >>> 6)) ::
      .byte (char64 (low6 c)) :: inp) = .ok (([a,b,c],false),inp) := by
  obtain ⟨one,_⟩ := digit64_char64 (or_small (low6_small (a <<< 4)) (high4_small b))
  obtain ⟨two,no_pad⟩ := digit64_char64 (or_small (low6_small (b <<< 2)) (high2_small c))
  obtain ⟨three,no_pad'⟩ := digit64_char64 (low6_small c)
  have two_ : ¬(Item.byte (char64 (low6 (b <<< 2) ||| c >>> 6)) = .byte padding) := by simpa using no_pad
  have three_ : ¬(Item.byte (char64 (low6 c)) = .byte padding) := by simpa using no_pad'
  simp only [readGroup,readStream,Code.ok_bind,one,if_neg two_,two,if_neg three_,three,join_first,join_second,
    join_third,Code.pure_eq]

theorem readGroup_two (a b : UInt8) (inp : Input) :
    readGroup (a >>> 2) (.byte (char64 (low6 (a <<< 4) ||| b >>> 4)) :: .byte (char64 (low6 (b <<< 2))) ::
      .byte padding :: inp) = .ok (([a,b],true),inp) := by
  obtain ⟨one,_⟩ := digit64_char64 (or_small (low6_small (a <<< 4)) (high4_small b))
  obtain ⟨two,no_pad⟩ := digit64_char64 (low6_small (b <<< 2))
  have two_ : ¬(Item.byte (char64 (low6 (b <<< 2))) = .byte padding) := by simpa using no_pad
  have second : (low6 (a <<< 4) ||| b >>> 4) <<< 4 ||| low6 (b <<< 2) >>> 2 = b := by
    have joined := join_second a b 0
    rwa [UInt8.zero_shiftRight,← low6_last] at joined
  simp only [readGroup,readStream,Code.ok_bind,one,if_neg two_,two,if_true,join_first,second,Code.pure_eq]

theorem readGroup_one (a : UInt8) (inp : Input) :
    readGroup (a >>> 2) (.byte (char64 (low6 (a <<< 4))) :: .byte padding :: .byte padding :: inp) =
      .ok (([a],true),inp) := by
  obtain ⟨one,_⟩ := digit64_char64 (low6_small (a <<< 4))
  have first : (a >>> 2) <<< 2 ||| low6 (a <<< 4) >>> 4 = a := by
    have joined := join_first a 0
    rwa [UInt8.zero_shiftRight,← low6_last] at joined
  simp only [readGroup,readStream,Code.ok_bind,one,if_true,first,Code.pure_eq]

/-- The text of the bytes and the quote behind it. -/
def text64 (bytes : List UInt8) (rest : Input) : Input := (encode64 bytes).map Item.byte ++ .byte quote :: rest

theorem digit64_quote : digit64 (.byte quote) = none := by decide

/-- As many whole groups are read as there is room for, or everything. -/
theorem readGroups_text {fuel room : Nat} {bytes : List UInt8} (enough : room < 3 * fuel) (rest : Input) :
    readGroups fuel room (text64 bytes rest) =
      .ok (bytes.take (room / 3 * 3),text64 (bytes.drop (room / 3 * 3)) rest) := by
  induction fuel generalizing room bytes with
  | zero => omega
  | succ fuel ih =>
    by_cases small : room < 3
    · have none_ : room / 3 * 3 = 0 := by omega
      rw [readGroups,if_pos small,none_]
      rfl
    · obtain ⟨left,rfl⟩ : ∃ left, room = left + 3 := ⟨room - 3,by omega⟩
      have groups : (left + 3) / 3 * 3 = left / 3 * 3 + 3 := by omega
      rw [readGroups,if_neg small,groups,Nat.add_sub_cancel]
      match bytes with
      | [] =>
        simp only [text64,encode64,List.map_nil,List.nil_append,peekStream,Code.ok_bind,digit64_quote]
        rfl
      | [a] =>
        obtain ⟨zero,_⟩ := digit64_char64 (high_bits_small a)
        simp only [text64,encode64,List.map_cons,List.map_nil,List.cons_append,List.nil_append,peekStream,
          readStream,Code.ok_bind,zero,readGroup_one,if_true]
        rfl
      | [a,b] =>
        obtain ⟨zero,_⟩ := digit64_char64 (high_bits_small a)
        simp only [text64,encode64,List.map_cons,List.map_nil,List.cons_append,List.nil_append,peekStream,
          readStream,Code.ok_bind,zero,readGroup_two,if_true]
        rfl
      | a :: b :: c :: more =>
        obtain ⟨zero,_⟩ := digit64_char64 (high_bits_small a)
        have text : text64 (a :: b :: c :: more) rest = .byte (char64 (a >>> 2)) ::
            .byte (char64 (low6 (a <<< 4) ||| b >>> 4)) :: .byte (char64 (low6 (b <<< 2) ||| c >>> 6)) ::
            .byte (char64 (low6 c)) :: text64 more rest := rfl
        have later := @ih left more (by omega)
        rw [text]
        simp only [peekStream,readStream,Code.ok_bind,zero,readGroup_three,Bool.false_eq_true,if_false,later]
        rfl

theorem readBase64_text {room : Nat} (bytes : List UInt8) (large : 3 ≤ room) (rest : Input) :
    readBase64 (text64 bytes rest) room =
      .ok (bytes.take (room / 3 * 3),text64 (bytes.drop (room / 3 * 3)) rest) := by
  rw [readBase64,require_true large,Code.ok_bind]
  exact readGroups_text (by omega) rest

end Tcf.Json
