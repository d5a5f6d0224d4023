import Tcf.JsonString

/-! String literals as text: what their characters and escapes denote, and the bytes they are read as. -/
namespace Tcf.Json

open Framing

/-- A hexadecimal digit, of either case. -/
structure HexDigit where
  byte : UInt8
  valid : (0x30 ≤ byte ∧ byte ≤ 0x39) ∨ (0x41 ≤ byte ∧ byte ≤ 0x46) ∨ (0x61 ≤ byte ∧ byte ≤ 0x66)

def HexDigit.value (d : HexDigit) : Nat :=
  if d.byte ≤ 0x39 then d.byte.toNat - 0x30
  else if d.byte ≤ 0x46 then d.byte.toNat - 0x41 + 10
  else d.byte.toNat - 0x61 + 10

/-- The four digits of an escape: a UTF-16 code unit. -/
structure CodeUnit where
  d3 : HexDigit
  d2 : HexDigit
  d1 : HexDigit
  d0 : HexDigit

namespace CodeUnit

def value (u : CodeUnit) : Nat := u.d3.value * 0x1000 + u.d2.value * 0x100 + u.d1.value * 0x10 + u.d0.value

def bytes (u : CodeUnit) : List UInt8 := [u.d3.byte,u.d2.byte,u.d1.byte,u.d0.byte]

def IsHigh (u : CodeUnit) : Prop := 0xd800 ≤ u.value ∧ u.value < 0xdc00

def IsLow (u : CodeUnit) : Prop := 0xdc00 ≤ u.value ∧ u.value < 0xe000

instance (u : CodeUnit) : Decidable u.IsHigh := inferInstanceAs (Decidable (_ ∧ _))

instance (u : CodeUnit) : Decidable u.IsLow := inferInstanceAs (Decidable (_ ∧ _))

end CodeUnit

/-- The escapes of two characters. -/
inductive ShortEscape where
  | quotationMark
  | reverseSolidus
  | solidus
  | backspace
  | formFeed
  | lineFeed
  | carriageReturn
  | tab
  deriving DecidableEq, Repr

namespace ShortEscape

def letter : ShortEscape → UInt8
  | quotationMark => 0x22
  | reverseSolidus => 0x5c
  | solidus => 0x2f
  | backspace => 0x62
  | formFeed => 0x66
  | lineFeed => 0x6e
  | carriageReturn => 0x72
  | tab => 0x74

def char : ShortEscape → Char
  | quotationMark => '"'
  | reverseSolidus => '\\'
  | solidus => '/'
  | backspace => '\x08'
  | formFeed => '\x0c'
  | lineFeed => '\n'
  | carriageReturn => '\r'
  | tab => '\t'

end ShortEscape

/-- What a literal consists of. A surrogate without its other half denotes no text. -/
inductive Piece where
  | raw (c : Char) (plain : 0x20 ≤ c.toNat ∧ c ≠ '"' ∧ c ≠ '\\')
  | short (e : ShortEscape)
  | unit (u : CodeUnit) (scalar : ¬u.IsHigh ∧ ¬u.IsLow)
  | pair (high low : CodeUnit) (isHigh : high.IsHigh) (isLow : low.IsLow)

namespace Piece

def codePoint : Piece → Nat
  | raw c _ => c.toNat
  | short e => e.char.toNat
  | unit u _ => u.value
  | pair high low _ _ => 0x10000 + (high.value - 0xd800) * 0x400 + (low.value - 0xdc00)

def denotes (p : Piece) : Char := .ofNat p.codePoint

/-- As it is written in a literal. -/
def text : Piece → List UInt8
  | raw c _ => String.utf8EncodeChar c
  | short e => [backslash,e.letter]
  | unit u _ => backslash :: 0x75 :: u.bytes
  | pair high low _ _ => backslash :: 0x75 :: high.bytes ++ backslash :: 0x75 :: low.bytes

/-- As it is read. -/
def stored : Piece → List UInt8
  | raw c _ => String.utf8EncodeChar c
  | short e => utf8 e.char.toNat
  | unit u _ => utf8 u.value
  | pair high low _ _ => utf8 high.value ++ utf8 low.value

def isPair : Piece → Bool
  | pair .. => true
  | _ => false

end Piece

def stringLiteral (pieces : List Piece) : List UInt8 := quote :: pieces.flatMap Piece.text ++ [quote]

def encoded (text : List Char) : List UInt8 := text.flatMap String.utf8EncodeChar

section Digits

theorem HexDigit.value_less (d : HexDigit) : d.value < 0x10 := by
  obtain ⟨byte,valid⟩ := d
  simp only [HexDigit.value,UInt8.le_iff_toNat_le,UInt8.reduceToNat] at valid ⊢
  split
  · omega
  · split <;> omega

theorem readHexDigit_digit (d : HexDigit) (rest : Input) :
    readHexDigit (.byte d.byte :: rest) = .ok (d.value,rest) := by
  obtain ⟨byte,valid⟩ := d
  simp only [readHexDigit,readStream,Code.ok_bind,HexDigit.value]
  rcases valid with ⟨low,high⟩ | ⟨low,high⟩ | ⟨low,high⟩
  · have le := UInt8.le_iff_toNat_le.mp low
    simp [low,high,UInt8.toNat_sub_of_le _ _ low]
  · have le := UInt8.le_iff_toNat_le.mp low
    have other : ¬byte ≤ 0x39 := by
      simp only [UInt8.le_iff_toNat_le,UInt8.reduceToNat] at low ⊢
      omega
    simp [low,high,other,UInt8.toNat_sub_of_le _ _ low]
  · have other : ¬byte ≤ 0x39 ∧ ¬byte ≤ 0x46 := by
      simp only [UInt8.le_iff_toNat_le,UInt8.reduceToNat] at low ⊢
      omega
    simp [low,high,other,UInt8.toNat_sub_of_le _ _ low]

/-- The shifted digits do not overlap. -/
theorem joined_digits {n3 n2 n1 n0 : Nat} (two : n2 < 0x10) (one : n1 < 0x10) (zero : n0 < 0x10) :
    n3 <<< 12 ||| n2 <<< 8 ||| n1 <<< 4 ||| n0 = n3 * 0x1000 + n2 * 0x100 + n1 * 0x10 + n0 := by
  have low : n0 ||| n1 * 2^4 = n0 + n1 * 2^4 := or_groups n0 n1 4 zero
  have middle : (n0 + n1 * 2^4) ||| n2 * 2^8 = n0 + n1 * 2^4 + n2 * 2^8 := or_groups _ n2 8 (by omega)
  have high : (n0 + n1 * 2^4 + n2 * 2^8) ||| n3 * 2^12 = n0 + n1 * 2^4 + n2 * 2^8 + n3 * 2^12 := or_groups _ n3 12 (by omega)
  calc n3 <<< 12 ||| n2 <<< 8 ||| n1 <<< 4 ||| n0
      = ((n0 ||| n1 * 2^4) ||| n2 * 2^8) ||| n3 * 2^12 := by
        simp only [Nat.shiftLeft_eq]
        ac_rfl
    _ = n3 * 0x1000 + n2 * 0x100 + n1 * 0x10 + n0 := by
        rw [low,middle,high]
        omega

theorem readHexChar_unit (u : CodeUnit) (rest : Input) :
    readHexChar (u.bytes.map .byte ++ rest) = .ok (u.value,rest) := by
  simp only [CodeUnit.bytes,List.map_cons,List.map_nil,List.cons_append,List.nil_append,readHexChar,readHexDigit_digit,
    Code.ok_bind,Code.pure_eq,CodeUnit.value,
    joined_digits u.d2.value_less u.d1.value_less u.d0.value_less]

theorem CodeUnit.value_less (u : CodeUnit) : u.value < 0x10000 := by
  have := u.d3.value_less
  have := u.d2.value_less
  have := u.d1.value_less
  have := u.d0.value_less
  unfold CodeUnit.value
  omega

end Digits

section Utf8

theorem or_sum {a b k : Nat} (low : a < 2^k) : a ||| b * 2^k = a + b * 2^k := or_groups a b k low

theorem toNat_valid (c : Char) : c.toNat.isValidChar := by
  have valid := c.valid
  simp only [UInt32.isValidChar] at valid
  exact valid

theorem utf8EncodeChar_eq (c : Char) : String.utf8EncodeChar c =
    if c.toNat ≤ 0x7f then [UInt8.ofNat c.toNat]
    else if c.toNat ≤ 0x7ff then [UInt8.ofNat (c.toNat / 64 % 32 + 0xc0),UInt8.ofNat (c.toNat % 64 + 0x80)]
    else if c.toNat ≤ 0xffff then [UInt8.ofNat (c.toNat / 4096 % 16 + 0xe0),UInt8.ofNat (c.toNat / 64 % 64 + 0x80),
      UInt8.ofNat (c.toNat % 64 + 0x80)]
    else [UInt8.ofNat (c.toNat / 262144 % 8 + 0xf0),UInt8.ofNat (c.toNat / 4096 % 64 + 0x80),
      UInt8.ofNat (c.toNat / 64 % 64 + 0x80),UInt8.ofNat (c.toNat % 64 + 0x80)] := rfl

/-- A character of the basic plane is written as its UTF-8 bytes. -/
theorem utf8_char {c : Char} (basic : c.toNat < 0x10000) : utf8 c.toNat = String.utf8EncodeChar c := by
  rw [utf8EncodeChar_eq]
  generalize c.toNat = v at basic
  have tail (n : Nat) : n % 64 ||| 0x80 = n % 64 + 0x80 := or_sum (b := 2) (k := 6) (Nat.mod_lt _ (by decide))
  have two (n : Nat) (low : n < 64) : n ||| 0xc0 = n + 0xc0 := or_sum (b := 3) (k := 6) low
  have three (n : Nat) (low : n < 16) : n ||| 0xe0 = n + 0xe0 := or_sum (b := 14) (k := 4) low
  have mask (n : Nat) : n &&& 0x3f = n % 64 := Nat.and_two_pow_sub_one_eq_mod n 6
  have shift6 : v >>> 6 = v / 64 := Nat.shiftRight_eq_div_pow v 6
  have shift12 : v >>> 12 = v / 4096 := Nat.shiftRight_eq_div_pow v 12
  unfold utf8
  by_cases first : v < 0x80
  · rw [if_pos first,if_pos (by omega)]
  rw [if_neg first]
  by_cases second : v < 0x800
  · rw [if_pos second,if_neg (by omega),if_pos (by omega),mask,tail,shift6,two _ (by omega),
      Nat.mod_eq_of_lt (by omega : v / 64 < 32)]
  · rw [if_neg second,if_neg (by omega),if_neg (by omega),if_pos (by omega),mask,mask,tail,tail,shift6,shift12,three _ (by omega),
      Nat.mod_eq_of_lt (by omega : v / 4096 < 16)]

/-- A character beyond the basic plane takes four bytes, the first from 0xf0 on. -/
theorem utf8EncodeChar_beyond {c : Char} (beyond : 0x10000 ≤ c.toNat) :
    ∃ lead b1 b2 b3, String.utf8EncodeChar c = [lead,b1,b2,b3] ∧ 0xf0 ≤ lead := by
  rw [utf8EncodeChar_eq,if_neg (by omega),if_neg (by omega),if_neg (by omega)]
  refine ⟨_,_,_,_,rfl,?_⟩
  rw [UInt8.le_iff_toNat_le,UInt8.toNat_ofNat']
  simp only [UInt8.reduceToNat]
  omega

/-- Three bytes, of which a surrogate's first is 0xed. -/
theorem utf8_surrogate {n : Nat} (low : 0xd800 ≤ n) (high : n < 0xe000) : ∃ b1 b2, utf8 n = [0xed,b1,b2] := by
  have lead : n >>> 12 = 13 := by
    rw [Nat.shiftRight_eq_div_pow]
    omega
  rw [utf8,if_neg (by omega),if_neg (by omega),lead]
  exact ⟨_,_,rfl⟩

/-- The bytes of a raw character neither end nor escape anything. -/
theorem raw_bytes {c : Char} (plain : 0x20 ≤ c.toNat ∧ c ≠ '"' ∧ c ≠ '\\') :
    ∀ b ∈ String.utf8EncodeChar c, b ≠ quote ∧ b ≠ backslash := by
  obtain ⟨_,no_quote,no_backslash⟩ := plain
  have high {n : Nat} (large : 0x80 ≤ n % 256) : UInt8.ofNat n ≠ quote ∧ UInt8.ofNat n ≠ backslash := by
    constructor
    all_goals
      intro same
      have value := congrArg UInt8.toNat same
      rw [UInt8.toNat_ofNat'] at value
      simp only [quote,backslash,UInt8.reduceToNat] at value
      omega
  rw [utf8EncodeChar_eq]
  split
  · rename_i ascii
    intro b inside
    rw [List.mem_singleton] at inside
    subst inside
    have same {n : Nat} (is : UInt8.ofNat c.toNat = UInt8.ofNat n) (small : n < 0x80) : c = .ofNat n := by
      have value := congrArg UInt8.toNat is
      rw [UInt8.toNat_ofNat',UInt8.toNat_ofNat'] at value
      have number : c.toNat = n := by omega
      rw [← number,Char.ofNat_toNat]
    exact ⟨fun is => no_quote (same (n := 0x22) is (by decide)),fun is => no_backslash (same (n := 0x5c) is (by decide))⟩
  · split
    · simp only [List.mem_cons,List.not_mem_nil,or_false]
      rintro b (rfl | rfl)
      all_goals exact high (by omega)
    · split
      · simp only [List.mem_cons,List.not_mem_nil,or_false]
        rintro b (rfl | rfl | rfl)
        all_goals exact high (by omega)
      · simp only [List.mem_cons,List.not_mem_nil,or_false]
        rintro b (rfl | rfl | rfl | rfl)
        all_goals exact high (by omega)

end Utf8

section Reading

variable {τ : Type} (emit : τ → UInt8 → τ)

theorem readText_plain {bytes : List UInt8} (plain : ∀ b ∈ bytes, b ≠ quote ∧ b ≠ backslash) (fuel : Nat) (st : τ) (rest : Input) :
    readText emit (fuel + bytes.length) st (bytes.map .byte ++ rest) = readText emit fuel (bytes.foldl emit st) rest := by
  induction bytes generalizing st with
  | nil => rfl
  | cons b bytes ih =>
    obtain ⟨no_quote,no_backslash⟩ := plain b List.mem_cons_self
    rw [List.length_cons,← Nat.add_assoc,List.map_cons,List.cons_append,readText]
    simp only [readStream,Code.ok_bind,if_neg no_quote,if_neg no_backslash]
    exact ih (fun b inside => plain b (List.mem_cons_of_mem _ inside)) (emit st b)

theorem readText_escape {bytes : List UInt8} {inp rest : Input} (reads : readEscChar inp = .ok (bytes,rest)) (fuel : Nat) (st : τ) :
    readText emit (fuel + 1) st (.byte backslash :: inp) = readText emit fuel (bytes.foldl emit st) rest := by
  have differs : ¬backslash = quote := by decide
  simp only [readText,readStream,Code.ok_bind,if_neg differs,if_true,reads]

theorem readEscChar_short (e : ShortEscape) (rest : Input) :
    readEscChar (.byte e.letter :: rest) = .ok (utf8 e.char.toNat,rest) := by
  cases e <;> rfl

theorem readEscChar_unit (u : CodeUnit) (rest : Input) :
    readEscChar (.byte 0x75 :: (u.bytes.map .byte ++ rest)) = .ok (utf8 u.value,rest) := by
  have form : escaped 0x75 = some none := rfl
  simp only [readEscChar,readStream,Code.ok_bind,form,readHexChar_unit,Code.pure_eq]

/-- A piece is read in as many rounds as it has bytes, or fewer. -/
theorem readText_piece (p : Piece) (fuel : Nat) (st : τ) (rest : Input) :
    ∃ more, readText emit (fuel + p.text.length) st (p.text.map .byte ++ rest) =
      readText emit (fuel + more) (p.stored.foldl emit st) rest := by
  cases p with
  | raw c plain => exact ⟨0,readText_plain emit (raw_bytes plain) fuel st rest⟩
  | short e => exact ⟨1,readText_escape emit (readEscChar_short e rest) (fuel + 1) st⟩
  | unit u scalar => exact ⟨5,readText_escape emit (readEscChar_unit u rest) (fuel + 5) st⟩
  | pair high low isHigh isLow =>
    refine ⟨10,?_⟩
    have first := readText_escape emit (readEscChar_unit high (.byte backslash :: .byte 0x75 :: (low.bytes.map .byte ++ rest)))
      (fuel + 11) st
    have second := readText_escape emit (readEscChar_unit low rest) (fuel + 10) ((utf8 high.value).foldl emit st)
    rw [Piece.stored,List.foldl_append,← second,← first]
    simp only [Piece.text,List.map_cons,List.map_append,List.cons_append,List.append_assoc]
    rfl

theorem readText_pieces (pieces : List Piece) {fuel : Nat} (st : τ) (rest : Input)
    (enough : (pieces.flatMap Piece.text).length < fuel) :
    readText emit fuel st ((pieces.flatMap Piece.text).map .byte ++ .byte quote :: rest) =
      .ok ((pieces.flatMap Piece.stored).foldl emit st,rest) := by
  induction pieces generalizing fuel st with
  | nil =>
    obtain ⟨fuel,rfl⟩ := Nat.exists_eq_add_of_lt enough
    rfl
  | cons p pieces ih =>
    rw [List.flatMap_cons,List.length_append] at enough
    obtain ⟨more,step⟩ := readText_piece emit p (fuel - p.text.length) st
      ((pieces.flatMap Piece.text).map .byte ++ .byte quote :: rest)
    rw [Nat.sub_add_cancel (by omega)] at step
    rw [List.flatMap_cons,List.map_append,List.append_assoc,step,List.flatMap_cons,List.foldl_append]
    exact ih _ (by omega)

end Reading

/-- What a literal is read as. -/
theorem jsonReadAllocString_literal (pieces : List Piece) (rest : Input) :
    jsonReadAllocString ((stringLiteral pieces).map .byte ++ rest) = .ok (some (pieces.flatMap Piece.stored ++ [0]),rest) := by
  have no_null : ¬(Item.byte quote = .byte 0x6e) := by decide
  have opened : readToken ((stringLiteral pieces).map .byte ++ rest) =
      .ok (.byte quote,(pieces.flatMap Piece.text).map .byte ++ .byte quote :: rest) := by
    simp only [stringLiteral,List.cons_append,List.map_cons,List.map_append,List.map_nil,List.append_assoc,List.nil_append]
    generalize (pieces.flatMap Piece.text).map Item.byte ++ .byte quote :: rest = inp
    cases inp <;> rfl
  have read := @readText_pieces _ bufAdd pieces (((pieces.flatMap Piece.text).map Item.byte ++ .byte quote :: rest).length + 1)
    [] rest (by rw [List.length_append,List.length_map]; omega)
  rw [jsonReadAllocString,opened]
  simp only [Code.ok_bind,if_neg no_null,ne_eq,not_true,if_false,read,bufAdd_fold]
  rfl

section Denotation

variable {p q : Piece}

theorem unit_valid {n : Nat} (less : n < 0x10000) (single : ¬(0xd800 ≤ n ∧ n < 0xdc00) ∧ ¬(0xdc00 ≤ n ∧ n < 0xe000)) :
    n.isValidChar := by
  unfold Nat.isValidChar
  omega

theorem pair_valid {high low : Nat} (isHigh : 0xd800 ≤ high ∧ high < 0xdc00) (isLow : 0xdc00 ≤ low ∧ low < 0xe000) :
    (0x10000 + (high - 0xd800) * 0x400 + (low - 0xdc00)).isValidChar := by
  unfold Nat.isValidChar
  omega

theorem denotes_toNat (p : Piece) : p.denotes.toNat = p.codePoint := by
  unfold Piece.denotes Char.ofNat
  rw [dif_pos]
  · rfl
  cases p with
  | raw c plain => exact toNat_valid c
  | short e => exact toNat_valid e.char
  | unit u scalar => exact unit_valid u.value_less scalar
  | pair high low isHigh isLow => exact pair_valid isHigh isLow

/-- All but surrogate pairs are stored as UTF-8. -/
theorem stored_encoded (single : p.isPair = false) : p.stored = String.utf8EncodeChar p.denotes := by
  cases p with
  | raw c plain =>
    change String.utf8EncodeChar c = String.utf8EncodeChar (.ofNat c.toNat)
    rw [Char.ofNat_toNat]
  | short e => cases e <;> rfl
  | unit u scalar =>
    have number := denotes_toNat (.unit u scalar)
    have basic := utf8_char (c := (Piece.unit u scalar).denotes) (by rw [number]; exact u.value_less)
    rw [number] at basic
    exact basic
  | pair high low isHigh isLow => cases single

theorem pair_beyond (double : p.isPair = true) : 0x10000 ≤ p.denotes.toNat := by
  rw [denotes_toNat]
  cases p with
  | pair high low isHigh isLow => exact Nat.le_add_right_of_le (Nat.le_add_right ..)
  | raw | short | unit => cases double

/-- A surrogate pair is stored as six bytes. -/
theorem pair_stored (double : p.isPair = true) : ∃ b1 b2 b3 b4 b5, p.stored = [0xed,b1,b2,b3,b4,b5] := by
  cases p with
  | pair high low isHigh isLow =>
    obtain ⟨a1,a2,first⟩ := utf8_surrogate isHigh.1 (Nat.lt_trans isHigh.2 (by decide))
    obtain ⟨b1,b2,second⟩ := utf8_surrogate (Nat.le_trans (by decide) isLow.1) isLow.2
    exact ⟨a1,a2,0xed,b1,b2,by rw [Piece.stored,first,second]; rfl⟩
  | raw | short | unit => cases double

theorem stored_length (p : Piece) :
    p.stored.length = (String.utf8EncodeChar p.denotes).length + if p.isPair then 2 else 0 := by
  cases double : p.isPair with
  | false => simp [stored_encoded double]
  | true =>
    obtain ⟨_,_,_,_,_,six⟩ := pair_stored double
    obtain ⟨_,_,_,_,four,_⟩ := utf8EncodeChar_beyond (pair_beyond double)
    simp [six,four]

/-- The code point of a pair determines its halves. -/
theorem halves_same {high low high' low' : Nat} (is : 0xd800 ≤ high) (is' : 0xd800 ≤ high')
    (range : 0xdc00 ≤ low ∧ low < 0xe000) (range' : 0xdc00 ≤ low' ∧ low' < 0xe000)
    (same : 0x10000 + (high - 0xd800) * 0x400 + (low - 0xdc00) = 0x10000 + (high' - 0xd800) * 0x400 + (low' - 0xdc00)) :
    high = high' ∧ low = low' := by
  omega

/-- Pieces of one kind that denote the same are stored the same. -/
theorem stored_same (same : p.denotes = q.denotes) (kind : p.isPair = q.isPair) : p.stored = q.stored := by
  cases double : p.isPair with
  | false => rw [stored_encoded double,stored_encoded (kind ▸ double),same]
  | true =>
    have number : p.codePoint = q.codePoint := by rw [← denotes_toNat,← denotes_toNat,same]
    rw [double] at kind
    cases p with
    | raw | short | unit => cases double
    | pair high low isHigh isLow =>
      cases q with
      | raw | short | unit => cases kind
      | pair high' low' isHigh' isLow' =>
        obtain ⟨highs,lows⟩ := halves_same isHigh.1 isHigh'.1 isLow isLow' number
        simp only [Piece.stored,highs,lows]

/-- A character that one literal writes as a pair and another does not differs in its first byte. -/
theorem stored_apart (same : p.denotes = q.denotes) (double : p.isPair = true) (single : q.isPair = false) (one two : List UInt8) :
    p.stored ++ one ≠ q.stored ++ two := by
  obtain ⟨_,_,_,_,_,six⟩ := pair_stored double
  obtain ⟨lead,_,_,_,four,high⟩ := utf8EncodeChar_beyond (same ▸ pair_beyond double)
  rw [six,stored_encoded single,four]
  intro equal
  have leads : 0xed = lead := (List.cons.inj equal).1
  rw [← leads,UInt8.le_iff_toNat_le] at high
  simp only [UInt8.reduceToNat] at high
  omega

end Denotation

theorem stored_encoded_iff (pieces : List Piece) :
    pieces.flatMap Piece.stored = encoded (pieces.map Piece.denotes) ↔ ∀ p ∈ pieces, p.isPair = false := by
  constructor
  · intro equal
    have lengths (pieces : List Piece) : (pieces.flatMap Piece.stored).length =
        (encoded (pieces.map Piece.denotes)).length + 2 * pieces.countP Piece.isPair := by
      induction pieces with
      | nil => rfl
      | cons p pieces ih =>
        simp only [encoded,List.map_cons,List.flatMap_cons,List.length_append,List.countP_cons,stored_length] at ih ⊢
        split <;> omega
    have count := lengths pieces
    rw [equal] at count
    have none_ : pieces.countP Piece.isPair = 0 := by omega
    intro p inside
    simpa using List.countP_eq_zero.mp none_ p inside
  · intro single
    simp only [encoded,List.flatMap_map]
    exact List.flatMap_congr fun p inside => stored_encoded (single p inside)

theorem stored_same_iff {one two : List Piece} (same : one.map Piece.denotes = two.map Piece.denotes) :
    one.flatMap Piece.stored = two.flatMap Piece.stored ↔ one.map Piece.isPair = two.map Piece.isPair := by
  induction one generalizing two with
  | nil =>
    obtain rfl : two = [] := by simpa using same.symm
    simp
  | cons p one ih =>
    cases two with
    | nil => cases same
    | cons q two =>
      obtain ⟨first,rest⟩ := List.cons.inj same
      simp only [List.flatMap_cons,List.map_cons,List.cons.injEq]
      by_cases kind : p.isPair = q.isPair
      · rw [stored_same first kind,List.append_cancel_left_eq,ih rest]
        simp [kind]
      · refine iff_of_false ?_ (fun both => kind both.1)
        cases double : p.isPair with
        | true => exact stored_apart first double (by simpa [double] using kind) _ _
        | false => exact (stored_apart first.symm (by simpa [double] using kind) double _ _).symm

/-- A literal is read as the UTF-8 encoding of its text just if it has no surrogate pair, and two literals of one text
are read alike just if they write the same characters as pairs. -/
theorem escapes_denote_text (pieces others : List Piece) (rest : Input) :
    (jsonReadAllocString ((stringLiteral pieces).map .byte ++ rest) = .ok (some (encoded (pieces.map Piece.denotes) ++ [0]),rest) ↔
      ∀ p ∈ pieces, p.isPair = false) ∧
    (pieces.map Piece.denotes = others.map Piece.denotes →
      (jsonReadAllocString ((stringLiteral pieces).map .byte ++ rest) = jsonReadAllocString ((stringLiteral others).map .byte ++ rest) ↔
        pieces.map Piece.isPair = others.map Piece.isPair)) := by
  constructor
  · rw [jsonReadAllocString_literal,← stored_encoded_iff]
    simp
  · intro same
    rw [jsonReadAllocString_literal,jsonReadAllocString_literal,← stored_same_iff same]
    simp

/-- U+1F600, once raw and once as the pair d83d de00. -/
def grinningFace : Piece × Piece :=
  (.raw '😀' (by decide),
    .pair ⟨⟨0x64,by decide⟩,⟨0x38,by decide⟩,⟨0x33,by decide⟩,⟨0x64,by decide⟩⟩
      ⟨⟨0x64,by decide⟩,⟨0x65,by decide⟩,⟨0x30,by decide⟩,⟨0x30,by decide⟩⟩ (by decide +kernel) (by decide +kernel))

theorem escapes_denote_text_face :
    jsonReadAllocString ((stringLiteral [grinningFace.1]).map .byte ++ []) =
      jsonReadAllocString ((stringLiteral [grinningFace.2]).map .byte ++ []) ↔
    [grinningFace.1.isPair] = [grinningFace.2.isPair] :=
  (escapes_denote_text [grinningFace.1] [grinningFace.2] []).2 (by decide +kernel)

/-- The pair is read as six bytes, which are not UTF-8, and the raw character as four. -/
theorem pair_read_as_surrogates :
    stringLiteral [grinningFace.2] = [0x22,0x5c,0x75,0x64,0x38,0x33,0x64,0x5c,0x75,0x64,0x65,0x30,0x30,0x22] ∧
    grinningFace.2.denotes = '😀' ∧
    jsonReadAllocString ((stringLiteral [grinningFace.2]).map .byte) = .ok (some [0xed,0xa0,0xbd,0xed,0xb8,0x80,0],[]) ∧
    encoded [grinningFace.2.denotes] = [0xf0,0x9f,0x98,0x80] ∧
    grinningFace.1.denotes = grinningFace.2.denotes ∧
    jsonReadAllocString ((stringLiteral [grinningFace.1]).map .byte) = .ok (some [0xf0,0x9f,0x98,0x80,0],[]) := by
  refine ⟨rfl,?_,?_,?_,?_,?_⟩ <;> decide +kernel

end Tcf.Json
