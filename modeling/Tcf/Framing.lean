import Tcf.Base.Transducer
import Mathlib.Algebra.Order.Ring.Int

/-! The byte framing of a channel: what a sequence of received bytes stands for.
Escape sequences start with ESC; `ESC 3` is followed by a length in groups of
seven bits and that many uninterpreted bytes. -/
namespace Tcf.Framing

def ESC : UInt8 := 3

/-- What the bytes denote. `bad` is an escape sequence that has no meaning. -/
inductive Token where
  | byte (value : UInt8)
  | eom
  | eos
  | bad
  deriving DecidableEq, Repr

/-- What a stream writes and reads: a byte, or one of the negative markers. -/
inductive Item where
  | byte (value : UInt8)
  | eom
  | eos
  deriving DecidableEq, Repr

def Item.token : Item → Token
  | .byte value => .byte value
  | .eom => .eom
  | .eos => .eos

def Item.marker : Item → Bool
  | .byte _ => false
  | .eom | .eos => true

inductive Mode where
  | plain
  | escaped
  | size (count acc : Nat)
  | data (remaining : Nat)
  deriving DecidableEq, Repr

/-- A C compiler's `(ch & 0x7f) << shift` on `int`, converted to `size_t`. The
language defines it only while the product fits; a peer can ask for more. -/
structure IntShift where
  shl : Nat → Nat → Nat
  defined : ∀ value shift, shift < 32 → value * 2^shift < 2^31 → shl value shift = value * 2^shift

/-- Lengths that never overflow. -/
def wideShift : IntShift := ⟨fun value shift => value * 2^shift,fun _ _ _ _ => rfl⟩

/-- Modes the framing reaches: a length has a group to read, a block has bytes left. -/
def Mode.Valid : Mode → Prop
  | .size count _ => 0 < count
  | .data remaining => 0 < remaining
  | .plain | .escaped => True

def counting (remaining : Nat) : Mode := if remaining = 0 then .plain else .data remaining

variable (int : IntShift)

def escapeStep : UInt8 → Mode × Option Token
  | 0 => (.plain,some (.byte ESC))
  | 1 => (.plain,some .eom)
  | 2 => (.plain,some .eos)
  | 3 => (.size 1 0,none)
  | _ => (.plain,some .bad)

def step : Mode → UInt8 → Mode × Option Token
  | .plain, ch => if ch = ESC then (.escaped,none) else (.plain,some (.byte ch))
  | .escaped, ch => escapeStep ch
  | .size count acc, ch =>
    let acc := acc ||| int.shl (ch &&& 0x7f).toNat ((count - 1) * 7)
    if ch &&& 0x80 = 0 then (counting acc,none) else (.size (count + 1) acc,none)
  | .data remaining, ch => (counting (remaining - 1),some (.byte ch))

def decoder : Transducer Mode UInt8 Token := ⟨step int⟩

/-- The tokens the bytes stand for when they follow what led to the mode. -/
def tokens (mode : Mode) (bytes : List UInt8) : List Token := (decoder int).output mode bytes

def after (mode : Mode) (bytes : List UInt8) : Mode := (decoder int).final mode bytes

@[simp] theorem tokens_nil (mode : Mode) : tokens int mode [] = [] := rfl
@[simp] theorem after_nil (mode : Mode) : after int mode [] = mode := rfl

theorem tokens_cons (mode : Mode) (ch : UInt8) (rest : List UInt8) :
    tokens int mode (ch :: rest) =
      (step int mode ch).2.toList ++ tokens int (step int mode ch).1 rest := rfl

theorem after_cons (mode : Mode) (ch : UInt8) (rest : List UInt8) :
    after int mode (ch :: rest) = after int (step int mode ch).1 rest := rfl

theorem tokens_append (mode : Mode) (first second : List UInt8) :
    tokens int mode (first ++ second) = tokens int mode first ++ tokens int (after int mode first) second :=
  (decoder int).output_append mode first second

theorem after_append (mode : Mode) (first second : List UInt8) :
    after int mode (first ++ second) = after int (after int mode first) second :=
  (decoder int).final_append mode first second

theorem tokens_front (mode : Mode) {first second : List UInt8} (front : first <+: second) :
    tokens int mode first <+: tokens int mode second := by
  obtain ⟨rest,rfl⟩ := front
  rw [tokens_append]
  exact List.prefix_append ..

theorem counting_valid (remaining : Nat) : (counting remaining).Valid := by
  by_cases h : remaining = 0
  · simp [counting,h,Mode.Valid]
  · simp [counting,h,Mode.Valid]
    omega

theorem step_valid (mode : Mode) (ch : UInt8) : (step int mode ch).1.Valid := by
  cases mode with
  | plain => by_cases esc : ch = ESC <;> simp [step,esc,Mode.Valid]
  | escaped =>
    simp only [step,escapeStep]
    split <;> simp [Mode.Valid]
  | size count acc =>
    simp only [step]
    split
    · exact counting_valid _
    · simp [Mode.Valid]
  | data remaining => exact counting_valid _

theorem after_valid (mode : Mode) (bytes : List UInt8) (valid : mode.Valid) :
    (after int mode bytes).Valid := by
  induction bytes generalizing mode with
  | nil => exact valid
  | cons ch rest ih => exact ih _ (step_valid int mode ch)

/-- Bytes other than ESC stand for themselves. -/
theorem plain_run (bytes : List UInt8) (free : ESC ∉ bytes) :
    after int .plain bytes = .plain ∧ tokens int .plain bytes = bytes.map .byte := by
  apply (decoder int).copies
  intro ch member
  have other : ch ≠ ESC := by rintro rfl; exact free member
  simp [decoder,step,other]

/-- Inside a block every byte stands for itself, ESC included. -/
theorem data_run (bytes : List UInt8) (extra : Nat) :
    after int (counting (bytes.length + extra)) bytes = counting extra ∧
      tokens int (counting (bytes.length + extra)) bytes = bytes.map .byte := by
  induction bytes with
  | nil => simp
  | cons ch rest ih =>
    have less : rest.length + 1 + extra - 1 = rest.length + extra := by omega
    have open_ : counting (rest.length + 1 + extra) = .data (rest.length + 1 + extra) := by
      rw [counting,if_neg (by omega)]
    simp only [List.length_cons,open_,after_cons,tokens_cons,step,less,List.map_cons]
    exact ⟨ih.1,by simp [ih.2]⟩

theorem block_run (bytes : List UInt8) (remaining : Nat) (positive : 0 < remaining)
    (short : bytes.length ≤ remaining) :
    after int (.data remaining) bytes = counting (remaining - bytes.length) ∧
      tokens int (.data remaining) bytes = bytes.map .byte := by
  have run := data_run int bytes (remaining - bytes.length)
  rw [Nat.add_sub_cancel' short] at run
  rwa [counting,if_neg (by omega)] at run

/-- A length byte that another one follows: seven bits and a continuation bit. -/
def lowBits (n : Nat) : UInt8 := UInt8.ofNat ((n &&& 0x7f) ||| 0x80)

theorem group_bits : ∀ v : Fin 128,
    (UInt8.ofNat (v.val ||| 0x80) &&& 0x7f).toNat = v.val ∧ UInt8.ofNat (v.val ||| 0x80) &&& 0x80 ≠ 0 ∧
    (UInt8.ofNat v.val &&& 0x7f).toNat = v.val ∧ UInt8.ofNat v.val &&& 0x80 = 0 := by decide

theorem step_lowBits (count acc n : Nat) (shift : (count - 1) * 7 ≤ 14) :
    step int (.size count acc) (lowBits n) =
      (.size (count + 1) (acc ||| n % 128 * 2^((count - 1) * 7)),none) := by
  have mask : n &&& 0x7f = n % 128 := Nat.and_two_pow_sub_one_eq_mod n 7
  have low : n % 128 < 128 := Nat.mod_lt _ (by decide)
  obtain ⟨bits,more,_,_⟩ := group_bits ⟨n % 128,low⟩
  have product : n % 128 * 2^((count - 1) * 7) < 2^31 :=
    calc n % 128 * 2^((count - 1) * 7) ≤ n % 128 * 2^14 :=
          Nat.mul_le_mul_left _ (Nat.pow_le_pow_right (by decide) shift)
      _ < 2^31 := by omega
  simp only [step,lowBits,mask,bits,if_neg more,int.defined _ _ (by omega : _ < 32) product]

theorem step_last (count acc n : Nat) (low : n < 128) (shift : (count - 1) * 7 ≤ 14) :
    step int (.size count acc) (UInt8.ofNat n) =
      (counting (acc ||| n * 2^((count - 1) * 7)),none) := by
  obtain ⟨_,_,bits,last⟩ := group_bits ⟨n,low⟩
  have product : n * 2^((count - 1) * 7) < 2^31 :=
    calc n * 2^((count - 1) * 7) ≤ n * 2^14 :=
          Nat.mul_le_mul_left _ (Nat.pow_le_pow_right (by decide) shift)
      _ < 2^31 := by omega
  simp only [step,bits,if_pos last,int.defined _ _ (by omega : _ < 32) product]

theorem or_groups (a b width : Nat) (low : a < 2^width) : a ||| b * 2^width = a + b * 2^width := by
  rw [Nat.or_comm,← Nat.shiftLeft_eq,← Nat.shiftLeft_add_eq_or_of_lt low,Nat.add_comm]

/-- A length below 2^14, in two groups of seven bits. -/
theorem size_two (n : Nat) (fits : n ≤ 0x3fff) :
    after int .escaped [3,lowBits n,UInt8.ofNat (n >>> 7)] = counting n ∧
      tokens int .escaped [3,lowBits n,UInt8.ofNat (n >>> 7)] = [] := by
  have high : n >>> 7 < 128 := by rw [Nat.shiftRight_eq_div_pow]; omega
  have whole : n % 128 ||| n >>> 7 * 128 = n := by
    refine (or_groups _ _ 7 (Nat.mod_lt _ (by decide))).trans ?_
    rw [Nat.shiftRight_eq_div_pow]
    omega
  have open_ : step int .escaped 3 = (.size 1 0,none) := rfl
  simp [after_cons,tokens_cons,open_,step_lowBits,step_last int _ _ _ high,whole]

/-- A length below 2^21, in three groups. -/
theorem size_three (n : Nat) (fits : n < 0x200000) :
    after int .escaped [3,lowBits n,lowBits (n >>> 7),UInt8.ofNat (n >>> 14)] = counting n ∧
      tokens int .escaped [3,lowBits n,lowBits (n >>> 7),UInt8.ofNat (n >>> 14)] = [] := by
  have high : n >>> 14 < 128 := by rw [Nat.shiftRight_eq_div_pow]; omega
  have low : n % 128 ||| n >>> 7 % 128 * 128 = n % 128 + n >>> 7 % 128 * 128 :=
    or_groups _ _ 7 (Nat.mod_lt _ (by decide))
  have whole : n % 128 ||| n >>> 7 % 128 * 128 ||| n >>> 14 * 16384 = n := by
    rw [low]
    refine (or_groups _ _ 14 (by omega)).trans ?_
    simp only [Nat.shiftRight_eq_div_pow]
    omega
  have open_ : step int .escaped 3 = (.size 1 0,none) := rfl
  simp [after_cons,tokens_cons,open_,step_lowBits,step_last int _ _ _ high,whole]

end Tcf.Framing
