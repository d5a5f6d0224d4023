import Mathlib.Data.List.Basic
import Mathlib.Algebra.Order.Ring.Int

/-! Text that is put together from tokens and cut at a length, and hexadecimal numbers in it. -/
namespace TokenText

/-- Appends one more where there is room. -/
def push (limit : Nat) (text : List α) (a : α) : List α := if text.length < limit then text ++ [a] else text

def pushAll (limit : Nat) (text more : List α) : List α := more.foldl (push limit) text

theorem push_take (limit : Nat) (text : List α) (a : α) : push limit (text.take limit) a = (text ++ [a]).take limit := by
  unfold push
  by_cases room : text.length < limit
  · rw [List.take_of_length_le (Nat.le_of_lt room),if_pos room,
      List.take_of_length_le (by rw [List.length_append]; exact Nat.succ_le_of_lt room)]
  · have full : limit ≤ text.length := Nat.le_of_not_lt room
    rw [if_neg (by simp [full]),List.take_append_of_le_length full]

/-- Cutting at each step is cutting once. -/
theorem pushAll_take (limit : Nat) (text more : List α) : pushAll limit (text.take limit) more = (text ++ more).take limit := by
  induction more generalizing text with
  | nil => simp [pushAll]
  | cons a rest ih =>
    have step : pushAll limit (text.take limit) (a :: rest) = pushAll limit (push limit (text.take limit) a) rest := rfl
    rw [step,push_take,ih,List.append_assoc]
    rfl

def digitChar (d : Nat) : Char := Char.ofNat (if d < 10 then 0x30 + d else 0x41 + d - 10)

def digitOf (c : Char) : Option Nat :=
  if '0' ≤ c ∧ c ≤ '9' then some (c.toNat - 0x30) else if 'A' ≤ c ∧ c ≤ 'F' then some (c.toNat - 0x41 + 10) else none

/-- Digits of a number in front of a text, the highest first; at least one, and at most so many. -/
def digits : Nat → Nat → List Char → List Char
  | 0, _, tail => tail
  | count + 1, n, tail =>
    if n / 16 = 0 then digitChar (n % 16) :: tail else digits count (n / 16) (digitChar (n % 16) :: tail)

/-- Reads digits into a word of `size` values, where high digits get lost. -/
def readDigits (size : Nat) : Nat → List Char → Nat × List Char
  | value, [] => (value,[])
  | value, c :: rest => match digitOf c with
    | some d => readDigits size ((value * 16 + d) % size) rest
    | none => (value,c :: rest)

theorem digitOf_digitChar {d : Nat} (lt : d < 16) : digitOf (digitChar d) = some d := by
  revert d
  decide

theorem readDigits_digits {size : Nat} (count n value : Nat) (tail : List Char) (fits : n < 16 ^ count) (word : value < size) :
    ∃ k, readDigits size value (digits count n tail) = readDigits size ((value * 16 ^ k + n) % size) tail := by
  induction count generalizing n value tail with
  | zero =>
    obtain rfl : n = 0 := by simpa using fits
    exact ⟨0,by simp [digits,Nat.mod_eq_of_lt word]⟩
  | succ count ih =>
    have lt : n % 16 < 16 := Nat.mod_lt n (by decide)
    have step : ∀ v, readDigits size v (digitChar (n % 16) :: tail) = readDigits size ((v * 16 + n % 16) % size) tail := fun v => by
      simp [readDigits,digitOf_digitChar lt]
    by_cases one : n / 16 = 0
    · refine ⟨1,?_⟩
      have small : n % 16 = n := by omega
      rw [digits,if_pos one,step,small,Nat.pow_one]
    · have smaller : n / 16 < 16 ^ count := Nat.div_lt_of_lt_mul (by rwa [Nat.mul_comm,← Nat.pow_succ])
      obtain ⟨k,eq⟩ := ih (n / 16) value (digitChar (n % 16) :: tail) smaller word
      refine ⟨k + 1,?_⟩
      rw [digits,if_neg one,eq,step,Nat.add_mod,Nat.mul_mod,Nat.mod_mod,← Nat.mul_mod,← Nat.add_mod]
      have whole : (value * 16 ^ k + n / 16) * 16 + n % 16 = value * 16 ^ (k + 1) + n := by
        have parts := Nat.div_add_mod n 16
        rw [Nat.pow_succ,← Nat.mul_assoc]
        omega
      rw [whole]

theorem digits_append (count n : Nat) (tail rest : List Char) : digits count n (tail ++ rest) = digits count n tail ++ rest := by
  induction count generalizing n tail with
  | zero => rfl
  | succ count ih =>
    simp only [digits]
    split
    · rfl
    · exact ih (n / 16) (digitChar (n % 16) :: tail)

/-- A text that does not go on with a digit. -/
def Ends (text : List Char) : Prop := ∀ c ∈ text.head?, digitOf c = none

theorem readDigits_ends {text : List Char} (ends : Ends text) (size value : Nat) : readDigits size value text = (value,text) := by
  cases text with
  | nil => rfl
  | cons c rest => simp [readDigits,ends c (by simp)]

/-- A number is read back, with the text behind it. -/
theorem readDigits_back {size count n : Nat} {text : List Char} (fits : n < 16 ^ count) (word : n < size) (ends : Ends text) :
    readDigits size 0 (digits count n [] ++ text) = (n,text) := by
  obtain ⟨k,eq⟩ := readDigits_digits count n 0 ([] ++ text) fits (Nat.zero_lt_of_lt word)
  rw [← digits_append,eq,List.nil_append,readDigits_ends ends]
  simp [Nat.mod_eq_of_lt word]

end TokenText
