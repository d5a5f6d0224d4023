import Mathlib.Data.List.Basic
import Mathlib.Tactic.Ring

/-! Numbers as bytes: of a fixed width in either byte order, and in LEB128, whose codes may be longer
than they have to be. -/
namespace ByteNumbers

/-- The lowest byte first. -/
def littleBytes : Nat → Nat → List UInt8
  | 0, _ => []
  | size+1, value => UInt8.ofNat (value % 256) :: littleBytes size (value / 256)

def littleValue : List UInt8 → Nat
  | [] => 0
  | byte :: rest => byte.toNat + 256 * littleValue rest

def bytesOf (big : Bool) (size value : Nat) : List UInt8 :=
  if big then (littleBytes size value).reverse else littleBytes size value

def valueOf (big : Bool) (bytes : List UInt8) : Nat := littleValue (if big then bytes.reverse else bytes)

theorem littleBytes_length (size value : Nat) : (littleBytes size value).length = size := by
  induction size generalizing value with
  | zero => rfl
  | succ size ih => simp [littleBytes,ih]

@[simp] theorem bytesOf_length (big : Bool) (size value : Nat) : (bytesOf big size value).length = size := by
  cases big <;> simp [bytesOf,littleBytes_length]

theorem littleValue_littleBytes {size value : Nat} (fits : value < 256 ^ size) : littleValue (littleBytes size value) = value := by
  induction size generalizing value with
  | zero => simp_all [littleBytes,littleValue]
  | succ size ih =>
    have lower : value / 256 < 256 ^ size := Nat.div_lt_of_lt_mul (by rwa [Nat.mul_comm,← Nat.pow_succ])
    have byte : (UInt8.ofNat (value % 256)).toNat = value % 256 := by simp
    simp only [littleBytes,littleValue,ih lower,byte]
    exact Nat.mod_add_div value 256

theorem valueOf_bytesOf {big : Bool} {size value : Nat} (fits : value < 256 ^ size) : valueOf big (bytesOf big size value) = value := by
  cases big <;> simp [valueOf,bytesOf,littleValue_littleBytes fits]

theorem littleBytes_littleValue (bytes : List UInt8) :
    littleValue bytes < 256 ^ bytes.length ∧ littleBytes bytes.length (littleValue bytes) = bytes := by
  induction bytes with
  | nil => exact ⟨by simp [littleValue],rfl⟩
  | cons byte bytes ih =>
    obtain ⟨small,same⟩ := ih
    have low := byte.toNat_lt
    have first : (byte.toNat + 256 * littleValue bytes) % 256 = byte.toNat := by omega
    have others : (byte.toNat + 256 * littleValue bytes) / 256 = littleValue bytes := by omega
    refine ⟨?_,?_⟩
    · rw [List.length_cons,Nat.pow_succ,littleValue]
      omega
    · rw [List.length_cons,littleBytes,littleValue,first,others,same,UInt8.ofNat_toNat]

theorem bytesOf_valueOf (big : Bool) (bytes : List UInt8) :
    valueOf big bytes < 256 ^ bytes.length ∧ bytesOf big bytes.length (valueOf big bytes) = bytes := by
  cases big with
  | false => exact littleBytes_littleValue bytes
  | true =>
    obtain ⟨small,same⟩ := littleBytes_littleValue bytes.reverse
    rw [List.length_reverse] at small same
    exact ⟨small,by simp [bytesOf,valueOf,same]⟩

/-- Groups of seven bits, the lowest first. -/
def groupsValue (last : Fin 128) : List (Fin 128) → Nat
  | [] => last
  | group :: rest => group + 128 * groupsValue last rest

def groupsBytes (last : Fin 128) : List (Fin 128) → List UInt8
  | [] => [UInt8.ofNat last]
  | group :: rest => UInt8.ofNat (group + 128) :: groupsBytes last rest

/-- A code in LEB128: groups with a mark, and a last one without. -/
structure Leb where
  groups : List (Fin 128)
  last : Fin 128
  deriving DecidableEq, Repr

namespace Leb

def length (leb : Leb) : Nat := leb.groups.length + 1

def bytes (leb : Leb) : List UInt8 := groupsBytes leb.last leb.groups

def unsigned (leb : Leb) : Nat := groupsValue leb.last leb.groups

/-- Two's complement in as many groups as there are. -/
def signed (leb : Leb) : Int := leb.unsigned - if 64 ≤ leb.last.val then 128 ^ leb.length else 0

end Leb

theorem groupsBytes_length (last : Fin 128) (groups : List (Fin 128)) : (groupsBytes last groups).length = groups.length + 1 := by
  induction groups with
  | nil => rfl
  | cons group rest ih => simp [groupsBytes,ih]

@[simp] theorem Leb.bytes_length (leb : Leb) : leb.bytes.length = leb.length := groupsBytes_length ..

theorem last_byte : ∀ last : Fin 128, (UInt8.ofNat last).toNat &&& 0x7F = last ∧ (UInt8.ofNat last).toNat &&& 0x80 = 0 ∧
    (UInt8.ofNat last).toNat &&& 0x40 = if 64 ≤ last.val then 64 else 0 := by decide +kernel

theorem group_byte : ∀ group : Fin 128, (UInt8.ofNat (group + 128)).toNat &&& 0x7F = group ∧
    (UInt8.ofNat (group + 128)).toNat &&& 0x80 ≠ 0 := by decide +kernel

/-- Bits behind those of a number are added to it. -/
theorem or_shifted {low i width : Nat} (x : Nat) (below : low < 2 ^ i) (inside : i ≤ width) :
    low ||| (x <<< i % 2 ^ width) = (low + x * 2 ^ i) % 2 ^ width := by
  obtain ⟨above,rfl⟩ := Nat.exists_eq_add_of_le' inside
  have cut : x <<< i % 2 ^ (above + i) = 2 ^ i * (x % 2 ^ above) := by
    rw [Nat.shiftLeft_eq,Nat.pow_add,Nat.mul_mod_mul_right,Nat.mul_comm]
  have bound : 2 ^ i * (x % 2 ^ above) + low < 2 ^ (above + i) := by
    have digit : x % 2 ^ above + 1 ≤ 2 ^ above := Nat.mod_lt _ (Nat.two_pow_pos _)
    calc 2 ^ i * (x % 2 ^ above) + low < 2 ^ i * (x % 2 ^ above) + 2 ^ i := Nat.add_lt_add_left below _
      _ = 2 ^ i * (x % 2 ^ above + 1) := by ring
      _ ≤ 2 ^ i * 2 ^ above := Nat.mul_le_mul_left _ digit
      _ = 2 ^ (above + i) := by ring
  have whole : (low + x * 2 ^ i) % 2 ^ (above + i) = (low + 2 ^ i * (x % 2 ^ above)) % 2 ^ (above + i) := by
    rw [← cut,Nat.shiftLeft_eq,Nat.add_mod_mod]
  rw [cut,whole,Nat.or_comm,← Nat.two_pow_add_eq_or_of_lt below,Nat.add_comm low,Nat.mod_eq_of_lt bound]

/-- All bits from one on are set. -/
theorem or_ones {x i width : Nat} (below : x < 2 ^ width) (inside : i ≤ width) :
    x ||| (2 ^ width - 2 ^ i) = x % 2 ^ i + (2 ^ width - 2 ^ i) := by
  obtain ⟨above,rfl⟩ := Nat.exists_eq_add_of_le' inside
  have ones : 2 ^ (above + i) - 2 ^ i = 2 ^ i * (2 ^ above - 1) := by rw [Nat.mul_sub_one,Nat.pow_add,Nat.mul_comm]
  have low : x % 2 ^ i < 2 ^ i := Nat.mod_lt _ (Nat.two_pow_pos _)
  rw [ones,Nat.add_comm,Nat.two_pow_add_eq_or_of_lt low]
  apply Nat.eq_of_testBit_eq
  intro bit
  have marks : (2 ^ i * (2 ^ above - 1)).testBit bit = (decide (i ≤ bit) && decide (bit - i < above)) := by
    rw [Nat.testBit_two_pow_mul,Nat.testBit_two_pow_sub_one]
  rw [Nat.testBit_or,Nat.testBit_or,marks,Nat.testBit_mod_two_pow]
  by_cases behind : i ≤ bit
  · by_cases set : bit - i < above
    · simp [behind,set]
    · have off : x.testBit bit = false := Nat.testBit_lt_two_pow (below.trans_le (Nat.pow_le_pow_right (by omega) (by omega)))
      simp [behind,set,off]
  · have before : bit < i := by omega
    simp [behind,before]

/-- The sign goes into all bits behind it. -/
theorem or_sign {low i width last : Nat} (below : low < 2 ^ i) (group : last < 128) (negative : 64 ≤ last) :
    (((low + last * 2 ^ i) % 2 ^ width ||| (2 ^ width - 64 <<< i % 2 ^ width) % 2 ^ width : Nat) : Int) =
      (low + last * 2 ^ i - 128 * 2 ^ i : Int) % 2 ^ width := by
  obtain ⟨rest,rfl⟩ := Nat.exists_eq_add_of_le negative
  have mark : 64 <<< i = 2 ^ (i + 6) := by
    rw [Nat.shiftLeft_eq]
    ring
  rw [mark]
  by_cases room : i + 6 < width
  · have apart : (2 : Nat) ^ (i + 6) < 2 ^ width := Nat.pow_lt_pow_right (by omega) room
    have sign : (2 ^ width - 2 ^ (i + 6) % 2 ^ width) % 2 ^ width = 2 ^ width - 2 ^ (i + 6) := by
      rw [Nat.mod_eq_of_lt apart,Nat.mod_eq_of_lt (Nat.sub_lt (Nat.two_pow_pos _) (Nat.two_pow_pos _))]
    have behind : low + rest * 2 ^ i < 2 ^ (i + 6) := by
      calc low + rest * 2 ^ i < 2 ^ i + rest * 2 ^ i := Nat.add_lt_add_right below _
        _ = (rest + 1) * 2 ^ i := by ring
        _ ≤ 64 * 2 ^ i := Nat.mul_le_mul_right _ (by omega)
        _ = 2 ^ (i + 6) := by ring
    have split : low + (64 + rest) * 2 ^ i = low + rest * 2 ^ i + 2 ^ (i + 6) := by ring
    have double : 2 ^ (i + 7) ≤ 2 ^ width := Nat.pow_le_pow_right (by omega) room
    have twice : (2 : Nat) ^ (i + 7) = 2 ^ (i + 6) + 2 ^ (i + 6) := by ring
    have bits : low + (64 + rest) * 2 ^ i < 2 ^ width := by omega
    rw [sign,Nat.mod_eq_of_lt bits,or_ones bits (by omega),split,Nat.add_mod_right,Nat.mod_eq_of_lt behind]
    have value : ((low + rest * 2 ^ i + (2 ^ width - 2 ^ (i + 6)) : Nat) : Int) =
        (low + (64 + rest) * 2 ^ i - 128 * 2 ^ i) + 2 ^ width := by
      rw [Nat.cast_add,Nat.cast_sub (by omega)]
      push_cast
      ring
    have result : low + rest * 2 ^ i + (2 ^ width - 2 ^ (i + 6)) < 2 ^ width := by omega
    have same : (low + (64 + rest : Nat) * 2 ^ i - 128 * 2 ^ i : Int) % 2 ^ width =
        ((low + rest * 2 ^ i + (2 ^ width - 2 ^ (i + 6)) : Nat) : Int) % 2 ^ width := by
      rw [value,Int.add_emod_right]
      push_cast
      rfl
    rw [same]
    exact (Int.emod_eq_of_lt (Int.natCast_nonneg _) (by exact_mod_cast result)).symm
  · obtain ⟨more,shape⟩ := Nat.exists_eq_add_of_le (Nat.le_of_not_lt room)
    have none : 2 ^ (i + 6) % 2 ^ width = 0 := by
      rw [shape,Nat.pow_add]
      exact Nat.mul_mod_right _ _
    rw [none,Nat.sub_zero,Nat.mod_self,Nat.or_zero]
    have gone : (128 * 2 ^ i : Int) = 2 ^ width * (2 * 2 ^ more) := by
      have wide : (2 : Int) ^ (i + 6) = 2 ^ width * 2 ^ more := by rw [shape,pow_add]
      calc (128 * 2 ^ i : Int) = 2 * 2 ^ (i + 6) := by ring
        _ = 2 ^ width * (2 * 2 ^ more) := by
          rw [wide]
          ring
    rw [gone,Int.sub_mul_emod_self_left]
    push_cast
    rfl

end ByteNumbers
