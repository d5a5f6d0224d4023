import Tcf.FrameRules
import Tcf.LineRows

/-! When numbers in LEB128 are read as what they stand for. -/
namespace Tcf.Dwarf

open ByteNumbers Frames

/-- `(I8_T)n` -/
def toI8 (n : Nat) : Int := if n < 2 ^ 63 then n else n - 2 ^ 64

section Reading

variable {pos : Nat} {rest : List UInt8} {leb : Leb}

/-- A code is read up to its end, unless a shift goes beyond the width. -/
theorem lebLoop_iff (width : Nat) (signed : Bool) (n : Nat) (value : (n : Int) = (if signed = true then leb.signed else leb.unsigned) % 2 ^ width) :
    lebLoop width signed (leb.bytes ++ rest) pos 0 0 = .ok (n,⟨pos + leb.length,rest⟩) ↔ Short width leb := by
  constructor
  · intro run
    by_contra long
    rw [readLeb_long signed long] at run
    cases run
  · intro short
    obtain ⟨m,run,equal⟩ := readLeb pos rest signed short
    have same : m = n := by
      rw [← value] at equal
      exact_mod_cast equal
    rw [run,same]

theorem short_32 : Short 32 leb ↔ leb.length ≤ 5 := by
  unfold Short Leb.length
  omega

theorem short_64 : Short 64 leb ↔ leb.length ≤ 10 := by
  unfold Short Leb.length
  omega

theorem dioReadULEB128_iff (fits : leb.unsigned < 2 ^ 32) :
    dioReadULEB128 ⟨pos,leb.bytes ++ rest⟩ = .ok (leb.unsigned,⟨pos + leb.length,rest⟩) ↔ leb.length ≤ 5 := by
  refine (lebLoop_iff 32 false leb.unsigned ?_).trans short_32
  simp only [Bool.false_eq_true,if_false]
  omega

theorem dioReadU8LEB128_iff (fits : leb.unsigned < 2 ^ 64) :
    dioReadU8LEB128 ⟨pos,leb.bytes ++ rest⟩ = .ok (leb.unsigned,⟨pos + leb.length,rest⟩) ↔ leb.length ≤ 10 := by
  refine (lebLoop_iff 64 false leb.unsigned ?_).trans short_64
  simp only [Bool.false_eq_true,if_false]
  omega

/-- What the loop leaves is converted to the signed number with these bits. -/
theorem signed_iff {width : Nat} {cast : Nat → Int} {value : Int} (back : ∀ n : Nat, n < 2 ^ width → (cast n = value ↔ (n : Int) = value % 2 ^ width))
    (same : leb.signed = value) :
    (lebLoop width true (leb.bytes ++ rest) pos 0 0).map (fun r => (cast r.1,r.2)) = .ok (value,⟨pos + leb.length,rest⟩) ↔ Short width leb := by
  constructor
  · intro run
    by_contra long
    rw [readLeb_long true long] at run
    cases run
  · intro short
    obtain ⟨n,run,equal⟩ := readLeb pos rest true short
    rw [if_pos rfl,same] at equal
    have positive : (0 : Int) < 2 ^ width := Int.pow_pos (by decide)
    have below : n < 2 ^ width := by
      have := Int.emod_lt_of_pos value positive
      rw [← equal] at this
      exact_mod_cast this
    rw [run,← (back n below).mpr equal]
    rfl

theorem toI4_iff {value : Int} (low : -2 ^ 31 ≤ value) (high : value < 2 ^ 31) (n : Nat) (below : n < 2 ^ 32) :
    toI4 n = value ↔ (n : Int) = value % 2 ^ 32 := by
  unfold toI4
  split <;> omega

theorem toI8_iff {value : Int} (low : -2 ^ 63 ≤ value) (high : value < 2 ^ 63) (n : Nat) (below : n < 2 ^ 64) :
    toI8 n = value ↔ (n : Int) = value % 2 ^ 64 := by
  unfold toI8
  split <;> omega

theorem dioReadSLEB128_iff (low : -2 ^ 31 ≤ leb.signed) (high : leb.signed < 2 ^ 31) :
    dioReadSLEB128 ⟨pos,leb.bytes ++ rest⟩ = .ok (leb.signed,⟨pos + leb.length,rest⟩) ↔ leb.length ≤ 5 := by
  have whole : dioReadSLEB128 ⟨pos,leb.bytes ++ rest⟩ =
      (lebLoop 32 true (leb.bytes ++ rest) pos 0 0).map fun r => (toI4 r.1,r.2) := by
    unfold dioReadSLEB128
    cases lebLoop 32 true (leb.bytes ++ rest) pos 0 0 <;> rfl
  rw [whole]
  exact (signed_iff (toI4_iff low high) rfl).trans short_32

theorem dioReadS8LEB128_iff (low : -2 ^ 63 ≤ leb.signed) (high : leb.signed < 2 ^ 63) :
    (dioReadS8LEB128 ⟨pos,leb.bytes ++ rest⟩).map (fun r => (toI8 r.1,r.2)) = .ok (leb.signed,⟨pos + leb.length,rest⟩) ↔
      leb.length ≤ 10 :=
  (signed_iff (toI8_iff low high) rfl).trans short_64

end Reading

/-- A code of a number that fits is read as that number, and up to its end, exactly when it has at most five bytes, or ten. -/
theorem leb128_exact_iff (leb : Leb) (pos : Nat) (rest : List UInt8) :
    (leb.unsigned < 2 ^ 32 →
      (dioReadULEB128 ⟨pos,leb.bytes ++ rest⟩ = .ok (leb.unsigned,⟨pos + leb.length,rest⟩) ↔ leb.length ≤ 5)) ∧
    (-2 ^ 31 ≤ leb.signed ∧ leb.signed < 2 ^ 31 →
      (dioReadSLEB128 ⟨pos,leb.bytes ++ rest⟩ = .ok (leb.signed,⟨pos + leb.length,rest⟩) ↔ leb.length ≤ 5)) ∧
    (leb.unsigned < 2 ^ 64 →
      (dioReadU8LEB128 ⟨pos,leb.bytes ++ rest⟩ = .ok (leb.unsigned,⟨pos + leb.length,rest⟩) ↔ leb.length ≤ 10)) ∧
    (-2 ^ 63 ≤ leb.signed ∧ leb.signed < 2 ^ 63 →
      ((dioReadS8LEB128 ⟨pos,leb.bytes ++ rest⟩).map (fun r => (toI8 r.1,r.2)) = .ok (leb.signed,⟨pos + leb.length,rest⟩) ↔
        leb.length ≤ 10)) :=
  ⟨dioReadULEB128_iff,fun fits => dioReadSLEB128_iff fits.1 fits.2,dioReadU8LEB128_iff,fun fits => dioReadS8LEB128_iff fits.1 fits.2⟩

theorem zero_group : 0 < 128 := by decide

theorem one_group : 1 < 128 := by decide

/-- The number 1 with as many bytes as there are. -/
def padded (zeros : Nat) : Leb := ⟨⟨1,one_group⟩ :: List.replicate zeros ⟨0,zero_group⟩,⟨0,zero_group⟩⟩

/-- The shift goes beyond the width for six bytes, and for eleven. -/
theorem padded_undefined : (padded 4).unsigned = 1 ∧ (padded 4).signed = 1 ∧
    dioReadULEB128 ⟨0,(padded 4).bytes⟩ = .error .undefined ∧ dioReadSLEB128 ⟨0,(padded 4).bytes⟩ = .error .undefined ∧
    (padded 9).unsigned = 1 ∧ (padded 9).signed = 1 ∧
    dioReadU8LEB128 ⟨0,(padded 9).bytes⟩ = .error .undefined ∧ dioReadS8LEB128 ⟨0,(padded 9).bytes⟩ = .error .undefined := by
  decide +kernel

end Tcf.Dwarf
