import Mathlib.Data.List.Induction
import Tcf.JsonBinary

/-! IDs of registers: how they are written, and how they are read. -/
namespace Tcf.RegisterIds

open Json (decimal Digit)

abbrev Text := List UInt8

def letterR : UInt8 := 0x52
def atSign : UInt8 := 0x40
def dot : UInt8 := 0x2e
def minus : UInt8 := 0x2d

def ERR_ALREADY_EXITED : Nat := 0x20000 + 11
def ERR_INV_CONTEXT : Nat := 0x20000 + 16

def STACK_TOP_FRAME : Int32 := -2

/-- Contexts, in the order in which they are looked up, and how many register definitions each has. An ID has room for 256
characters with a zero behind it. -/
structure Target (κ : Type) where
  contexts : List κ
  id : κ → Text
  exited : κ → Bool
  regCount : κ → Nat
  id_length : ∀ ctx, (id ctx).length < 256

/-- `undefined` is an overflow of an `int`. -/
inductive Stop where
  | error (err : Nat)
  | undefined
  deriving DecidableEq, Repr

/-- `%d` -/
def intText (n : Int32) : Text := if n.toInt < 0 then minus :: decimal n.toInt.natAbs else decimal n.toInt.natAbs

def isDigit (ch : UInt8) : Bool := 0x30 ≤ ch && ch ≤ 0x39

/-- The loops that read a number up to one of some characters. -/
def readNumber (ends : List UInt8) : Nat → Text → Except Stop (Nat × Text)
  | _, [] => .error (.error ERR_INV_CONTEXT)
  | n, ch :: text =>
    if ch ∈ ends then .ok (n,ch :: text)
    else if isDigit ch then
      let next := n * 10 + (ch.toNat - 0x30)
      if next < 2 ^ 31 then readNumber ends next text else .error .undefined
    else .error (.error ERR_INV_CONTEXT)

section Commands

variable {κ : Type} (t : Target κ)

def Target.id2ctx (id : Text) : Option κ := t.contexts.find? fun ctx => t.id ctx = id

/-- A register definition is given by its index. -/
def Target.register2id (ctx : κ) (frame : Int32) (reg : Nat) : Text :=
  (letterR :: (intText (Int32.ofNat reg) ++ (if frame.toInt < 0 then [] else atSign :: intText frame) ++ dot :: t.id ctx)).take 255

def readFrame (text : Text) : Except Stop (Int32 × Text) :=
  if text.head? = some atSign then
    match readNumber [dot] 0 text.tail with
    | .error stop => .error stop
    | .ok (n,text) => .ok (Int32.ofNat n,text)
  else .ok (STACK_TOP_FRAME,text)

def Target.findRegister (reg : Nat) (frame : Int32) (id : Text) : Except Stop (κ × Int32 × Nat) :=
  match t.id2ctx id with
  | none => .error (.error ERR_INV_CONTEXT)
  | some ctx => if t.exited ctx then .error (.error ERR_ALREADY_EXITED) else .ok (ctx,frame,reg)

def Target.id2register (id : Text) : Except Stop (κ × Int32 × Nat) :=
  if id.head? ≠ some letterR then .error (.error ERR_INV_CONTEXT)
  else
    match readNumber [dot,atSign] 0 id.tail with
    | .error stop => .error stop
    | .ok (reg,text) =>
      match readFrame text with
      | .error stop => .error stop
      | .ok (frame,text) => t.findRegister reg frame text.tail

end Commands

section Numbers

/-- The number that digits stand for. -/
def number (n : Nat) (ds : Text) : Nat := ds.foldl (fun n ch => n * 10 + (ch.toNat - 0x30)) n

/-- A number without zeros in front. -/
def Plain (ds : Text) : Prop := ds ≠ [] ∧ (ds.head? = some 0x30 → ds = [0x30])

theorem isDigit_iff {ch : UInt8} : isDigit ch = true ↔ Digit ch := by
  simp [isDigit,Digit,UInt8.le_iff_toNat_le]

theorem number_le (n : Nat) (ds : Text) : n ≤ number n ds := by
  induction ds generalizing n with
  | nil => exact Nat.le_refl n
  | cons ch ds ih =>
    have := ih (n * 10 + (ch.toNat - 0x30))
    simp only [number,List.foldl_cons] at this ⊢
    omega

/-- A number is read up to the first character that is not a digit. -/
theorem readNumber_eq {ends : List UInt8} (apart : ∀ ch ∈ ends, isDigit ch = false) (text : Text) {n : Nat} (small : n < 2 ^ 31) :
    readNumber ends n text =
      if number n (text.takeWhile isDigit) < 2 ^ 31 then
        if ∃ ch ∈ ends, (text.dropWhile isDigit).head? = some ch then .ok (number n (text.takeWhile isDigit),text.dropWhile isDigit)
        else .error (.error ERR_INV_CONTEXT)
      else .error .undefined := by
  induction text generalizing n with
  | nil => simpa [readNumber,number] using small
  | cons ch text ih =>
    by_cases digit : isDigit ch = true
    · have behind : ch ∉ ends := fun member => by simp [apart ch member] at digit
      rw [readNumber,if_neg behind,if_pos digit,List.takeWhile_cons_of_pos digit,List.dropWhile_cons_of_pos digit]
      dsimp only
      have grows := number_le (n * 10 + (ch.toNat - 0x30)) (text.takeWhile isDigit)
      by_cases fits : n * 10 + (ch.toNat - 0x30) < 2 ^ 31
      · rw [if_pos fits,ih fits]
        rfl
      · have large : ¬number n (ch :: text.takeWhile isDigit) < 2 ^ 31 := fun less => fits (Nat.lt_of_le_of_lt grows less)
        rw [if_neg fits,if_neg large]
    · have out : ¬isDigit ch = true := digit
      rw [List.takeWhile_cons_of_neg out,List.dropWhile_cons_of_neg out,readNumber,if_neg out]
      have start : number n [] < 2 ^ 31 := small
      rw [if_pos start]
      by_cases member : ch ∈ ends
      · rw [if_pos member,if_pos ⟨ch,member,rfl⟩]
        rfl
      · have none_ : ¬∃ x ∈ ends, (ch :: text).head? = some x := by
          rintro ⟨x,there,same⟩
          obtain rfl := Option.some.inj same
          exact member there
        rw [if_neg member,if_neg none_]

theorem number_append (n : Nat) (ds : Text) (ch : UInt8) : number n (ds ++ [ch]) = number n ds * 10 + (ch.toNat - 0x30) := by
  simp [number]

theorem number_decimal (n : Nat) : number 0 (decimal n) = n := by
  induction n using Nat.strongRecOn with
  | ind n ih =>
    unfold decimal
    by_cases more : n ≥ 10
    · have last := (@Json.digit_ofNat (n % 10) (by omega)).2
      rw [if_pos more,number_append,ih (n / 10) (by omega),last]
      omega
    · have last := (@Json.digit_ofNat n (by omega)).2
      rw [if_neg more]
      simp only [number,List.foldl_cons,List.foldl_nil,last]
      omega

theorem decimal_isDigit (n : Nat) : ∀ ch ∈ decimal n, isDigit ch = true :=
  fun ch member => isDigit_iff.mpr ((Json.decimal_digits n).1 ch member)

theorem decimal_plain (n : Nat) : Plain (decimal n) := by
  refine ⟨(Json.decimal_digits n).2,fun zero => ?_⟩
  have none : n = 0 := by
    induction n using Nat.strongRecOn with
    | ind n ih =>
      unfold decimal at zero
      by_cases more : n ≥ 10
      · rw [if_pos more,List.head?_append_of_ne_nil _ (Json.decimal_digits _).2] at zero
        have := ih (n / 10) (by omega) zero
        omega
      · rw [if_neg more] at zero
        have same := congrArg UInt8.toNat (Option.some.inj zero)
        rw [UInt8.toNat_ofNat',Nat.mod_eq_of_lt (by omega)] at same
        have value : (0x30 : UInt8).toNat = 48 := rfl
        omega
  subst none
  simp [decimal]

/-- Plain digits are those of their number. -/
theorem decimal_number {ds : Text} (digits : ∀ ch ∈ ds, isDigit ch = true) (plain : Plain ds) : decimal (number 0 ds) = ds := by
  induction ds using List.reverseRecOn with
  | nil => exact absurd rfl plain.1
  | append_singleton ds ch ih =>
    have last : Digit ch := isDigit_iff.mp (digits ch (List.mem_append_right _ List.mem_cons_self))
    have low := last.1
    have high := last.2
    have digit : UInt8.ofNat (ch.toNat - 0x30 + 0x30) = ch := by
      rw [Nat.sub_add_cancel low,UInt8.ofNat_toNat]
    by_cases empty : ds = []
    · subst empty
      have less : ¬number 0 ([] ++ [ch]) ≥ 10 := by
        simp only [List.nil_append,number,List.foldl_cons,List.foldl_nil]
        omega
      unfold decimal
      rw [if_neg less]
      simp only [List.nil_append,number,List.foldl_cons,List.foldl_nil,Nat.zero_mul,Nat.zero_add,digit]
    · have nonzero : ds.head? ≠ some 0x30 := by
        intro zero
        have whole := plain.2 (by rw [List.head?_append_of_ne_nil _ empty]; exact zero)
        have length := congrArg List.length whole
        rw [List.length_append] at length
        have := List.length_pos_of_ne_nil empty
        simp only [List.length_singleton] at length
        omega
      have others := ih (fun x member => digits x (List.mem_append_left _ member)) ⟨empty,fun zero => absurd zero nonzero⟩
      have positive : 0 < number 0 ds := by
        obtain ⟨first,rest,rfl⟩ := List.exists_cons_of_ne_nil empty
        have start : Digit first := isDigit_iff.mp (digits first (by simp))
        have grows := number_le (0 * 10 + (first.toNat - 0x30)) rest
        have above : first.toNat ≠ 0x30 := by
          intro value
          have same : first = 0x30 := UInt8.toNat_inj.mp value
          exact nonzero (by rw [same]; rfl)
        have := start.1
        change 0 < number (0 * 10 + (first.toNat - 0x30)) rest
        omega
      rw [number_append]
      have more : number 0 ds * 10 + (ch.toNat - 0x30) ≥ 10 := by omega
      have front : (number 0 ds * 10 + (ch.toNat - 0x30)) / 10 = number 0 ds := by omega
      have behind : (number 0 ds * 10 + (ch.toNat - 0x30)) % 10 = ch.toNat - 0x30 := by omega
      rw [decimal,if_pos more,front,behind,digit,others]

end Numbers

end Tcf.RegisterIds
