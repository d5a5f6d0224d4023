import Tcf.ExpressionLexer

/-! Integer literals: the types that `primary_expression` tries, and when they are those of C. -/
namespace Tcf.Expressions

open Json

section PrimaryExpression

/-- Types that are found by their names. -/
inductive StdType where
  | int
  | unsignedInt
  | longInt
  | longUnsignedInt
  | char
  | wcharT
  deriving DecidableEq, Repr

/-- The types that a target has, by their sizes and classes. -/
abbrev StdTypes := StdType → Option (Nat × TypeClass)

/-- `get_std_type`; without a class any class will do. -/
def getStdType (std : StdTypes) (t : StdType) (typeClass : Option TypeClass) : Option (Nat × TypeClass) :=
  (std t).filter fun found => found.1 ≠ 0 ∧ typeClass.all (· = found.2)

/-- `(uint64_t)1 << bits` -/
def shiftedOne (bits : Nat) : Code Nat := if bits < 64 then .ok (2 ^ bits) else .error .fault

/-- `type` and `type_class` of the value, and the variable `size`. -/
structure Typing where
  type : Option StdType
  typeClass : TypeClass
  size : Nat
  deriving DecidableEq, Repr

/-- One type: it is taken when the number is at most its greatest one. -/
def tryType (std : StdTypes) (t : StdType) (typeClass : TypeClass) (n : Nat) (v : Typing) : Code Typing :=
  match getStdType std t (some typeClass) with
  | none => .ok v
  | some found => do
    let bound ← shiftedOne (if typeClass = .integer then found.1 * 8 - 1 else found.1 * 8)
    pure (if n ≤ bound - 1 then ⟨some t,typeClass,found.1⟩ else { v with size := found.1 })

def charTyping (std : StdTypes) (flags : Flags) (n : Nat) (v : Typing) : Code Typing :=
  let t := if flags.l then .wcharT else .char
  match getStdType std t none with
  | none => .ok v
  | some found => do
    let bound ← shiftedOne (found.1 * 8 - 1)
    pure (if n ≤ bound - 1 then ⟨some t,found.2,found.1⟩ else { v with size := found.1 })

def literalTyping (std : StdTypes) (flags : Flags) (n : Nat) (v : Typing) : Code Typing := do
  let v ← if ¬flags.l ∧ ¬flags.u then tryType std .int .integer n v else pure v
  let v ← if v.type = none ∧ ¬flags.l ∧ (flags.x ∨ flags.u) then tryType std .unsignedInt .cardinal n v else pure v
  let v ← if v.type = none ∧ ¬flags.u then tryType std .longInt .integer n v else pure v
  if v.type = none then tryType std .longUnsignedInt .cardinal n v else pure v

/-- `to_uns` of a constant -/
def toUns (typeClass : TypeClass) (size n : Nat) : Nat :=
  if typeClass = .integer ∧ 2 ^ (8 * size - 1) ≤ n then 2 ^ 64 - 2 ^ (8 * size) + n else n

structure Typed where
  type : Option StdType
  typeClass : TypeClass
  value : Stored
  deriving DecidableEq, Repr

/-- `primary_expression` for a number or a character -/
def primaryNumber (std : StdTypes) (flags : Flags) (typeClass : TypeClass) (size stored : Nat) : Code Typed := do
  let n := toUns typeClass size stored
  let start : Typing := ⟨none,typeClass,0⟩
  let v ← if flags.c then charTyping std flags n start else literalTyping std flags n start
  let value ← if v.type ≠ none ∧ v.size ≠ size then setIntValue v.size n else pure (.number size stored)
  pure ⟨v.type,v.typeClass,value⟩

/-- An expression that begins with a number. The symbol behind it is read by the next call of `next_sy`. -/
def primaryExpression (std : StdTypes) (fuel : Nat) (text : Text) : Code (Typed × Text) := do
  let (token,text) ← nextSy fuel text
  match token.val with
  | some ⟨typeClass,.number size stored⟩ => do
    let typed ← primaryNumber std token.flags typeClass size stored
    pure (typed,text)
  | _ => .error .exception

end PrimaryExpression

section Rules

inductive Base where
  | decimal
  | octal
  | hex (capital : Bool)
  deriving DecidableEq, Repr

/-- An integer literal of C. The digits of an octal one are those behind its first 0. -/
structure Literal where
  base : Base
  digits : Text
  suffix : Text
  decimal : base = .decimal → ∃ first others, digits = first :: others ∧ first ≠ byte '0' ∧ ∀ ch ∈ digits, isDigit ch
  octal : base = .octal → ∀ ch ∈ digits, isOctal ch
  hex : ∀ capital, base = .hex capital → digits ≠ [] ∧ ∀ ch ∈ digits, isHex ch
  suffixes : ∀ ch ∈ suffix, isL ch ∨ isU ch

def Base.number : Base → Nat
  | .decimal => 10
  | .octal => 8
  | .hex _ => 16

def Base.mark : Base → Text
  | .decimal => []
  | .octal => [byte '0']
  | .hex capital => [byte '0',if capital then byte 'X' else byte 'x']

namespace Literal

variable (lit : Literal)

def text : Text := lit.base.mark ++ (lit.digits ++ lit.suffix)

def value : Nat := lit.digits.foldl (fun value ch => value * lit.base.number + hexValue ch) 0

def isLong : Bool := lit.suffix.any isL

def isUnsigned : Bool := lit.suffix.any isU

/-- The list of types for the base and the suffix. -/
def candidates : List StdType :=
  if lit.isUnsigned then if lit.isLong then [.longUnsignedInt] else [.unsignedInt,.longUnsignedInt]
  else if lit.isLong then [.longInt,.longUnsignedInt]
  else if lit.base = .decimal then [.int,.longInt,.longUnsignedInt]
  else [.int,.unsignedInt,.longInt,.longUnsignedInt]

end Literal

def StdType.isSigned : StdType → Bool
  | .int | .longInt => true
  | _ => false

def StdType.typeClass (t : StdType) : TypeClass := if t.isSigned then .integer else .cardinal

/-- A target with types of 1 to 8 bytes. -/
structure Target where
  size : StdType → Nat
  sized : ∀ t, 1 ≤ size t ∧ size t ≤ 8

namespace Target

variable (target : Target)

def std : StdTypes := fun t => some (target.size t,t.typeClass)

/-- The type can represent the number. -/
def fits (n : Nat) (t : StdType) : Bool := if t.isSigned then n < 2 ^ (8 * target.size t - 1) else n < 2 ^ (8 * target.size t)

/-- The types up to the first one that can represent the number. -/
def tried (n : Nat) : List StdType → List StdType
  | [] => []
  | t :: ts => if target.fits n t then [t] else t :: tried n ts

/-- An unsigned type of 64 bits. -/
def Wide (t : StdType) : Prop := t.isSigned = false ∧ target.size t = 8

/-- The literal gets the first type that can represent its value, keeps the value, and all of it is read. -/
def Follows (lit : Literal) (fuel : Nat) (rest : Text) : Prop :=
  ∃ typed, primaryExpression target.std fuel (lit.text ++ rest) = .ok (typed,rest) ∧
    typed.type = lit.candidates.find? (target.fits lit.value) ∧
    (∃ size, typed.value = .number size lit.value ∧ ∀ t, typed.type = some t → size = target.size t ∧ typed.typeClass = t.typeClass)

end Target

/-- Nothing behind a literal goes on with it. -/
def Delimited (rest : Text) : Prop := ∀ ch ∈ rest.head?, isNameCharacter ch = false ∧ ch ≠ byte '.'

end Rules

end Tcf.Expressions
