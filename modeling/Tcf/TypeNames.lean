import Tcf.ExpressionLexer

/-! `type_name` and `type_expression`. Symbols are those that `next_sy` gives, the first one being `text_sy`. -/
namespace Tcf.Expressions

open Json

/-- What `error` raises. -/
inductive Raised where
  | invExpression (message : String)
  | bufferOverflow (message : String)
  | symbolError
  | stuck
  deriving DecidableEq, Repr

abbrev Parsed (α : Type) := Except Raised α

namespace Parsed

variable {α β : Type}

@[simp] theorem ok_bind (a : α) (next : α → Parsed β) : ((Except.ok a : Parsed α) >>= next) = next a := rfl

@[simp] theorem error_bind (raised : Raised) (next : α → Parsed β) : ((Except.error raised : Parsed α) >>= next) = .error raised := rfl

@[simp] theorem pure_eq (a : α) : (pure a : Parsed α) = .ok a := rfl

end Parsed

inductive Mode where
  | normal
  | type
  | skip
  deriving DecidableEq, Repr

abbrev Symbols := List Token

/-- `text_sy` -/
def textSy (symbols : Symbols) : Sy := (symbols.head?.map Token.sy).getD .none

def textChar (ch : Char) : Sy := .char (byte ch)

inductive TypeFlag where
  | constType
  | volatileType
  | structType
  | classType
  | unionType
  | enumType
  deriving DecidableEq, Repr

inductive SymClass where
  | type
  | other
  deriving DecidableEq, Repr

/-- A type: a symbol that was found, or one made by `get_array_symbol`. -/
inductive TypeSymbol (T : Type) where
  | found (type : T)
  | array (base : TypeSymbol T) (length : Nat)
  deriving DecidableEq, Repr

/-- A length of type `ContextAddress`, made from an `int`. -/
def getArraySymbol {T : Type} (base : TypeSymbol T) (length : Int) : TypeSymbol T := .array base (length % 2 ^ 64).toNat

/-- What type names need from outside: symbols, and the numbers of real values, which tokens leave out. -/
structure Environment (T V : Type) where
  identifier : Mode → List TypeFlag → List Nat → Parsed (Option (SymClass × V))
  idValue : Mode → List Nat → Parsed (Option (SymClass × V))
  qualifiedName : Mode → V → List TypeFlag → Symbols → Parsed (SymClass × V × Symbols)
  typeOf : V → T
  realInt : Stored → Int
  realUns : Stored → Nat

section TypeExpression

def typeExprLength : Nat := 64

def signed (size n : Nat) : Int := Int.bmod n (2 ^ (8 * size))

variable {T V : Type} (env : Environment T V)

/-- `to_int` of a constant -/
def toInt (mode : Mode) (val : TextVal) : Parsed Int :=
  if mode ≠ .normal then .ok 0
  else
    match val.typeClass, val.value with
    | .integer, .number size n => .ok (signed size n)
    | .cardinal, .number _ n => .ok (signed 8 n)
    | .real, value => .ok (env.realInt value)
    | _, _ => .error (.invExpression "Operation is not applicable for the value type")

/-- `buf[pos++] = item` -/
def push (buf : List Int) (item : Int) : Parsed (List Int) :=
  if typeExprLength ≤ buf.length then .error (.bufferOverflow "Type expression is too long") else .ok (buf ++ [item])

def pushAll (buf : List Int) : List Int → Parsed (List Int)
  | [] => .ok buf
  | item :: items => do pushAll (← push buf item) items

def readPointers (buf : List Int) : Symbols → Parsed (List Int × Symbols)
  | [] => .ok (buf,[])
  | token :: symbols => if token.sy = textChar '*' then do readPointers (← push buf 1) symbols else .ok (buf,token :: symbols)

/-- What `arr_buf` gets for a number. -/
def readLength (mode : Mode) (arrBuf : List Int) (number : Token) : Parsed (List Int) :=
  match number.sy, number.val with
  | .val, some val =>
    if typeExprLength ≤ arrBuf.length then .error (.bufferOverflow "Type expression is too long")
    else do
      let length := Int.bmod (← toInt env mode val) (2 ^ 32)
      if mode = .normal ∧ length < 1 then .error (.invExpression "Positive number expected") else pure (arrBuf ++ [length])
  | _, _ => .error (.invExpression "Number expected")

def readLengths (mode : Mode) (arrBuf : List Int) : Symbols → Parsed (List Int × Symbols)
  | [] => .ok (arrBuf,[])
  | token :: symbols =>
    if token.sy = textChar '[' then
      match symbols with
      | [] => .error (.invExpression "Number expected")
      | [number] => do
        let _ ← readLength env mode arrBuf number
        .error (.invExpression "']' expected")
      | number :: close :: symbols => do
        let arrBuf ← readLength env mode arrBuf number
        if close.sy = textChar ']' then readLengths mode arrBuf symbols else .error (.invExpression "']' expected")
    else .ok (arrBuf,token :: symbols)

/-- `type_expression`. The fuel bounds its recursion, which takes a symbol at each level. -/
def typeExpression (mode : Mode) : Nat → Symbols → Parsed (List Int × Symbols)
  | 0, _ => .error .stuck
  | fuel+1, symbols => do
    let (buf,symbols) ← readPointers [] symbols
    let (exprBuf,symbols) ←
      if textSy symbols = textChar '(' then do
        let (exprBuf,symbols) ← typeExpression mode fuel symbols.tail
        if textSy symbols = textChar ')' then pure (exprBuf,symbols.tail) else .error (.invExpression "')' expected")
      else pure ([],symbols)
    let (arrBuf,symbols) ← readLengths env mode [] symbols
    let buf ← pushAll buf arrBuf.reverse
    let buf ← pushAll buf exprBuf
    pure (buf,symbols)

/-- The loop over `expr_buf` in `type_name`. -/
def applyExpression (type : TypeSymbol T) : List Int → TypeSymbol T
  | [] => type
  | item :: items => applyExpression (getArraySymbol type (if item = 1 then 0 else item)) items

end TypeExpression

section TypeName

variable {T V : Type} (env : Environment T V)

def chars (text : String) : List Nat := (literal text).map UInt8.toNat

/-- The string of a token, up to its first NUL. -/
def nameOf (token : Token) : List Nat :=
  match token.val with
  | some ⟨_,.chars _ chars⟩ => chars.takeWhile (· ≠ 0)
  | _ => []

def readQualifiers : Symbols → List TypeFlag × Symbols
  | [] => ([],[])
  | token :: symbols =>
    if token.sy = .name ∧ nameOf token = chars "const" then
      let read := readQualifiers symbols
      (.constType :: read.1,read.2)
    else if token.sy = .name ∧ nameOf token = chars "volatile" then
      let read := readQualifiers symbols
      (.volatileType :: read.1,read.2)
    else ([],token :: symbols)

def kinds : List (List Nat × TypeFlag) :=
  [(chars "struct",.structType),(chars "class",.classType),(chars "union",.unionType),(chars "enum",.enumType)]

def readKind : Symbols → List TypeFlag × Symbols
  | [] => ([],[])
  | token :: symbols =>
    if token.sy = .name then
      match kinds.lookup (nameOf token) with
      | some flag => ([flag],symbols)
      | none => ([],token :: symbols)
    else ([],token :: symbols)

/-- Names in a row become one name. -/
def readNames (name : List Nat) : Symbols → List Nat × Symbols
  | [] => (name,[])
  | token :: symbols => if token.sy = .name then readNames (name ++ chars " " ++ nameOf token) symbols else (name,token :: symbols)

/-- `value_to_unsigned`; after an error the variable keeps its value. -/
def valueToUnsigned (old : Nat) (val : Option TextVal) : Nat :=
  match val with
  | some ⟨.integer,.number size n⟩ => (signed size n % 2 ^ 64).toNat
  | some ⟨.cardinal,.number _ n⟩ => n
  | some ⟨.real,value⟩ => env.realUns value
  | _ => old

/-- What a symbol between angle brackets adds to the name. -/
def templatePiece (prev : Sy) (val : Nat) (token : Token) : Option (List Nat) :=
  match token.sy with
  | .name => some ((if prev = .name ∨ prev = textChar '*' ∨ prev = textChar '&' then chars " " else []) ++ nameOf token)
  | .scope => some (chars "::")
  | .val => some ((Nat.toDigits 10 val).map Char.toNat)
  | .char ch =>
    if ch ∈ literal "*&[](){}<" then some [ch.toNat]
    else if ch = byte ',' then some (chars ", ")
    else if ch = byte '>' then some ((if prev = textChar '>' then chars " " else []) ++ [ch.toNat])
    else none
  | _ => none

/-- The loop over template arguments; without a name the symbols are not a type. -/
def readTemplate (prev : Sy) (cnt val : Nat) (name : List Nat) : Symbols → Option (List Nat × Symbols)
  | [] => none
  | token :: symbols =>
    let val := if token.sy = .val then valueToUnsigned env val token.val else val
    match templatePiece prev val token with
    | none => none
    | some piece =>
      let cnt := if token.sy = textChar '<' then cnt + 1 else if token.sy = textChar '>' then cnt - 1 else cnt
      if 0 < cnt then readTemplate token.sy cnt val (name ++ piece) symbols else some (name ++ piece,symbols)

/-- The symbol that a name or an ID stands for, and the name. -/
def readBase (mode : Mode) (flags : List TypeFlag) (symbols : Symbols) : Parsed (Option (List Nat × SymClass × V × Symbols)) :=
  match symbols with
  | [] => if flags ≠ [] then .error (.invExpression "Identifier expected") else .ok none
  | token :: symbols =>
    if token.sy = .name then
      let named := readNames (nameOf token) symbols
      match if textSy named.2 = textChar '<' then readTemplate env .none 0 0 named.1 named.2 else some named with
      | none => .ok none
      | some (name,symbols) => do
        let found ← env.identifier mode flags name
        pure (found.map fun value => (name,value.1,value.2,symbols))
    else if token.sy = .id then do
      let found ← env.idValue mode (nameOf token)
      pure (found.map fun value => (nameOf token,value.1,value.2,symbols))
    else if flags ≠ [] then .error (.invExpression "Identifier expected")
    else .ok none

/-- What comes before the type expression: the type that the declarator is applied to. -/
def readType (mode : Mode) (symbols : Symbols) : Parsed (Option (T × Symbols)) := do
  let qualifiers := readQualifiers symbols
  let kind := readKind qualifiers.2
  let flags := qualifiers.1 ++ kind.1
  match ← readBase env mode flags kind.2 with
  | none => pure none
  | some (name,symClass,value,symbols) => do
    let (symClass,value,symbols) ←
      if textSy symbols = .scope then env.qualifiedName mode value flags symbols.tail else pure (symClass,value,symbols)
    if symClass = .type then pure (some (env.typeOf value,symbols))
    else if flags ≠ [] then .error (.invExpression ("Type '" ++ String.ofList (name.map Char.ofNat) ++ "' not found"))
    else pure none

/-- `type_name` -/
def typeName (mode : Mode) (symbols : Symbols) : Parsed (Option (TypeSymbol T) × Symbols) := do
  match ← readType env mode symbols with
  | none => pure (none,symbols)
  | some (type,symbols) => do
    let (exprBuf,symbols) ← typeExpression env mode (symbols.length + 1) symbols
    pure (some (if mode = .skip then .found type else applyExpression (.found type) exprBuf),symbols)

end TypeName

end Tcf.Expressions
