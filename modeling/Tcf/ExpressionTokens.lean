import Tcf.ExpressionLexer

/-! The tokens of expressions as a grammar, and what it means that the lexer follows it. -/
namespace Tcf.Expressions

open Json

section Grammar

/-- What is written for one character of a literal. -/
inductive CharText : Text → Nat → Prop where
  | plain (ch : UInt8) (other : ch ≠ byte '\\') : CharText [ch] ch.toNat
  | hex (a b c : UInt8) (digits : isHex a ∧ isHex b ∧ isHex c) :
    CharText [byte '\\',byte 'x',a,b,c] ((hexValue a * 16 + hexValue b) * 16 + hexValue c)
  | octal (a b c : UInt8) (first : byte '0' ≤ a ∧ a ≤ byte '3') (digits : isOctal b ∧ isOctal c) :
    CharText [byte '\\',a,b,c] ((hexValue a * 8 + hexValue b) * 8 + hexValue c)
  | escape (ch : UInt8) (not_hex : ch ≠ byte 'x') (not_octal : ¬(byte '0' ≤ ch ∧ ch ≤ byte '3')) : CharText [byte '\\',ch] (escaped ch)

/-- What is written between double quotes. -/
inductive Quoted : Text → List Nat → Prop where
  | nil : Quoted [] []
  | cons {w ws : Text} {c : Nat} {cs : List Nat} (head : CharText w c) (inside : w ≠ [byte '"']) (tail : Quoted ws cs) : Quoted (w ++ ws) (c :: cs)

inductive IntegerText : Text → Nat → Prop where
  | decimal (first : UInt8) (digits suffix : Text) (start : isDigit first ∧ first ≠ byte '0') (all : ∀ ch ∈ digits, isDigit ch)
    (ends : ∀ ch ∈ suffix, isL ch ∨ isU ch) : IntegerText (first :: (digits ++ suffix)) (digitsValue 10 (hexValue first) digits)
  | octal (digits suffix : Text) (all : ∀ ch ∈ digits, isOctal ch) (ends : ∀ ch ∈ suffix, isL ch ∨ isU ch) :
    IntegerText (byte '0' :: (digits ++ suffix)) (digitsValue 8 0 digits)
  | hex (digits suffix : Text) (all : ∀ ch ∈ digits, isHex ch) (ends : ∀ ch ∈ suffix, isL ch ∨ isU ch) :
    IntegerText (byte '0' :: byte 'x' :: (digits ++ suffix)) (digitsValue 16 0 digits)

def FractionText (text : Text) : Prop := text = [] ∨ ∃ digits, text = byte '.' :: digits ∧ ∀ ch ∈ digits, isDigit ch

def isE (ch : UInt8) : Bool := ch = byte 'E' ∨ ch = byte 'e'

def isSign (ch : UInt8) : Bool := ch = byte '-' ∨ ch = byte '+'

def isF (ch : UInt8) : Bool := ch = byte 'f' ∨ ch = byte 'F'

def ExponentText (text : Text) : Prop :=
  text = [] ∨ ∃ e sign digits, text = e :: (sign ++ digits) ∧ isE e ∧ (sign = [] ∨ ∃ ch, sign = [ch] ∧ isSign ch) ∧ ∀ ch ∈ digits, isDigit ch

/-- A real number has a fraction, an exponent or the suffix F. One that begins with 0 has no more digits before these. -/
inductive RealText : Text → Prop where
  | mk (first : UInt8) (digits fraction exponent suffix : Text) (start : isDigit first) (all : ∀ ch ∈ digits, isDigit ch)
    (zero : first = byte '0' → digits = []) (part : FractionText fraction) (power : ExponentText exponent)
    (ends : suffix = [] ∨ ∃ ch, suffix = [ch] ∧ (isF ch ∨ isL ch)) (real : fraction ≠ [] ∨ exponent ≠ [] ∨ ∃ ch ∈ suffix, isF ch) :
    RealText (first :: (digits ++ (fraction ++ (exponent ++ suffix))))

/-- Operators of more than one character. -/
def compounds : List (Text × Sy) :=
  [(literal ".*",.pmD),(literal "::",.scope),(literal "->",.ref),(literal "->*",.pmR),(literal "--",.dec),(literal "-=",.aSub),
    (literal "++",.inc),(literal "+=",.aAdd),(literal "<<",.shl),(literal "<<=",.aShl),(literal "<=",.leq),(literal ">>",.shr),
    (literal ">>=",.aShr),(literal ">=",.geq),(literal "==",.equ),(literal "!=",.neq),(literal "&&",.and),(literal "&=",.aAnd),
    (literal "||",.or),(literal "|=",.aOr),(literal "*=",.aMul),(literal "/=",.aDiv),(literal "%=",.aMod),(literal "^=",.aXor)]

def single (ch : UInt8) : Text × Sy := ([ch],.char ch)

/-- Brackets and operators. -/
def symbols : List (Text × Sy) := (brackets.map single ++ operators.map single) ++ compounds

def wide (l : Bool) : Text := if l then [byte 'L'] else []

/-- The token set: what is written, and the token. -/
inductive Lexeme : Text → Token → Prop where
  | symbol (entry : Text × Sy) (listed : entry ∈ symbols) : Lexeme entry.1 ⟨entry.2,none,noFlags⟩
  | char (l : Bool) (w : Text) (c : Nat) (one : CharText w c) (typeClass : TypeClass) (size : Nat) :
    Lexeme (wide l ++ byte '\'' :: (w ++ [byte '\''])) ⟨.val,some ⟨typeClass,.number size c⟩,{ noFlags with l := l, c := true }⟩
  | string (l : Bool) (w : Text) (cs : List Nat) (quoted : Quoted w cs) :
    Lexeme (wide l ++ byte '"' :: (w ++ [byte '"'])) ⟨.val,some ⟨.array,.chars (if l then 4 else 1) cs⟩,{ noFlags with l := l, s := true }⟩
  | quotedName (w : Text) (cs : List Nat) (quoted : Quoted w cs) :
    Lexeme (byte '$' :: byte '"' :: (w ++ [byte '"'])) ⟨.name,some ⟨.array,.chars 1 cs⟩,noFlags⟩
  | id (w : Text) (inside : byte '}' ∉ w) :
    Lexeme (byte '$' :: byte '{' :: (w ++ [byte '}'])) ⟨.id,some ⟨.array,.chars 1 (w.map UInt8.toNat)⟩,noFlags⟩
  | name (w : Text) (nonempty : w ≠ []) (start : ∀ ch ∈ w.head?, isDigit ch = false) (all : ∀ ch ∈ w, isNameCharacter ch) :
    Lexeme w ⟨if w = literal "sizeof" then .sizeof else .name,some ⟨.array,.chars 1 (w.map UInt8.toNat)⟩,noFlags⟩
  | integer (w : Text) (n : Nat) (number : IntegerText w n) (typeClass : TypeClass) (size : Nat) (flags : Flags) :
    Lexeme w ⟨.val,some ⟨typeClass,.number size n⟩,flags⟩
  | real (w : Text) (number : RealText w) (size : Nat) (flags : Flags) : Lexeme w ⟨.val,some ⟨.real,.real size⟩,flags⟩

end Grammar

section Runs

/-- A call of `next_sy`. The loops that look for the end of a string or an ID take at most one step for each character. -/
def next (text : Text) : Code (Token × Text) := nextSy (text.length + 1) text

/-- No token is there, but for the name `L` or `$` before a quote. -/
def Refused (text : Text) : Prop := ∀ w token, Lexeme w token → w <+: text → w = literal "L" ∨ w = literal "$"

/-- The token is the longest one at the beginning of the text, behind spaces. -/
def Longest (text : Text) (token : Token) (rest : Text) : Prop :=
  ∃ w, text = w ++ rest ∧ Lexeme w token ∧ ∀ other token, Lexeme other token → other <+: text → other.length ≤ w.length

/-- What a call may do: raise an exception, come to the end, or read the longest token. -/
def Correct (text : Text) : Prop :=
  (next text = .error .exception ∧ Refused (text.dropWhile isSpace)) ∨
  (next text = .ok (⟨.none,none,noFlags⟩,[]) ∧ text.dropWhile isSpace = []) ∨
  ∃ token rest, next text = .ok (token,rest) ∧ Longest (text.dropWhile isSpace) token rest

/-- Texts that are left before one of the calls. -/
inductive Reaches (text : Text) : Text → Prop where
  | start : Reaches text text
  | step {left rest : Text} {token : Token} (before : Reaches text left) (call : next left = .ok (token,rest)) (more : token.sy ≠ .none) :
    Reaches text rest

/-- Calls up to symbol 0. -/
def lex : Nat → Text → Code (List Token)
  | 0, _ => .error .stuck
  | calls+1, text => do
    let (token,rest) ← next text
    if token.sy = .none then pure [] else do
      let tokens ← lex calls rest
      pure (token :: tokens)

/-- The calls come to an end or to an exception, and each reads the longest token. -/
def FollowsGrammar (text : Text) : Prop :=
  (∃ calls, (∃ tokens, lex calls text = .ok tokens) ∨ lex calls text = .error .exception) ∧ ∀ left, Reaches text left → Correct left

/-- What the lexer does not get wrong: no `/` or `%` before `=` or `|`, a brace behind `${`, and no character of more than a byte in a string of bytes. -/
structure Regular (text : Text) : Prop where
  operators : ∀ op ∈ [byte '/',byte '%'], ∀ ch ∈ [byte '=',byte '|'], ¬[op,ch] <+: text.dropWhile isSpace
  closed : ∀ rest, text.dropWhile isSpace = byte '$' :: byte '{' :: rest → byte '}' ∈ rest
  bytes : ∀ mark ∈ [[byte '"'],[byte '$',byte '"']], ∀ w cs, Quoted w cs → mark ++ (w ++ [byte '"']) <+: text.dropWhile isSpace → ∀ c ∈ cs, c < 256

end Runs

end Tcf.Expressions
