import Mathlib.Data.List.Basic

/-! Names of ELF symbols: their comparison, their hash, and the table of names over a symbol table. -/
namespace Tcf.SymbolNames

section Names

/-- A name without its NUL -/
abbrev Name := List UInt8

def blank : UInt8 := 0x20
def atSign : UInt8 := 0x40

/-- `{`, `(` and `[` -/
def bracket (c : UInt8) : Bool := c = 0x7b ∨ c = 0x28 ∨ c = 0x5b

/-- The next character is a bracket. -/
def opens (s : Name) : Bool := s.head?.any bracket

/-- The next character is another `@`. -/
def doubled (s : Name) : Bool := s.head? = some atSign

/-- A round of the loop over the characters. -/
def hashStep (h : UInt32) (c : UInt8) : UInt32 :=
  let h := (h <<< 4) + c.toUInt32
  let g := h &&& 0xf0000000
  if g ≠ 0 then (h ^^^ (g >>> 24)) &&& ~~~g else h

def hashLoop (h : UInt32) : Name → UInt32
  | [] => h
  | c :: s =>
    if c = atSign ∧ doubled s then h
    else if c = blank ∧ opens s then hashLoop h s
    else hashLoop (hashStep h c) s

/-- `calc_symbol_name_hash` -/
def calcSymbolNameHash (s : Name) : UInt32 := hashLoop 0 s

/-- The comparison of two characters, which are signed. -/
def charOrder (x y : UInt8) : Int :=
  if x.toInt8 < y.toInt8 then -1 else if y.toInt8 < x.toInt8 then 1 else 0

/-- `cmp_symbol_names` -/
def cmpSymbolNames : Name → Name → Int
  | [], [] => 0
  | [], b :: y => if b = atSign ∧ doubled y then 0 else charOrder 0 b
  | a :: x, [] => if a = atSign ∧ doubled x then 0 else charOrder a 0
  | a :: x, b :: y =>
    if a ≠ b then
      if b = blank ∧ bracket a then cmpSymbolNames (a :: x) y
      else if a = blank ∧ bracket b then cmpSymbolNames x (b :: y)
      else charOrder a b
    else cmpSymbolNames x y
termination_by x y => x.length + y.length

/-- `equ_symbol_names` -/
def equSymbolNames (x y : Name) : Bool := x.headD 0 = y.headD 0 ∧ cmpSymbolNames x y = 0

end Names

section Tables

/-- What `create_symbol_names_hash` asks of a symbol. -/
structure SymbolInfo where
  name : Option Name
  undefined : Bool
  file : Bool
  deriving DecidableEq, Repr

/-- `sym_names_hash` and `sym_names_next`; 0 is the end of a chain. -/
structure NamesHash where
  hash : Nat → Nat
  next : Nat → Nat

/-- The bucket of a name -/
def bucket (size : Nat) (name : Name) : Nat := (calcSymbolNameHash name).toNat % size

/-- A symbol that the table gets -/
def SymbolInfo.entered (sym : SymbolInfo) : Option Name := if sym.undefined ∨ sym.file then none else sym.name

def enter (size i : Nat) (sym : SymbolInfo) (tbl : NamesHash) : NamesHash :=
  match sym.entered with
  | some name => ⟨Function.update tbl.hash (bucket size name) i,Function.update tbl.next i (tbl.hash (bucket size name))⟩
  | none => tbl

/-- The loop of `create_symbol_names_hash` from symbol `i` on. -/
def enterFrom (size : Nat) : Nat → List SymbolInfo → NamesHash → NamesHash
  | _, [], tbl => tbl
  | i, sym :: syms, tbl => enterFrom size (i + 1) syms (enter size i sym tbl)

/-- `create_symbol_names_hash` -/
def createSymbolNamesHash (syms : List SymbolInfo) : NamesHash := enterFrom syms.length 0 syms ⟨fun _ => 0,fun _ => 0⟩

/-- The symbols that a search passes from `n` on. -/
def chain (tbl : NamesHash) : Nat → Nat → List Nat
  | 0, _ => []
  | rounds+1, n => if n = 0 then [] else n :: chain tbl rounds (tbl.next n)

/-- The symbols that are compared with a name. -/
def candidates (syms : List SymbolInfo) (name : Name) : List Nat :=
  let tbl := createSymbolNamesHash syms
  chain tbl syms.length (tbl.hash (bucket syms.length name))

/-- The symbols that `find_by_name_in_sym_table` meets under a name, whatever their binding -/
def findByName (syms : List SymbolInfo) (name : Name) : List Nat :=
  (candidates syms name).filter fun n => (syms[n]?.bind SymbolInfo.name).any (equSymbolNames name)

end Tables

end Tcf.SymbolNames
