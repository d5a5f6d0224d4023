import Tcf.Base.Bisection
import Mathlib.Algebra.Order.Ring.Int

/-! Symbols of an ELF file by address: the index of a section, the search in it, and the steps from a symbol to its
neighbours. The machine is not PPC64. -/
namespace Tcf.ElfSymbols

section Files

def sttFunc : Nat := 2
def sttSection : Nat := 3
def sttGnuIfunc : Nat := 10
def sttArmTfunc : Nat := 13

/-- `Elf32_Sym` or `Elf64_Sym` in the byte order of the host -/
structure ElfSym where
  name : Nat
  shndx : Nat
  bind : Nat
  type : Nat
  value : UInt64
  size : UInt64
  other : Nat
  deriving DecidableEq, Repr

/-- `ELF_Section`. `symAt` is the symbol at a byte position of the data, `nameAt` the string; `loadError` is the `errno`
of reading data that is not there yet. -/
structure Section where
  name : Option (List UInt8)
  addr : UInt64
  size : UInt64
  link : Nat
  entsize : Nat
  symCount : Nat
  loaded : Bool
  loadError : Option Nat
  symAt : Nat → ElfSym
  nameAt : Nat → List UInt8

structure ElfFile where
  elf64 : Bool
  arm : Bool
  /-- The type ET_REL -/
  rel : Bool
  sections : List Section

/-- `ELF_SymbolInfo` -/
structure ElfSymbolInfo where
  symSection : Nat
  symIndex : Nat
  sectionIndex : Nat
  «section» : Option Nat
  name : Option (List UInt8)
  bind : Nat
  type : Nat
  value : UInt64
  size : UInt64
  other : Nat
  addrIndex : Nat
  deriving DecidableEq, Repr

inductive Stop where
  /-- An exception with the `errno` of a call -/
  | failed (errno : Nat)
  /-- An exception with `ERR_INV_FORMAT` -/
  | invalid (text : String)
  | assertion
  /-- The behaviour is undefined. -/
  | undefined
  deriving DecidableEq, Repr

abbrev Code := Except Stop

/-- `elf_load` -/
def Section.load (s : Section) : Code Unit :=
  if s.loaded ∨ s.size = 0 then .ok ()
  else
    match s.loadError with
    | none => .ok ()
    | some errno => .error (.failed errno)

def check (holds : Prop) [Decidable holds] (stop : Stop) : Code Unit := if holds then .ok () else .error stop

/-- The name at `st_name` of a symbol -/
def symbolName (file : ElfFile) (tbl : Section) (stName : Nat) : Code (Option (List UInt8)) :=
  if stName = 0 then .ok none
  else do
    check (tbl.link ≠ 0 ∧ tbl.link < file.sections.length) (.invalid "Invalid symbol section")
    match file.sections[tbl.link]? with
    | none => .ok none
    | some str =>
      check (stName < str.size.toNat) (.invalid "Invalid ELF string pool index")
      str.load
      return some (str.nameAt stName)

/-- The section that a symbol is of -/
def ElfFile.sectionOf (file : ElfFile) (shndx : Nat) : Option Nat :=
  if 0 < shndx ∧ shndx < file.sections.length then some shndx else none

/-- A section symbol has the name of its section. -/
def sectionName (file : ElfFile) (s : ElfSym) : Option (List UInt8) := do
  let m ← file.sectionOf s.shndx
  let sec ← file.sections[m]?
  if s.type = sttSection ∧ s.value = sec.addr then sec.name else none

/-- ARM functions are marked by the lowest bit of their value. -/
def ElfFile.function (file : ElfFile) (type : Nat) : Bool := file.arm ∧ (type = sttFunc ∨ type = sttArmTfunc)

/-- `unpack_elf_symbol_info` -/
def unpackElfSymbolInfo (file : ElfFile) (m index : Nat) (tbl : Section) : Code ElfSymbolInfo := do
  check (tbl.entsize ≠ 0) .undefined
  check (index < tbl.size.toNat / tbl.entsize) (.invalid "Invalid ELF symbol index")
  tbl.load
  let s := tbl.symAt (tbl.entsize * index)
  let name ← symbolName file tbl s.name
  return {
    symSection := m
    symIndex := index
    sectionIndex := s.shndx
    «section» := file.sectionOf s.shndx
    name := name <|> sectionName file s
    bind := s.bind
    type := if file.function s.type then sttFunc else s.type
    value := if file.function s.type then s.value &&& ~~~1 else s.value
    size := s.size
    other := s.other
    addrIndex := 0 }

end Files

section Index

/-- `ELF_SecSymbol`; `tbl` is the number of the symbol table. -/
structure SecSymbol where
  address : UInt64
  tbl : Nat
  index : Nat
  deriving DecidableEq, Repr

/-- `section_symbol_comparator` -/
def sectionSymbolComparator (x y : SecSymbol) : Ordering :=
  (compare x.address.toNat y.address.toNat).then (compare x.index y.index)

/-- `qsort` with this comparator; the order of symbols that compare equal is not known. -/
structure Qsort where
  sort : List SecSymbol → List SecSymbol
  perm : ∀ l, (sort l).Perm l
  sorted : ∀ l, (sort l).Pairwise fun x y => (sectionSymbolComparator x y).isLE

def ElfFile.symSize (file : ElfFile) : Nat := if file.elf64 then 24 else 16

/-- The symbol of a table that the index of section `m` gets for `n` -/
def indexed (file : ElfFile) (m : Nat) (sec : Section) (t : Nat) (tbl : Section) (n : Nat) : Option SecSymbol :=
  let s := tbl.symAt (file.symSize * n)
  let address := if file.rel then s.value + sec.addr else s.value
  if s.shndx = m ∧ s.type ≠ sttGnuIfunc then
    some ⟨if file.function s.type then address &&& ~~~1 else address,t,n⟩
  else none

/-- The loop over the symbols of a table -/
def tableSymbols (file : ElfFile) (m : Nat) (sec : Section) (t : Nat) (tbl : Section) : List SecSymbol :=
  (List.range' 1 (tbl.symCount - 1)).filterMap (indexed file m sec t tbl)

/-- The loop over the tables, from table `t` on; it ends where a table cannot be loaded. -/
def collect (file : ElfFile) (m : Nat) (sec : Section) : Nat → List Section → List SecSymbol × Code Unit
  | _, [] => ([],.ok ())
  | t, tbl :: tbls =>
    if tbl.symCount = 0 then collect file m sec (t + 1) tbls
    else
      match tbl.load with
      | .error stop => ([],.error stop)
      | .ok _ =>
        let (rest,code) := collect file m sec (t + 1) tbls
        (tableSymbols file m sec t tbl ++ rest,code)

/-- `create_symbol_addr_search_index`, which leaves what it has collected where it raises an exception -/
def createSymbolAddrSearchIndex (q : Qsort) (file : ElfFile) (m : Nat) (sec : Section) : List SecSymbol × Code Unit :=
  match collect file m sec 1 (file.sections.drop 1) with
  | (symbols,.ok _) => (q.sort symbols,.ok ())
  | (symbols,.error stop) => (symbols,.error stop)

/-- `sym_addr_table` of the sections; an empty table is NULL. -/
abbrev Tables := Nat → List SecSymbol

/-- The address behind symbol `k`: that of the next one, or the end of the section, in 64 bits -/
def nextAddress (sec : Section) (table : List SecSymbol) (k : Nat) : UInt64 :=
  match table[k + 1]? with
  | some next => next.address
  | none => sec.addr + sec.size

/-- A round of the search. It ends where the assertion fails. -/
def probe (sec : Section) (table : List SecSymbol) (addr : UInt64) (k : Nat) : Ordering :=
  match table[k]? with
  | none => .gt
  | some info =>
    if addr < info.address then .gt
    else if nextAddress sec table k < info.address then .eq
    else if nextAddress sec table k ≤ addr then .lt
    else .eq

/-- The symbol of a place of the index -/
def unpackAt (file : ElfFile) (table : List SecSymbol) (k : Nat) : Code (Option ElfSymbolInfo) :=
  match table[k]? with
  | none => .error .undefined
  | some info =>
    match file.sections[info.tbl]? with
    | none => .error .undefined
    | some tbl => do
      let sym ← unpackElfSymbolInfo file info.tbl info.index tbl
      return some { sym with addrIndex := k }

/-- The search of `elf_find_symbol_by_address` in an index -/
def search (file : ElfFile) (m : Nat) (sec : Section) (table : List SecSymbol) (addr : UInt64) : Code (Option ElfSymbolInfo) :=
  match Bisection.bisect (probe sec table addr) table.length 0 table.length with
  | none => .ok none
  | some k => do
    check (∀ info ∈ table[k]?, info.address ≤ nextAddress sec table k) .assertion
    let sym ← unpackAt file table k
    check (∀ info ∈ sym, info.section = some m) .assertion
    return sym

/-- `elf_find_symbol_by_address` on section `m` -/
def elfFindSymbolByAddress (q : Qsort) (file : ElfFile) (tables : Tables) (m : Nat) (addr : UInt64) :
    Tables × Code (Option ElfSymbolInfo) :=
  match file.sections[m]? with
  | none => (tables,.ok none)
  | some sec =>
    if addr < sec.addr then (tables,.ok none)
    else if tables m = [] then
      match createSymbolAddrSearchIndex q file m sec with
      | (table,.ok _) => (Function.update tables m table,search file m sec table addr)
      | (table,.error stop) => (Function.update tables m table,.error stop)
    else (tables,search file m sec (tables m) addr)

/-- `elf_prev_symbol_by_address` -/
def elfPrevSymbolByAddress (file : ElfFile) (tables : Tables) (sym : ElfSymbolInfo) : Code (Option ElfSymbolInfo) :=
  match sym.section with
  | none => .ok none
  | some m => if 0 < sym.addrIndex then unpackAt file (tables m) (sym.addrIndex - 1) else .ok none

/-- `elf_next_symbol_by_address` -/
def elfNextSymbolByAddress (file : ElfFile) (tables : Tables) (sym : ElfSymbolInfo) : Code (Option ElfSymbolInfo) :=
  match sym.section with
  | none => .ok none
  | some m =>
    if sym.addrIndex + 1 < (tables m).length then unpackAt file (tables m) (sym.addrIndex + 1) else .ok none

end Index

end Tcf.ElfSymbols
