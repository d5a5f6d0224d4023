import Mathlib.Algebra.Order.Ring.Int
import Tcf.Base.ByteNumbers
import Tcf.ElfSymbols

/-! Relocation of values that are read from the sections of ELF files -/
namespace Tcf.DwarfReloc

open ElfSymbols hiding Code
open ByteNumbers

abbrev Code := ElfSymbols.Code

section Files

def etRel : Nat := 1
def etExec : Nat := 2
def shtRela : Nat := 4
def shtRel : Nat := 9
def shnUndef : Nat := 0
def shnAbs : Nat := 0xfff1
def shnCommon : Nat := 0xfff2
def stnUndef : Nat := 0

def em386 : Nat := 3
def emPpc : Nat := 20
def emPpc64 : Nat := 21
def emArm : Nat := 40
def emX86_64 : Nat := 62
def emAarch64 : Nat := 183

/-- `ELF_Section`, with the bytes of its data and the number of the section of its relocation records -/
structure DataSection extends ElfSymbols.Section where
  type : Nat
  data : Nat → UInt8
  relocate : Option Nat

/-- `ELF_File` -/
structure RelocFile where
  elf64 : Bool
  bigEndian : Bool
  type : Nat
  machine : Nat
  sections : List DataSection

/-- The file as the symbol tables are read -/
def RelocFile.toElfFile (file : RelocFile) : ElfFile :=
  ⟨file.elf64,file.machine = emArm,file.type = etRel,file.sections.map DataSection.toSection⟩

/-- A number of the data, read on a host with the given byte order and swapped where the file has the other one -/
def load (host : Bool) (file : RelocFile) (sec : DataSection) (pos width : Nat) : Code Nat :=
  if pos + width ≤ sec.size.toNat then
    let bytes := (List.range' pos width).map sec.data
    .ok (valueOf host (if file.bigEndian ≠ host then bytes.reverse else bytes))
  else .error .undefined

end Files

section Records

/-- What `relocate` takes from a record -/
structure Record where
  symIndex : Nat
  type : Nat
  addend : UInt64
  deriving DecidableEq, Repr

/-- An `Elf32_Sword` in 64 bits -/
def swordValue (n : Nat) : UInt64 := if n < 2 ^ 31 then UInt64.ofNat n else UInt64.ofNat (n + (2 ^ 64 - 2 ^ 32))

/-- Sizes of `Elf32_Rel`, `Elf32_Rela`, `Elf64_Rel` and `Elf64_Rela` -/
def recordSize (elf64 : Bool) (type : Nat) : Nat :=
  if type = shtRel then if elf64 then 16 else 8
  else if elf64 then 24 else 12

/-- The record at a position of the data -/
def readRecord (host : Bool) (file : RelocFile) (relocs : DataSection) (pos : Nat) : Code Record := do
  check (pos + recordSize file.elf64 relocs.type ≤ relocs.size.toNat) .undefined
  if ¬file.elf64 then
    let info ← load host file relocs (pos + 4) 4
    if relocs.type = shtRel then return ⟨info / 2 ^ 8,info % 2 ^ 8,0⟩
    let addend ← load host file relocs (pos + 8) 4
    return ⟨info / 2 ^ 8,info % 2 ^ 8,swordValue addend⟩
  else
    let info ← load host file relocs (pos + 8) 8
    if relocs.type = shtRel then return ⟨info / 2 ^ 32,info % 2 ^ 32,0⟩
    let addend ← load host file relocs (pos + 16) 8
    return ⟨info / 2 ^ 32,info % 2 ^ 32,UInt64.ofNat addend⟩

/-- `sym_value`, the section of the symbol and whether the value is a run-time address -/
structure Resolved where
  value : UInt64
  dst : Option Nat
  runTime : Bool
  deriving DecidableEq, Repr

/-- Values of common symbols; the source leaves their addresses to a hook. -/
abbrev SymbolAddress := ElfSymbolInfo → Except Nat UInt64

/-- The switch over the section of the symbol. `c` is the context of the call, if there is one. -/
def symbolOf (file : RelocFile) (c : Option SymbolAddress) (link : Nat) (symbols : DataSection) (index : Nat) : Code Resolved := do
  let info ← unpackElfSymbolInfo file.toElfFile link index symbols.toSection
  if info.sectionIndex = shnAbs then return ⟨info.value,none,false⟩
  else if info.sectionIndex = shnCommon then
    match c with
    | some elfSymbolAddress =>
      match elfSymbolAddress info with
      | .ok addr => return ⟨addr,none,true⟩
      | .error errno => .error (.failed errno)
    | none => .error (.invalid "Common relocation record unsupported")
  else if info.sectionIndex = shnUndef then .error (.invalid "Invalid relocation record")
  else
    match info.section with
    | none => .error (.invalid "Invalid relocation record")
    | some n =>
      match file.sections[n]? with
      | none => .error .undefined
      | some sec => return ⟨if file.type ≠ etExec then sec.addr + info.value else info.value,some n,false⟩

end Records

section Machines

/-- What one machine does with a type: the width of the addend that it reads from the section where the records have none,
and the width it stores, with or without the place taken off. `none` is an unsupported type. -/
structure Backend where
  addendWidth : Nat → Option Nat
  stores : Nat → Option (Nat × Bool)

def elfRelocateI386 : Backend where
  addendWidth _ := some 4
  stores
    | 1 => some (4,false)
    | 2 => some (4,true)
    | _ => none

def elfRelocateX86_64 : Backend where
  addendWidth
    | 1 => some 8
    | _ => some 4
  stores
    | 10 => some (4,false)
    | 1 => some (8,false)
    | 2 => some (4,true)
    | _ => none

def elfRelocateArm : Backend where
  addendWidth
    | 2 | 3 | 4 => some 4
    | 5 => some 2
    | _ => none
  stores
    | 2 => some (4,false)
    | 3 | 4 => some (4,true)
    | 5 => some (2,false)
    | _ => none

def elfRelocateA64 : Backend where
  addendWidth
    | 257 | 260 => some 8
    | 258 | 261 => some 4
    | 259 | 262 => some 2
    | _ => none
  stores
    | 257 => some (8,false)
    | 258 => some (4,false)
    | 259 => some (2,false)
    | 260 => some (8,true)
    | 261 => some (4,true)
    | 262 => some (2,true)
    | _ => none

def elfRelocatePowerpc : Backend where
  addendWidth _ := some 4
  stores
    | 1 | 24 => some (4,false)
    | 26 => some (4,true)
    | _ => none

def elfRelocatePpc64 : Backend where
  addendWidth _ := some 8
  stores
    | 38 => some (8,false)
    | 1 | 24 => some (4,false)
    | _ => none

/-- `elf_relocate_funcs`, up to the entry of EM_NONE -/
def elfRelocateFuncs : List (Nat × Backend) := [(em386,elfRelocateI386),(emX86_64,elfRelocateX86_64),(emArm,elfRelocateArm),
  (emAarch64,elfRelocateA64),(emPpc,elfRelocatePowerpc),(emPpc64,elfRelocatePpc64)]

/-- The width and the number that are stored in the buffer -/
structure Stored where
  width : Nat
  value : Nat
  deriving DecidableEq, Repr

/-- The first half of `elf_relocate`: `reloc_addend` -/
def Backend.addend (func : Backend) (host : Bool) (file : RelocFile) (relocs sec : DataSection) (r : Record) (offset : UInt64) :
    Code UInt64 :=
  if relocs.type = shtRel ∧ r.type ≠ 0 then do
    check (file.type = etRel) (.invalid "Invalid relocation record")
    check (r.addend = 0) .assertion
    match func.addendWidth r.type with
    | some width => do
      let x ← load host file sec offset.toNat width
      return UInt64.ofNat x
    | none => .error (.invalid "Unsupported relocation type")
  else .ok r.addend

/-- The second half. Type 0 is NONE on each machine. -/
def Backend.store (func : Backend) (sec : DataSection) (type : Nat) (sym : Resolved) (addend offset : UInt64) (size : Nat) :
    Code (Option Stored × Option Nat) :=
  if type = 0 then .ok (none,none)
  else
    match func.stores type with
    | none => .error (.invalid "Unsupported relocation type")
    | some (width,relative) =>
      if size < width then .error (.invalid "Invalid relocation record")
      else
        let x := sym.value + addend - if relative then sec.addr + offset else 0
        .ok (some ⟨width,x.toNat % 256 ^ width⟩,sym.dst)

/-- What a call leaves in the buffer, `dst` and `rt_addr` -/
structure Outcome where
  stored : Option Stored
  dst : Option Nat
  runTime : Bool
  deriving DecidableEq, Repr

def Outcome.nothing : Outcome := ⟨none,none,false⟩

/-- A call, for a section of a file -/
structure Call where
  c : Option SymbolAddress
  file : Nat
  sec : Nat
  offset : UInt64
  size : Nat

/-- The part of `relocate` behind the switch -/
def applyFunc (host : Bool) (file : RelocFile) (relocs sec : DataSection) (r : Record) (sym : Resolved) (offset : UInt64)
    (size : Nat) : Code Outcome :=
  if file.type ≠ etRel then .ok ⟨none,sym.dst,sym.runTime⟩
  else
    match elfRelocateFuncs.lookup file.machine with
    | some func => do
      let addend ← func.addend host file relocs sec r offset
      let (stored,dst) ← func.store sec r.type sym addend offset size
      return ⟨stored,dst,sym.runTime⟩
    | none =>
      -- the entry of EM_NONE has no function to call
      if file.machine = 0 then .error .undefined else .error (.invalid "Unsupported ELF machine code")

/-- `relocate`. Without a symbol `sym_value` is what the last record left there. -/
def relocate (host : Bool) (file : RelocFile) (call : Call) (sec relocs symbols : DataSection) (symValue : UInt64) (pos : Nat) :
    UInt64 × Code Outcome :=
  match readRecord host file relocs pos with
  | .error stop => (symValue,.error stop)
  | .ok r =>
    let resolved := if r.symIndex ≠ stnUndef then symbolOf file call.c relocs.link symbols r.symIndex else .ok ⟨symValue,none,false⟩
    match resolved with
    | .error stop => (symValue,.error stop)
    | .ok sym => (sym.value,applyFunc host file relocs sec r sym call.offset call.size)

end Machines

section Zones

def recordCount (relocs : DataSection) : Nat := relocs.size.toNat / relocs.entsize

def recordOffset (host : Bool) (file : RelocFile) (relocs : DataSection) (ix : Nat) : Code Nat :=
  load host file relocs (ix * relocs.entsize) (if file.elf64 then 8 else 4)

/-- The loop over the records that builds the zone table: `n` records are left, `max` boundaries are allocated. -/
def findZones (host : Bool) (file : RelocFile) (relocs : DataSection) : Nat → Nat → Nat → Nat → List Nat → Code (List Nat)
  | 0, ix, _, max, zones => do
    check (zones.length < max) .undefined
    return zones ++ [ix]
  | n+1, ix, prev, max, zones => do
    let offs ← recordOffset host file relocs ix
    if offs < prev then
      let max := if zones.length + 1 = max then max + 5 else max
      check (zones.length < max) .undefined
      findZones host file relocs n (ix + 1) offs max (zones ++ [ix])
    else findZones host file relocs n (ix + 1) offs max zones

/-- The offset of a record in the section: in a file that is not ET_REL it is an address. -/
def sectionOffset (file : RelocFile) (sec : DataSection) (offs : Nat) : Nat :=
  if file.type = etRel then offs
  else if file.elf64 then (UInt64.ofNat offs - sec.addr).toNat
  else (UInt32.ofNat offs - sec.addr.toUInt32).toNat

/-- The comparison with a record -/
def probe (host : Bool) (file : RelocFile) (sec relocs : DataSection) (offset : UInt64) (ix : Nat) : Ordering :=
  match recordOffset host file relocs ix with
  | .error _ => .eq
  | .ok offs => compare (sectionOffset file sec offs) offset.toNat

/-- The search in one zone after the other -/
def searchZones (probe : Nat → Ordering) : List Nat → Option Nat
  | p :: q :: zones =>
    match Bisection.bisect probe (q - p) p q with
    | some ix => some ix
    | none => searchZones probe (q :: zones)
  | _ => none

/-- The variables that a call can read before it has assigned them: `sym_value`, and the zone tables of the sections -/
structure Statics where
  symValue : UInt64
  zones : Nat → Nat → List Nat

def Statics.init : Statics := ⟨0,fun _ _ => []⟩

/-- The zone table of a section, built where there is none. With 4 GB of records the products of 32 bits wrap. -/
def zonesOf (host : Bool) (file : RelocFile) (relocs : DataSection) (known : List Nat) : Code (List Nat) :=
  if known = [] then do
    check (relocs.size.toNat < 2 ^ 32) .undefined
    findZones host file relocs (recordCount relocs) 0 0 2 [0]
  else .ok known

def Statics.withZones (st : Statics) (f n : Nat) (zones : List Nat) : Statics :=
  { st with zones := fun f' n' => if f' = f ∧ n' = n then zones else st.zones f' n' }

/-- `drl_relocate_in_context`; `drl_relocate` is the call without a context. -/
def drlRelocateInContext (host : Bool) (files : Nat → RelocFile) (st : Statics) (call : Call) : Statics × Code Outcome :=
  let file := files call.file
  match file.sections[call.sec]? with
  | none => (st,.error .undefined)
  | some s =>
    match s.relocate with
    | none => (st,.ok .nothing)
    | some n =>
      match file.sections[n]? with
      | none => (st,.error .undefined)
      | some r =>
        match file.sections[r.link]? with
        | none => (st,.error .undefined)
        | some symbols =>
          let ready : Code (List Nat) := do
            r.toSection.load
            symbols.toSection.load
            check (r.entsize ≠ 0 ∧ r.size.toNat % r.entsize = 0) (.invalid "Invalid sh_entsize")
            zonesOf host file r (st.zones call.file n)
          match ready with
          | .error stop => (st,.error stop)
          | .ok zones =>
            let st := st.withZones call.file n zones
            match searchZones (probe host file s r call.offset) zones with
            | none => (st,.ok .nothing)
            | some ix =>
              let (symValue,code) := relocate host file call s r symbols st.symValue (ix * r.entsize)
              ({ st with symValue := symValue },code)

/-- The calls one after the other, with what each of them gives -/
def run (host : Bool) (files : Nat → RelocFile) : Statics → List Call → List (Statics × Call × Code Outcome)
  | _, [] => []
  | st, call :: calls =>
    let (next,code) := drlRelocateInContext host files st call
    (st,call,code) :: run host files next calls

end Zones

end Tcf.DwarfReloc
