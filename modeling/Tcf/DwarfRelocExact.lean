import Mathlib.Data.List.Nodup
import Tcf.DwarfReloc
import Tcf.ElfSymbolsExact

/-! What relocation is meant to do, and when it does -/
namespace Tcf.DwarfReloc

open ElfSymbols hiding Code
open ByteNumbers

section Meaning

/-- A number in the byte order of the file -/
def number (file : RelocFile) (sec : DataSection) (pos width : Nat) : Nat :=
  valueOf file.bigEndian ((List.range' pos width).map sec.data)

def signed (width n : Nat) : Int := if n < 2 ^ (8 * width - 1) then n else n - 256 ^ width

/-- A relocation record; one of SHT_REL has no addend. -/
structure RelocRecord where
  offset : Nat
  sym : Nat
  type : Nat
  addend : Option Int
  deriving DecidableEq, Repr

def RelocFile.width (file : RelocFile) : Nat := if file.elf64 then 8 else 4

def recordAt (file : RelocFile) (relocs : DataSection) (ix : Nat) : RelocRecord :=
  let pos := ix * relocs.entsize
  let info := number file relocs (pos + file.width) file.width
  let split := if file.elf64 then 2 ^ 32 else 2 ^ 8
  ⟨number file relocs pos file.width,info / split,info % split,
    if relocs.type = shtRel then none else some (signed file.width (number file relocs (pos + 2 * file.width) file.width))⟩

def records (file : RelocFile) (relocs : DataSection) : List RelocRecord := (List.range (recordCount relocs)).map (recordAt file relocs)

/-- The relocations of each machine: the width of the field, and whether its value is relative to the place. Any other
than NONE stores S + A, or S + A - P. -/
def formulas : List (Nat × List (Nat × Nat × Bool)) := [
  (em386,[(1,4,false),(2,4,true)]),
  (emX86_64,[(1,8,false),(2,4,true),(10,4,false)]),
  (emArm,[(2,4,false),(3,4,true),(4,4,true),(5,2,false)]),
  (emAarch64,[(257,8,false),(258,4,false),(259,2,false),(260,8,true),(261,4,true),(262,2,true)]),
  (emPpc,[(1,4,false),(24,4,false),(26,4,true)]),
  (emPpc64,[(1,4,false),(24,4,false),(38,8,false)])]

/-- What a record gives by the table of the machine -/
def meantStored (file : RelocFile) (call : Call) (sec : DataSection) (x : RelocRecord) (sym : Resolved)
    (types : List (Nat × Nat × Bool)) : Code Outcome :=
  if x.type = 0 then .ok ⟨none,none,sym.runTime⟩
  else
    match types.lookup x.type with
    | none => .error (.invalid "Unsupported relocation type")
    | some (width,relative) =>
      if call.size < width then .error (.invalid "Invalid relocation record")
      else
        let addend : Int := x.addend.getD (number file sec call.offset.toNat width)
        let place : Int := if relative then sec.addr.toNat + call.offset.toNat else 0
        .ok ⟨some ⟨width,((sym.value.toNat + addend - place) % 256 ^ width).toNat⟩,sym.dst,sym.runTime⟩

/-- What a record gives with the value of its symbol -/
def meantField (file : RelocFile) (call : Call) (sec : DataSection) (x : RelocRecord) (sym : Resolved) : Code Outcome :=
  if file.type ≠ etRel then .ok ⟨none,sym.dst,sym.runTime⟩
  else
    match formulas.lookup file.machine with
    | none => .error (.invalid "Unsupported ELF machine code")
    | some types => meantStored file call sec x sym types

/-- What a record gives by itself. The value of no symbol is 0. -/
def meantRecord (file : RelocFile) (call : Call) (sec relocs symbols : DataSection) (x : RelocRecord) : Code Outcome := do
  let sym ← (if x.sym = stnUndef then .ok ⟨0,none,false⟩ else symbolOf file call.c relocs.link symbols x.sym)
  meantField file call sec x sym

/-- Offsets of the records of other files than ET_REL are addresses. -/
def RelocFile.base (file : RelocFile) (sec : DataSection) : Nat := if file.type = etRel then 0 else sec.addr.toNat

/-- The sections of a call -/
structure Sections where
  sec : DataSection
  relocs : DataSection
  symbols : DataSection

/-- What a call gives, by the file alone -/
def meant (file : RelocFile) (call : Call) (s : Sections) : Code Outcome := do
  s.relocs.toSection.load
  s.symbols.toSection.load
  check (s.relocs.entsize ≠ 0 ∧ s.relocs.size.toNat % s.relocs.entsize = 0) (.invalid "Invalid sh_entsize")
  match (records file s.relocs).find? fun x => x.offset = call.offset.toNat + file.base s.sec with
  | none => return .nothing
  | some x => meantRecord file call s.sec s.relocs s.symbols x

end Meaning

variable {pos width n : Nat}

section Numbers

theorem load_eq {host : Bool} {file : RelocFile} {sec : DataSection} (inside : pos + width ≤ sec.size.toNat) :
    load host file sec pos width = .ok (number file sec pos width) := by
  have swapped (big : Bool) (bytes : List UInt8) :
      valueOf host (if big ≠ host then bytes.reverse else bytes) = valueOf big bytes := by
    cases big <;> cases host <;> simp [valueOf]
  unfold load
  rw [if_pos inside]
  exact congrArg Except.ok (swapped ..)

theorem number_lt (file : RelocFile) (sec : DataSection) (pos width : Nat) : number file sec pos width < 256 ^ width := by
  have small := (bytesOf_valueOf file.bigEndian ((List.range' pos width).map sec.data)).1
  rwa [List.length_map,List.length_range'] at small

/-- Values that agree in 64 bits -/
def Agrees (n : UInt64) (x : Int) : Prop := (n.toNat : Int) % 2 ^ 64 = x % 2 ^ 64

theorem agrees_toNat (n : UInt64) : Agrees n n.toNat := rfl

theorem ofNat_agrees (n : Nat) : Agrees (UInt64.ofNat n) n := by
  unfold Agrees
  rw [UInt64.toNat_ofNat']
  omega

variable {x : Int}

theorem Agrees.add {a b : UInt64} {y : Int} (first : Agrees a x) (second : Agrees b y) : Agrees (a + b) (x + y) := by
  unfold Agrees at *
  rw [UInt64.toNat_add]
  omega

theorem Agrees.sub {a b : UInt64} {y : Int} (first : Agrees a x) (second : Agrees b y) : Agrees (a - b) (x - y) := by
  have below := b.toNat_lt
  unfold Agrees at *
  rw [UInt64.toNat_sub]
  omega

/-- The lower bytes of such values are those of the number. -/
theorem Agrees.low {n : UInt64} (same : Agrees n x) (fits : width ≤ 8) :
    n.toNat % 256 ^ width = (x % 256 ^ width).toNat := by
  have divides : (256 : Int) ^ width ∣ 2 ^ 64 := by
    have whole : (2 : Int) ^ 64 = 256 ^ width * 256 ^ (8 - width) := by
      rw [← pow_add,Nat.add_sub_cancel' fits]
      rfl
    exact ⟨_,whole⟩
  have low : (n.toNat : Int) % 256 ^ width = x % 256 ^ width := by
    rw [← Int.emod_emod_of_dvd _ divides,same,Int.emod_emod_of_dvd _ divides]
  rw [← low]
  rfl

theorem swordValue_agrees (small : n < 256 ^ 4) : Agrees (swordValue n) (signed 4 n) := by
  unfold swordValue signed Agrees
  split
  · rw [UInt64.toNat_ofNat']
    omega
  · rw [UInt64.toNat_ofNat']
    omega

theorem sxword_agrees (small : n < 256 ^ 8) : Agrees (UInt64.ofNat n) (signed 8 n) := by
  unfold signed Agrees
  rw [UInt64.toNat_ofNat']
  split <;> omega

end Numbers

variable {ix : Nat}

section Reading

variable {host : Bool} {file : RelocFile} {relocs : DataSection}

/-- The records of a section lie in its data. -/
structure WellFormed (file : RelocFile) (relocs : DataSection) : Prop where
  small : relocs.size.toNat < 2 ^ 32
  whole : recordSize file.elf64 relocs.type ≤ relocs.entsize

theorem record_inside (wellFormed : WellFormed file relocs) (below : ix < recordCount relocs) :
    ix * relocs.entsize + recordSize file.elf64 relocs.type ≤ relocs.size.toNat := by
  have next : (ix + 1) * relocs.entsize ≤ relocs.size.toNat :=
    Nat.le_trans (Nat.mul_le_mul_right _ below) (Nat.div_mul_le_self ..)
  rw [Nat.succ_mul] at next
  exact Nat.le_trans (Nat.add_le_add_left wellFormed.whole _) next

theorem width_le_recordSize (file : RelocFile) (type : Nat) : 2 * file.width ≤ recordSize file.elf64 type := by
  unfold recordSize RelocFile.width
  cases file.elf64 <;> by_cases kind : type = shtRel <;> simp [kind]

theorem recordOffset_eq (wellFormed : WellFormed file relocs) (below : ix < recordCount relocs) :
    recordOffset host file relocs ix = .ok (recordAt file relocs ix).offset := by
  have inside := record_inside wellFormed below
  have fits := width_le_recordSize file relocs.type
  have inside' : ix * relocs.entsize + file.width ≤ relocs.size.toNat := by omega
  exact load_eq inside'

/-- What `relocate` takes from a record -/
structure Reads (relocs : DataSection) (x : RelocRecord) (r : Record) : Prop where
  sym : r.symIndex = x.sym
  type : r.type = x.type
  absent : relocs.type = shtRel → r.addend = 0 ∧ x.addend = none
  addend : relocs.type ≠ shtRel → ∃ a, x.addend = some a ∧ Agrees r.addend a

theorem readRecord_narrow (elf : file.elf64 = false) (inside : pos + recordSize false relocs.type ≤ relocs.size.toNat) :
    readRecord host file relocs pos = .ok ⟨number file relocs (pos + 4) 4 / 2 ^ 8,number file relocs (pos + 4) 4 % 2 ^ 8,
      if relocs.type = shtRel then 0 else swordValue (number file relocs (pos + 8) 4)⟩ := by
  unfold readRecord
  rw [elf,check,if_pos inside]
  unfold recordSize at inside
  by_cases kind : relocs.type = shtRel
  · rw [if_pos kind,if_neg Bool.false_ne_true] at inside
    have info : load host file relocs (pos + 4) 4 = .ok (number file relocs (pos + 4) 4) := load_eq (by omega)
    simp only [kind,info,if_true]
    rfl
  · rw [if_neg kind,if_neg Bool.false_ne_true] at inside
    have info : load host file relocs (pos + 4) 4 = .ok (number file relocs (pos + 4) 4) := load_eq (by omega)
    have addend : load host file relocs (pos + 8) 4 = .ok (number file relocs (pos + 8) 4) := load_eq (by omega)
    simp only [kind,info,addend,if_false]
    rfl

theorem readRecord_wide (elf : file.elf64 = true) (inside : pos + recordSize true relocs.type ≤ relocs.size.toNat) :
    readRecord host file relocs pos = .ok ⟨number file relocs (pos + 8) 8 / 2 ^ 32,number file relocs (pos + 8) 8 % 2 ^ 32,
      if relocs.type = shtRel then 0 else UInt64.ofNat (number file relocs (pos + 16) 8)⟩ := by
  unfold readRecord
  rw [elf,check,if_pos inside]
  unfold recordSize at inside
  by_cases kind : relocs.type = shtRel
  · rw [if_pos kind,if_pos rfl] at inside
    have info : load host file relocs (pos + 8) 8 = .ok (number file relocs (pos + 8) 8) := load_eq (by omega)
    simp only [kind,info,if_true]
    rfl
  · rw [if_neg kind,if_pos rfl] at inside
    have info : load host file relocs (pos + 8) 8 = .ok (number file relocs (pos + 8) 8) := load_eq (by omega)
    have addend : load host file relocs (pos + 16) 8 = .ok (number file relocs (pos + 16) 8) := load_eq (by omega)
    simp only [kind,info,addend,if_false]
    rfl

theorem readRecord_eq (wellFormed : WellFormed file relocs) (below : ix < recordCount relocs) :
    ∃ r, readRecord host file relocs (ix * relocs.entsize) = .ok r ∧ Reads relocs (recordAt file relocs ix) r := by
  have inside := record_inside wellFormed below
  unfold recordAt RelocFile.width
  cases elf : file.elf64 with
  | false =>
    rw [elf] at inside
    refine ⟨_,readRecord_narrow elf inside,rfl,rfl,fun kind => ⟨if_pos kind,if_pos kind⟩,fun kind => ?_⟩
    refine ⟨_,if_neg kind,?_⟩
    rw [if_neg kind]
    exact swordValue_agrees (number_lt ..)
  | true =>
    rw [elf] at inside
    refine ⟨_,readRecord_wide elf inside,rfl,rfl,fun kind => ⟨if_pos kind,if_pos kind⟩,fun kind => ?_⟩
    refine ⟨_,if_neg kind,?_⟩
    rw [if_neg kind]
    exact sxword_agrees (number_lt ..)

end Reading

section Zones

variable {host : Bool} {file : RelocFile} {relocs : DataSection} {offs : Nat → Nat}

/-- The boundaries from `ix` on, behind an offset `prev` -/
def cuts (offs : Nat → Nat) : Nat → Nat → Nat → List Nat
  | 0, ix, _ => [ix]
  | n+1, ix, prev => if offs ix < prev then ix :: cuts offs n (ix + 1) (offs ix) else cuts offs n (ix + 1) (offs ix)

variable {zones : List Nat}

/-- No write of the loop is outside of the allocation. -/
theorem findZones_eq {prev max : Nat} (room : zones.length + 1 ≤ max)
    (reads : ∀ k, ix ≤ k → k < ix + n → recordOffset host file relocs k = .ok (offs k)) :
    findZones host file relocs n ix prev max zones = .ok (zones ++ cuts offs n ix prev) := by
  induction n generalizing ix prev max zones with
  | zero =>
    unfold findZones
    rw [check,if_pos (show zones.length < max by omega)]
    rfl
  | succ n ih =>
    have later : ∀ k, ix + 1 ≤ k → k < ix + 1 + n → recordOffset host file relocs k = .ok (offs k) :=
      fun k behind inside => reads k (by omega) (by omega)
    have here := reads ix (Nat.le_refl ix) (by omega)
    unfold findZones cuts
    simp only [here,bind,Except.bind]
    by_cases less : offs ix < prev
    · rw [if_pos less,if_pos less]
      have grown : (zones ++ [ix]).length + 1 ≤ (if zones.length + 1 = max then max + 5 else max) := by
        rw [List.length_append,List.length_singleton]
        split <;> omega
      have inside : zones.length < (if zones.length + 1 = max then max + 5 else max) := by
        split <;> omega
      rw [check,if_pos inside]
      exact (ih grown later).trans (by rw [List.append_assoc]; rfl)
    · rw [if_neg less,if_neg less]
      exact ih room later

/-- The boundaries cut what is in front of `last` into zones of ascending offsets. -/
def Cut (offs : Nat → Nat) (last : Nat) : List Nat → Prop
  | [] => False
  | [p] => p = last
  | p :: q :: zones => p ≤ q ∧ (∀ i j, p ≤ i → i ≤ j → j < q → offs i ≤ offs j) ∧ Cut offs last (q :: zones)

variable {p : Nat}

theorem cuts_cut {prev : Nat} (front : p ≤ ix) (ascends : ∀ i j, p ≤ i → i ≤ j → j < ix → offs i ≤ offs j)
    (below : ∀ i, p ≤ i → i < ix → offs i ≤ prev) : Cut offs (ix + n) (p :: cuts offs n ix prev) := by
  induction n generalizing ix prev p with
  | zero => exact ⟨front,ascends,rfl⟩
  | succ n ih =>
    unfold cuts
    have shift : ix + (n + 1) = ix + 1 + n := by omega
    rw [shift]
    split
    · refine ⟨front,ascends,ih (Nat.le_succ ix) (fun i j low order high => ?_) (fun i low high => ?_)⟩
      · rw [show i = j by omega]
      · rw [show i = ix by omega]
    · rename_i follows
      refine ih (by omega) (fun i j low order high => ?_) (fun i low high => ?_)
      · by_cases last : j = ix
        · by_cases same : i = j
          · rw [same]
          · rw [last]
            exact Nat.le_trans (below i low (by omega)) (Nat.le_of_not_lt follows)
        · exact ascends i j low order (by omega)
      · by_cases last : i = ix
        · rw [last]
        · exact Nat.le_trans (below i low (by omega)) (Nat.le_of_not_lt follows)

variable {last : Nat}

theorem cut_below (cut : Cut offs last (p :: zones)) : p ≤ last := by
  induction zones generalizing p with
  | nil => exact Nat.le_of_eq cut
  | cons q zones ih => exact Nat.le_trans cut.1 (ih cut.2.2)

/-- A place that is found is one that is sought, and in front of the end. -/
theorem searchZones_some {probe : Nat → Ordering} {k : Nat} (cut : Cut offs last (p :: zones))
    (found : searchZones probe (p :: zones) = some k) : k < last ∧ probe k = .eq := by
  induction zones generalizing p with
  | nil => cases found
  | cons q zones ih =>
    unfold searchZones at found
    split at found
    · rename_i hit
      cases found
      obtain ⟨-,high,there⟩ := Bisection.bisect_some hit
      exact ⟨Nat.lt_of_lt_of_le high (cut_below cut.2.2),there⟩
    · exact ih cut.2.2 found

/-- Where the search misses, nothing that is sought is in the zones. -/
theorem searchZones_none {target : Nat} {probe : Nat → Ordering} (cut : Cut offs last (p :: zones))
    (asks : ∀ k, k < last → probe k = compare (offs k) target) (missed : searchZones probe (p :: zones) = none) :
    ∀ t, p ≤ t → t < last → offs t ≠ target := by
  induction zones generalizing p with
  | nil =>
    intro t low high
    have empty : p = last := cut
    omega
  | cons q zones ih =>
    obtain ⟨order,ascends,rest⟩ := cut
    unfold searchZones at missed
    split at missed
    · cases missed
    · rename_i hit
      intro t low high there
      by_cases inside : t < q
      · have bound := cut_below rest
        have way : ∀ k ∈ Bisection.path t (q - p) p q, (k < t → probe k ≠ .gt) ∧ (t < k → probe k ≠ .lt) := by
          intro k on
          obtain ⟨first,behind⟩ := Bisection.path_inside low inside on
          rw [asks k (by omega)]
          refine ⟨fun front more => ?_,fun front less => ?_⟩
          · have ordered := ascends k t first (Nat.le_of_lt front) inside
            rw [Nat.compare_eq_gt] at more
            omega
          · have ordered := ascends t k low (Nat.le_of_lt front) behind
            rw [Nat.compare_eq_lt] at less
            omega
        have sought : probe t = .eq := by rw [asks t high,there,Nat.compare_eq_eq]
        obtain ⟨k,found⟩ := (Bisection.bisect_found_iff (show q ≤ p + (q - p) by omega)).mpr ⟨t,low,inside,sought,way⟩
        rw [hit] at found
        cases found
      · exact ih rest missed t (Nat.le_of_not_lt inside) high there

end Zones

variable {symValue : UInt64}

section Machines

theorem lookup_cons_if {β : Type} (a k : Nat) (b : β) (l : List (Nat × β)) :
    List.lookup k ((a,b) :: l) = if k = a then some b else l.lookup k := by
  rw [List.lookup_cons]
  by_cases here : k = a
  · rw [beq_iff_eq.mpr here,if_pos here]
  · rw [beq_eq_false_iff_ne.mpr here,if_neg here]

theorem lookup_pairs {β γ : Type} {r : β → γ → Prop} {l : List (Nat × β)} {m : List (Nat × γ)}
    (pairs : List.Forall₂ (fun a b => a.1 = b.1 ∧ r a.2 b.2) l m) (k : Nat) :
    (l.lookup k = none ∧ m.lookup k = none) ∨ ∃ x y, l.lookup k = some x ∧ m.lookup k = some y ∧ r x y := by
  induction pairs with
  | nil => exact .inl ⟨rfl,rfl⟩
  | @cons a b l m pair _ ih =>
    obtain ⟨same,related⟩ := pair
    rw [lookup_cons_if,lookup_cons_if,← same]
    by_cases here : k = a.1
    · exact .inr ⟨_,_,if_pos here,if_pos here,related⟩
    · rw [if_neg here,if_neg here]
      exact ih

/-- A machine stores what the table says, and reads the addends of such records. -/
structure Follows (func : Backend) (types : List (Nat × Nat × Bool)) : Prop where
  stores : ∀ type, func.stores type = types.lookup type
  reads : ∀ type, func.addendWidth type = none → func.stores type = none
  widths : ∀ type width relative, func.stores type = some (width,relative) → width ≤ 8

theorem i386_follows : Follows elfRelocateI386 [(1,4,false),(2,4,true)] where
  stores type := by
    simp only [elfRelocateI386]
    split <;> simp_all [lookup_cons_if]
  reads _ := nofun
  widths type := by
    simp only [elfRelocateI386]
    split <;> simp_all

theorem x86_64_follows : Follows elfRelocateX86_64 [(1,8,false),(2,4,true),(10,4,false)] where
  stores type := by
    simp only [elfRelocateX86_64]
    split <;> simp_all [lookup_cons_if]
  reads type := by
    simp only [elfRelocateX86_64]
    split <;> nofun
  widths type := by
    simp only [elfRelocateX86_64]
    split <;> simp_all

theorem arm_follows : Follows elfRelocateArm [(2,4,false),(3,4,true),(4,4,true),(5,2,false)] where
  stores type := by
    simp only [elfRelocateArm]
    split <;> simp_all [lookup_cons_if]
  reads type := by
    simp only [elfRelocateArm]
    split <;> simp_all
  widths type := by
    simp only [elfRelocateArm]
    split <;> simp_all

theorem a64_follows : Follows elfRelocateA64
    [(257,8,false),(258,4,false),(259,2,false),(260,8,true),(261,4,true),(262,2,true)] where
  stores type := by
    simp only [elfRelocateA64]
    split <;> simp_all [lookup_cons_if]
  reads type := by
    simp only [elfRelocateA64]
    split <;> simp_all
  widths type := by
    simp only [elfRelocateA64]
    split <;> simp_all

theorem powerpc_follows : Follows elfRelocatePowerpc [(1,4,false),(24,4,false),(26,4,true)] where
  stores type := by
    simp only [elfRelocatePowerpc]
    split <;> simp_all [lookup_cons_if]
  reads _ := nofun
  widths type := by
    simp only [elfRelocatePowerpc]
    split <;> simp_all

theorem ppc64_follows : Follows elfRelocatePpc64 [(1,4,false),(24,4,false),(38,8,false)] where
  stores type := by
    simp only [elfRelocatePpc64]
    split <;> simp_all [lookup_cons_if]
  reads _ := nofun
  widths type := by
    simp only [elfRelocatePpc64]
    split <;> simp_all

theorem machines_follow (machine : Nat) : (elfRelocateFuncs.lookup machine = none ∧ formulas.lookup machine = none) ∨
    ∃ func types, elfRelocateFuncs.lookup machine = some func ∧ formulas.lookup machine = some types ∧ Follows func types := by
  refine lookup_pairs ?_ machine
  exact .cons ⟨rfl,i386_follows⟩ (.cons ⟨rfl,x86_64_follows⟩ (.cons ⟨rfl,arm_follows⟩ (.cons ⟨rfl,a64_follows⟩
    (.cons ⟨rfl,powerpc_follows⟩ (.cons ⟨rfl,ppc64_follows⟩ .nil)))))

/-- The record stores a value. -/
def Storing (file : RelocFile) (x : RelocRecord) : Prop :=
  ∃ types field, formulas.lookup file.machine = some types ∧ types.lookup x.type = some field

/-- A record that the code applies as it is meant. `symValue` is the value that the last record with a symbol has left. -/
structure Applicable (file : RelocFile) (call : Call) (sec relocs : DataSection) (symValue : UInt64) (x : RelocRecord) : Prop where
  machine : file.machine ≠ 0
  named : Storing file x → x.sym = stnUndef → symValue = 0
  addend : relocs.type = shtRel → x.type ≠ 0 → ∀ func width, elfRelocateFuncs.lookup file.machine = some func →
    func.addendWidth x.type = some width → call.offset.toNat + width ≤ sec.size.toNat ∧
      ∀ field relative, func.stores x.type = some (field,relative) → field = width

variable {host : Bool} {file : RelocFile} {call : Call} {sec relocs symbols : DataSection} {x : RelocRecord} {r : Record}

variable {func : Backend}

/-- The second half stores what is meant where the addend is right. -/
theorem store_eq {types : List (Nat × Nat × Bool)} (follows : Follows func types) (sym : Resolved) {addend : UInt64}
    (agrees : x.type ≠ 0 → ∀ width relative, func.stores x.type = some (width,relative) →
      Agrees addend (x.addend.getD (number file sec call.offset.toNat width))) :
    (func.store sec x.type sym addend call.offset call.size).map (fun p => Outcome.mk p.1 p.2 sym.runTime) =
      meantStored file call sec x sym types := by
  unfold Backend.store meantStored
  rw [← follows.stores]
  by_cases none : x.type = 0
  · rw [if_pos none,if_pos none]
    rfl
  · rw [if_neg none,if_neg none]
    cases stores : func.stores x.type with
    | none => rfl
    | some field =>
      obtain ⟨width,relative⟩ := field
      by_cases short : call.size < width
      · simp only [if_pos short]
        rfl
      · have place : Agrees (if relative then sec.addr + call.offset else 0)
            (if relative then (sec.addr.toNat : Int) + call.offset.toNat else 0) := by
          cases relative
          · rfl
          · exact (agrees_toNat _).add (agrees_toNat _)
        have value := (((agrees_toNat sym.value).add (agrees none width relative stores)).sub place).low (follows.widths _ _ _ stores)
        simp only [if_neg short]
        rw [← value]
        rfl

theorem addend_rel (reads : Reads relocs x r) (kind : relocs.type = shtRel) (typed : x.type ≠ 0)
    (rel : file.type = etRel) (known : func.addendWidth x.type = some width)
    (inside : call.offset.toNat + width ≤ sec.size.toNat) :
    func.addend host file relocs sec r call.offset = .ok (UInt64.ofNat (number file sec call.offset.toNat width)) := by
  unfold Backend.addend
  rw [reads.type,if_pos ⟨kind,typed⟩,check,if_pos rel,check,if_pos (reads.absent kind).1,known]
  simp only [bind,Except.bind,load_eq inside]
  rfl

theorem addend_unknown (reads : Reads relocs x r) (kind : relocs.type = shtRel) (typed : x.type ≠ 0)
    (rel : file.type = etRel) (unknown : func.addendWidth x.type = none) :
    func.addend host file relocs sec r call.offset = .error (.invalid "Unsupported relocation type") := by
  unfold Backend.addend
  rw [reads.type,if_pos ⟨kind,typed⟩,check,if_pos rel,check,if_pos (reads.absent kind).1,unknown]
  rfl

theorem addend_rela (reads : Reads relocs x r) (other : ¬(relocs.type = shtRel ∧ x.type ≠ 0)) :
    func.addend host file relocs sec r call.offset = .ok r.addend := by
  unfold Backend.addend
  rw [reads.type,if_neg other]

theorem applyFunc_eq (reads : Reads relocs x r)
    (applicable : file.type = etRel → Applicable file call sec relocs symValue x) (sym : Resolved) :
    applyFunc host file relocs sec r sym call.offset call.size = meantField file call sec x sym := by
  unfold applyFunc meantField
  by_cases rel : file.type = etRel
  · rw [if_neg (not_not.mpr rel),if_neg (not_not.mpr rel)]
    have applicable := applicable rel
    rcases machines_follow file.machine with ⟨first,second⟩ | ⟨func,types,first,second,follows⟩
    · rw [first,second]
      exact if_neg applicable.machine
    · rw [first,second,reads.type]
      by_cases field : relocs.type = shtRel ∧ x.type ≠ 0
      · obtain ⟨kind,typed⟩ := field
        cases known : func.addendWidth x.type with
        | none =>
          simp only [addend_unknown reads kind typed rel known]
          unfold meantStored
          rw [if_neg typed,← follows.stores,follows.reads _ known]
          rfl
        | some width =>
          obtain ⟨inside,same⟩ := applicable.addend kind typed func width first known
          simp only [addend_rel reads kind typed rel known inside]
          refine store_eq follows sym fun _ field relative stores => ?_
          rw [same field relative stores,(reads.absent kind).2]
          exact ofNat_agrees _
      · simp only [addend_rela reads field]
        refine store_eq follows sym fun typed width relative stores => ?_
        obtain ⟨a,carried,agrees⟩ := reads.addend fun kind => field ⟨kind,typed⟩
        rw [carried]
        exact agrees
  · rw [if_pos rel,if_pos rel]

/-- The value of the symbol does not matter where nothing is stored. -/
theorem meantField_unstored (unstored : file.type = etRel → ¬Storing file x) (sym : Resolved) (value : UInt64) :
    meantField file call sec x { sym with value := value } = meantField file call sec x sym := by
  unfold meantField
  by_cases rel : file.type = etRel
  · rw [if_neg (not_not.mpr rel),if_neg (not_not.mpr rel)]
    cases known : formulas.lookup file.machine with
    | none => rfl
    | some types =>
      unfold meantStored
      cases stores : types.lookup x.type with
      | none =>
        simp only [stores]
      | some field => exact absurd ⟨types,field,known,stores⟩ (unstored rel)
  · rw [if_pos rel,if_pos rel]

theorem relocate_eq (wellFormed : WellFormed file relocs) (below : ix < recordCount relocs)
    (applicable : file.type = etRel → Applicable file call sec relocs symValue (recordAt file relocs ix)) :
    (relocate host file call sec relocs symbols symValue (ix * relocs.entsize)).2 =
      meantRecord file call sec relocs symbols (recordAt file relocs ix) := by
  obtain ⟨r,read,reads⟩ : ∃ r, readRecord host file relocs (ix * relocs.entsize) = .ok r ∧ Reads relocs (recordAt file relocs ix) r :=
    readRecord_eq wellFormed below
  generalize recordAt file relocs ix = x at applicable reads
  unfold relocate meantRecord
  rw [read]
  simp only [reads.sym]
  by_cases named : x.sym = stnUndef
  · rw [if_neg (not_not.mpr named),if_pos named]
    refine (applyFunc_eq reads applicable _).trans ?_
    by_cases stored : file.type = etRel ∧ Storing file x
    · rw [(applicable stored.1).named stored.2 named]
      rfl
    · exact meantField_unstored (fun rel storing => stored ⟨rel,storing⟩) ⟨0,none,false⟩ symValue
  · rw [if_pos named,if_neg named]
    cases symbolOf file call.c relocs.link symbols x.sym with
    | error stop => rfl
    | ok sym => exact applyFunc_eq reads applicable sym

end Machines

section Calls

variable {host : Bool} {file : RelocFile} {call : Call} {s : Sections}

/-- The sections that a call is about; `n` is the number of the one with the records. -/
structure Concerns (file : RelocFile) (call : Call) (n : Nat) (s : Sections) : Prop where
  sec : file.sections[call.sec]? = some s.sec
  relocate : s.sec.relocate = some n
  relocs : file.sections[n]? = some s.relocs
  symbols : file.sections[s.relocs.link]? = some s.symbols

/-- The condition on the file and on `sym_value` before a call -/
structure Orderly (file : RelocFile) (call : Call) (s : Sections) (symValue : UInt64) : Prop where
  wellFormed : WellFormed file s.relocs
  symtab : s.symbols.entsize ≠ 0
  above : file.type ≠ etRel → ∀ x ∈ records file s.relocs, s.sec.addr.toNat ≤ x.offset
  narrow : file.elf64 = false → s.sec.addr.toNat < 2 ^ 32
  applicable : file.type = etRel → ∀ x ∈ records file s.relocs, x.offset = call.offset.toNat →
    Applicable file call s.sec s.relocs symValue x

def Proper (file : RelocFile) (call : Call) (symValue : UInt64) : Prop :=
  (∃ sec, file.sections[call.sec]? = some sec ∧ sec.relocate = none) ∨
    ∃ n s, Concerns file call n s ∧ Orderly file call s symValue

/-- The exception of a call, if there is one, is an error that it reports. -/
def Raises {α : Type} (code : Code α) : Prop := ∀ stop, code = .error stop → stop ≠ .undefined ∧ stop ≠ .assertion

/-- A call does what is meant: nothing without records, and with them what the record says that is at the place. -/
structure Exact (file : RelocFile) (call : Call) (code : Code Outcome) : Prop where
  bare : ∀ sec, file.sections[call.sec]? = some sec → sec.relocate = none → code = .ok .nothing
  meant : ∀ n s, Concerns file call n s → code = meant file call s
  raises : Raises code

theorem Concerns.unique {n' : Nat} {s s' : Sections} (concerns : Concerns file call n s) (concerns' : Concerns file call n' s') :
    s = s' := by
  obtain ⟨sec,relocs,symbols⟩ := s
  obtain ⟨sec',relocs',symbols'⟩ := s'
  have first := concerns.sec.symm.trans concerns'.sec
  cases first
  have number := concerns.relocate.symm.trans concerns'.relocate
  cases number
  have second := concerns.relocs.symm.trans concerns'.relocs
  cases second
  have third := concerns.symbols.symm.trans concerns'.symbols
  cases third
  rfl

theorem recordAt_lt (elf : file.elf64 = true) (relocs : DataSection) (ix : Nat) : (recordAt file relocs ix).offset < 2 ^ 64 := by
  have below := number_lt file relocs (ix * relocs.entsize) file.width
  unfold RelocFile.width at below
  rw [if_pos elf] at below
  have same : (recordAt file relocs ix).offset = number file relocs (ix * relocs.entsize) file.width := rfl
  rw [same,RelocFile.width,if_pos elf]
  exact below

theorem recordAt_narrow (elf : file.elf64 = false) (relocs : DataSection) (ix : Nat) : (recordAt file relocs ix).offset < 2 ^ 32 := by
  have below := number_lt file relocs (ix * relocs.entsize) file.width
  unfold RelocFile.width at below
  rw [elf,if_neg Bool.false_ne_true] at below
  have same : (recordAt file relocs ix).offset = number file relocs (ix * relocs.entsize) file.width := rfl
  rw [same,RelocFile.width,elf,if_neg Bool.false_ne_true]
  exact below

theorem sectionOffset_eq (orderly : Orderly file call s symValue) (below : ix < recordCount s.relocs) :
    sectionOffset file s.sec (recordAt file s.relocs ix).offset + file.base s.sec = (recordAt file s.relocs ix).offset := by
  have listed : recordAt file s.relocs ix ∈ records file s.relocs :=
    List.mem_map_of_mem (List.mem_range.mpr below)
  unfold sectionOffset RelocFile.base
  by_cases rel : file.type = etRel
  · rw [if_pos rel,if_pos rel,Nat.add_zero]
  · rw [if_neg rel,if_neg rel]
    have above := orderly.above rel _ listed
    cases elf : file.elf64 with
    | true =>
      have fits := recordAt_lt elf s.relocs ix
      rw [if_pos rfl,UInt64.toNat_sub,UInt64.toNat_ofNat']
      omega
    | false =>
      have fits := recordAt_narrow elf s.relocs ix
      have small := orderly.narrow elf
      rw [if_neg Bool.false_ne_true,UInt32.toNat_sub,UInt32.toNat_ofNat',UInt64.toNat_toUInt32]
      omega

theorem probe_eq (orderly : Orderly file call s symValue) (below : ix < recordCount s.relocs) :
    probe host file s.sec s.relocs call.offset ix =
      compare (recordAt file s.relocs ix).offset (call.offset.toNat + file.base s.sec) := by
  unfold probe
  rw [recordOffset_eq orderly.wellFormed below]
  have shifted (a b c : Nat) : compare a b = compare (a + c) (b + c) := by
    simp only [Nat.compare_eq_ite_lt,Nat.add_lt_add_iff_right]
  exact (shifted _ _ (file.base s.sec)).trans (by rw [sectionOffset_eq orderly below])

/-- The boundaries that the table of a section has once it is built -/
def builtZones (file : RelocFile) (relocs : DataSection) : List Nat :=
  0 :: cuts (fun ix => (recordAt file relocs ix).offset) (recordCount relocs) 0 0

theorem zonesOf_eq {relocs : DataSection} (wellFormed : WellFormed file relocs) {known : List Nat}
    (built : known = [] ∨ known = builtZones file relocs) : zonesOf host file relocs known = .ok (builtZones file relocs) := by
  unfold zonesOf
  rcases built with rfl | rfl
  · rw [if_pos rfl,check,if_pos wellFormed.small]
    have table : findZones host file relocs (recordCount relocs) 0 0 2 [0] =
        .ok ([0] ++ cuts (fun ix => (recordAt file relocs ix).offset) (recordCount relocs) 0 0) :=
      findZones_eq (Nat.le_refl 2) fun k _ below => recordOffset_eq wellFormed (by omega)
    exact table
  · exact if_neg (List.cons_ne_nil _ _)

theorem found_record (host : Bool) (orderly : Orderly file call s symValue)
    (single : ((records file s.relocs).map RelocRecord.offset).Nodup) :
    (searchZones (probe host file s.sec s.relocs call.offset) (builtZones file s.relocs) = none ∧
      (records file s.relocs).find? (fun x => x.offset = call.offset.toNat + file.base s.sec) = none) ∨
    ∃ ix, ix < recordCount s.relocs ∧ searchZones (probe host file s.sec s.relocs call.offset) (builtZones file s.relocs) = some ix ∧
      (recordAt file s.relocs ix).offset = call.offset.toNat + file.base s.sec ∧
      (records file s.relocs).find? (fun x => x.offset = call.offset.toNat + file.base s.sec) = some (recordAt file s.relocs ix) := by
  have cut : Cut (fun ix => (recordAt file s.relocs ix).offset) (recordCount s.relocs) (builtZones file s.relocs) := by
    have whole : Cut (fun ix => (recordAt file s.relocs ix).offset) (0 + recordCount s.relocs) (builtZones file s.relocs) :=
      cuts_cut (Nat.le_refl 0) (by omega) (by omega)
    rwa [Nat.zero_add] at whole
  cases search : searchZones (probe host file s.sec s.relocs call.offset) (builtZones file s.relocs) with
  | none =>
    refine .inl ⟨rfl,List.find?_eq_none.mpr fun x member => ?_⟩
    obtain ⟨ix,inside,rfl⟩ := List.mem_map.mp member
    have missed := searchZones_none cut (fun k below => probe_eq orderly below) search ix (Nat.zero_le ix) (List.mem_range.mp inside)
    simpa using missed
  | some ix =>
    obtain ⟨below,there⟩ := searchZones_some cut search
    rw [probe_eq orderly below,Nat.compare_eq_eq] at there
    have listed : recordAt file s.relocs ix ∈ records file s.relocs := List.mem_map_of_mem (List.mem_range.mpr below)
    refine .inr ⟨ix,below,rfl,there,?_⟩
    cases first : (records file s.relocs).find? fun x => x.offset = call.offset.toNat + file.base s.sec with
    | none => exact absurd there (by simpa using List.find?_eq_none.mp first _ listed)
    | some y =>
      have same : y.offset = call.offset.toNat + file.base s.sec := by simpa using List.find?_some first
      rw [List.inj_on_of_nodup_map single (List.mem_of_find?_eq_some first) listed (same.trans there.symm)]

section Errors

variable {α β : Type}

theorem Raises.ok (a : α) : Raises (.ok a : Code α) := nofun

theorem Raises.failed (errno : Nat) : Raises (.error (.failed errno) : Code α) := by
  rintro stop ⟨⟩
  exact ⟨nofun,nofun⟩

theorem Raises.invalid (text : String) : Raises (.error (.invalid text) : Code α) := by
  rintro stop ⟨⟩
  exact ⟨nofun,nofun⟩

theorem Raises.bind {code : Code α} {next : α → Code β} (raises : Raises code) (then_ : ∀ a, code = .ok a → Raises (next a)) :
    Raises (code >>= next) := by
  cases code with
  | ok a => exact then_ a rfl
  | error stop =>
    intro stop' failed
    cases failed
    exact raises stop rfl

theorem Raises.check {holds : Prop} [Decidable holds] (text : String) : Raises (check holds (.invalid text)) := by
  unfold ElfSymbols.check
  split
  · exact .ok ()
  · exact .invalid text

theorem load_raises (sec : ElfSymbols.Section) : Raises sec.load := by
  unfold Section.load
  split
  · exact .ok ()
  · split
    · exact .ok ()
    · exact .failed _

theorem symbolName_raises (file : ElfFile) (tbl : ElfSymbols.Section) (stName : Nat) : Raises (symbolName file tbl stName) := by
  unfold symbolName
  split
  · exact .ok none
  · refine Raises.bind (.check _) fun _ _ => ?_
    split
    · exact .ok none
    · exact Raises.bind (.check _) fun _ _ => Raises.bind (load_raises _) fun _ _ => .ok _

theorem unpack_raises (file : ElfFile) (m index : Nat) {tbl : ElfSymbols.Section} (table : tbl.entsize ≠ 0) :
    Raises (unpackElfSymbolInfo file m index tbl) := by
  unfold unpackElfSymbolInfo
  rw [check,if_pos table]
  refine Raises.bind (.ok ()) fun _ _ => Raises.bind (.check _) fun _ _ => Raises.bind (load_raises tbl) fun _ _ => ?_
  exact Raises.bind (symbolName_raises _ _ _) fun _ _ => .ok _

theorem unpack_section {file : ElfFile} {m index : Nat} {tbl : ElfSymbols.Section} {info : ElfSymbolInfo}
    (unpacked : unpackElfSymbolInfo file m index tbl = .ok info) (of : info.section = some n) : n < file.sections.length := by
  rw [(unpack_ok unpacked).2.2] at of
  unfold ElfFile.sectionOf at of
  split at of
  · cases of
    exact ‹_ ∧ _›.2
  · cases of

theorem symbolOf_raises (c : Option SymbolAddress) (link index : Nat) {symbols : DataSection} (table : symbols.entsize ≠ 0) :
    Raises (symbolOf file c link symbols index) := by
  refine Raises.bind (unpack_raises _ _ _ table) fun info unpacked => ?_
  split
  · exact .ok _
  · split
    · cases c with
      | none => exact .invalid _
      | some elfSymbolAddress =>
        simp only
        split
        · exact .ok _
        · exact .failed _
    · split
      · exact .invalid _
      · split
        · exact .invalid _
        · rename_i n of
          split
          · rename_i missing
            have inside := unpack_section unpacked of
            rw [List.getElem?_eq_none_iff] at missing
            have same : file.toElfFile.sections.length = file.sections.length := List.length_map _
            omega
          · exact .ok _

theorem meantField_raises (sec : DataSection) (x : RelocRecord) (sym : Resolved) : Raises (meantField file call sec x sym) := by
  unfold meantField
  split
  · exact .ok _
  · split
    · exact .invalid _
    · unfold meantStored
      split
      · exact .ok _
      · split
        · exact .invalid _
        · split
          · exact .invalid _
          · exact .ok _

theorem meant_raises (orderly : Orderly file call s symValue) : Raises (meant file call s) := by
  refine Raises.bind (load_raises _) fun _ _ => Raises.bind (load_raises _) fun _ _ => Raises.bind (.check _) fun _ _ => ?_
  split
  · exact .ok _
  · unfold meantRecord
    refine Raises.bind ?_ fun sym _ => meantField_raises _ _ sym
    split
    · exact .ok _
    · exact symbolOf_raises _ _ _ orderly.symtab

end Errors

/-- The zone tables are those of their sections. -/
def TablesBuilt (files : Nat → RelocFile) (st : Statics) : Prop := ∀ f n relocs, (files f).sections[n]? = some relocs →
  st.zones f n = [] ∨ st.zones f n = builtZones (files f) relocs

theorem TablesBuilt.withZones {files : Nat → RelocFile} {st : Statics} (built : TablesBuilt files st) {f : Nat} {relocs : DataSection}
    (there : (files f).sections[n]? = some relocs) : TablesBuilt files (st.withZones f n (builtZones (files f) relocs)) := by
  intro f' n' relocs' there'
  unfold Statics.withZones
  by_cases same : f' = f ∧ n' = n
  · obtain ⟨rfl,rfl⟩ := same
    rw [there] at there'
    cases there'
    exact .inr (if_pos ⟨rfl,rfl⟩)
  · simp only [if_neg same]
    exact built f' n' relocs' there'

/-- At most one record for an offset -/
def Single (files : Nat → RelocFile) : Prop := ∀ f, ∀ sec ∈ (files f).sections, ∀ n relocs, sec.relocate = some n →
  (files f).sections[n]? = some relocs → ((records (files f) relocs).map RelocRecord.offset).Nodup

section Steps

variable {files : Nat → RelocFile} {st : Statics}

theorem concerns_call (host : Bool) (built : TablesBuilt files st) (single : Single files) (concerns : Concerns (files call.file) call n s)
    (orderly : Orderly (files call.file) call s st.symValue) :
    (drlRelocateInContext host files st call).2 = meant (files call.file) call s ∧
      TablesBuilt files (drlRelocateInContext host files st call).1 := by
  have zones : zonesOf host (files call.file) s.relocs (st.zones call.file n) = .ok (builtZones (files call.file) s.relocs) :=
    zonesOf_eq orderly.wellFormed (built _ _ _ concerns.relocs)
  have kept := built.withZones concerns.relocs
  have one := single call.file s.sec (List.mem_of_getElem? concerns.sec) n s.relocs concerns.relocate concerns.relocs
  unfold drlRelocateInContext meant
  simp only [concerns.sec,concerns.relocate,concerns.relocs,concerns.symbols,zones]
  cases s.relocs.toSection.load with
  | error stop => exact ⟨rfl,built⟩
  | ok _ =>
  cases s.symbols.toSection.load with
  | error stop => exact ⟨rfl,built⟩
  | ok _ =>
  by_cases sized : s.relocs.entsize ≠ 0 ∧ s.relocs.size.toNat % s.relocs.entsize = 0
  · rw [check,if_pos sized]
    simp only [bind,Except.bind]
    rcases found_record host orderly one with ⟨search,spec⟩ | ⟨ix,below,search,there,spec⟩
    · rw [spec]
      simp only [search]
      exact ⟨rfl,kept⟩
    · rw [spec]
      simp only [search]
      refine ⟨relocate_eq orderly.wellFormed below fun rel => ?_,kept⟩
      refine orderly.applicable rel _ (List.mem_map_of_mem (List.mem_range.mpr below)) ?_
      rw [there,RelocFile.base,if_pos rel,Nat.add_zero]
  · rw [check,if_neg sized]
    exact ⟨rfl,built⟩

/-- One call, in a state that calls have left -/
theorem call_exact (host : Bool) (built : TablesBuilt files st) (single : Single files) (proper : Proper (files call.file) call st.symValue) :
    Exact (files call.file) call (drlRelocateInContext host files st call).2 ∧
      TablesBuilt files (drlRelocateInContext host files st call).1 := by
  rcases proper with ⟨sec,there,bare⟩ | ⟨n,s,concerns,orderly⟩
  · have nothing : drlRelocateInContext host files st call = (st,.ok .nothing) := by
      unfold drlRelocateInContext
      simp only [there,bare]
    rw [nothing]
    refine ⟨⟨fun _ _ _ => rfl,fun n s concerns => ?_,.ok _⟩,built⟩
    have same := concerns.sec
    rw [there] at same
    cases same
    have some := concerns.relocate
    rw [bare] at some
    cases some
  · obtain ⟨code,kept⟩ := concerns_call host built single concerns orderly
    rw [code]
    refine ⟨⟨fun sec there bare => ?_,fun n' s' concerns' => ?_,meant_raises orderly⟩,kept⟩
    · rw [concerns.sec] at there
      cases there
      rw [concerns.relocate] at bare
      cases bare
    · rw [concerns.unique concerns']

theorem run_exact (single : Single files) (calls : List Call) (st : Statics) (built : TablesBuilt files st)
    (proper : ∀ step ∈ run host files st calls, Proper (files step.2.1.file) step.2.1 step.1.symValue) :
    ∀ step ∈ run host files st calls, Exact (files step.2.1.file) step.2.1 step.2.2 := by
  induction calls generalizing st with
  | nil => nofun
  | cons call calls ih =>
    obtain ⟨done,kept⟩ := call_exact host built single (proper _ List.mem_cons_self)
    have later := ih _ kept fun step member => proper step (List.mem_cons_of_mem _ member)
    exact List.forall_mem_cons.mpr ⟨done,later⟩

end Steps

section Examples

def noSymbol : ElfSym := ⟨0,0,0,0,0,0,0⟩

def emptySection : DataSection where
  name := none
  addr := 0
  size := 0
  link := 0
  entsize := 0
  symCount := 0
  loaded := false
  loadError := none
  symAt _ := noSymbol
  nameAt _ := []
  type := 0
  data _ := 0
  relocate := none

/-- Two fields of eight bytes -/
def fields : DataSection := { emptySection with size := 16, relocate := some 2 }

/-- Both fields are R_X86_64_64, the first one with symbol 1, the second one without a symbol and 5 to add. -/
def fieldRecords : DataSection := { emptySection with
  size := 48
  link := 3
  entsize := 24
  type := shtRela
  data := fun pos => if pos = 8 then 1 else if pos = 12 then 1 else if pos = 24 then 8 else if pos = 32 then 1
    else if pos = 40 then 5 else 0 }

/-- Symbol 1 is absolute with the value 7. -/
def symbolTable : DataSection := { emptySection with
  size := 48
  entsize := 24
  symAt := fun pos => if pos = 24 then ⟨0,shnAbs,1,0,7,0,0⟩ else noSymbol }

def objectFile : RelocFile := ⟨true,false,etRel,emX86_64,[emptySection,fields,fieldRecords,symbolTable]⟩

def field (offset : UInt64) : Call := ⟨none,0,1,offset,8⟩

theorem objectFile_records : records objectFile fieldRecords = [⟨0,1,1,some 0⟩,⟨8,0,1,some 5⟩] := by
  decide

theorem objectFile_single : Single fun _ => objectFile := by
  intro f sec member n relocs known there
  simp only [objectFile,List.mem_cons,List.not_mem_nil,or_false] at member
  rcases member with rfl | rfl | rfl | rfl
  · cases known
  · cases known
    cases there
    rw [objectFile_records]
    decide
  · cases known
  · cases known

def objectSections : Sections := ⟨fields,fieldRecords,symbolTable⟩

theorem field_concerns (offset : UInt64) : Concerns objectFile (field offset) 2 objectSections := ⟨rfl,rfl,rfl,rfl⟩

theorem second_meant : meant objectFile (field 8) objectSections = .ok ⟨some ⟨8,5⟩,none,false⟩ := by
  rfl

theorem field_proper (offset : UInt64) : Proper objectFile (field offset) 0 := by
  refine .inr ⟨2,objectSections,field_concerns offset,?_⟩
  exact {
    wellFormed := ⟨by decide,by decide⟩
    symtab := by decide
    above := fun other => absurd rfl other
    narrow := nofun
    applicable := fun _ x _ _ => {
      machine := by decide
      named := fun _ _ => rfl
      addend := nofun } }

theorem second_then_first : (run false (fun _ => objectFile) .init [field 8,field 0]).map (fun step => (step.1.symValue,step.2.1)) =
    [(0,field 8),(0,field 0)] := by
  rfl

theorem fields_proper : ∀ step ∈ run false (fun _ => objectFile) .init [field 8,field 0], Proper objectFile step.2.1 step.1.symValue := by
  intro step member
  have listed := List.mem_map_of_mem (f := fun step => (step.1.symValue,step.2.1)) member
  rw [second_then_first] at listed
  rcases List.mem_cons.mp listed with same | listed
  · obtain ⟨value,call⟩ := Prod.mk.inj same
    rw [value,call]
    exact field_proper 8
  · obtain ⟨value,call⟩ := Prod.mk.inj (List.mem_singleton.mp listed)
    rw [value,call]
    exact field_proper 0

theorem first_then_second : (run false (fun _ => objectFile) .init [field 0,field 8]).map (fun step => step.2) =
    [(field 0,.ok ⟨some ⟨8,7⟩,none,false⟩),(field 8,.ok ⟨some ⟨8,12⟩,none,false⟩)] := by
  rfl

end Examples

end Calls

end Tcf.DwarfReloc
