import Tcf.CodeAreas

/-! The areas that come out of the wire, and when they are the ones that went in. -/
namespace Tcf.CodeAreas

open Framing Json

section Texts

variable (m : Memory)

def optional (c : Prop) [Decidable c] (name : String) (text : List UInt8) : List Input :=
  if c then [memberText name (text.map .byte)] else []

def pointerText (p : Option Pointer) : List UInt8 :=
  match p with
  | none => literal "null"
  | some p => quoted (clipped (m.text p))

/-- The members that are written for an area, apart from its address. -/
def otherMembers (prev : Option (CodeArea Pointer)) (area : CodeArea Pointer) : List Input :=
  optional (0 < area.startLine.toInt) "SLine" (decimal area.startLine.toInt.toNat) ++
  (optional (0 < area.startLine.toInt ∧ 0 < area.startColumn.toInt) "SCol" (decimal area.startColumn.toInt.toNat) ++
  (optional (area.endAddress ≠ 0) "EAddr" (decimal area.endAddress.toNat) ++
  (optional (0 < area.endLine.toInt) "ELine" (decimal area.endLine.toInt.toNat) ++
  (optional (0 < area.endLine.toInt ∧ 0 < area.endColumn.toInt) "ECol" (decimal area.endColumn.toInt.toNat) ++
  (optional (area.nextAddress ≠ 0) "NAddr" (decimal area.nextAddress.toNat) ++
  (optional (area.file ≠ none ∧ ∀ p ∈ prev, p.file ≠ area.file) "File" (pointerText m area.file) ++
  (optional (area.directory ≠ none ∧ ∀ p ∈ prev, p.directory ≠ area.directory) "Dir" (pointerText m area.directory) ++
  (optional (0 < area.isa.toInt) "ISA" (decimal area.isa.toInt.toNat) ++
  (optional (area.isStatement = true) "IsStmt" (literal "true") ++
  (optional (area.basicBlock = true) "BasicBlock" (literal "true") ++
  (optional (area.prologueEnd = true) "PrologueEnd" (literal "true") ++
  (optional (area.epilogueBegin = true) "EpilogueBegin" (literal "true") ++
  (optional (area.opIndex ≠ 0) "OpIndex" (signed area.opIndex.toInt) ++
  optional (area.discriminator ≠ 0) "Discriminator" (signed area.discriminator.toInt))))))))))))))

def areaText (prev : Option (CodeArea Pointer)) (area : CodeArea Pointer) : Input :=
  .byte 0x7b :: separated 0x7d
    (memberText "SAddr" ((decimal area.startAddress.toNat).map .byte) :: otherMembers m prev area)

/-- The texts of areas behind `prev`. -/
def areaTexts (prev : CodeArea Pointer) : List (CodeArea Pointer) → List Input
  | [] => []
  | area :: rest => areaText m (some prev) area :: areaTexts area rest

def replyText (areas : List (CodeArea Pointer)) : Input :=
  .byte 0 :: ((match areas with
    | [] => (literal "null").map .byte
    | area :: rest => .byte 0x5b :: separated 0x5d (areaText m none area :: areaTexts m area rest)) ++ [.byte 0,.eom])

end Texts

section Writing

variable {σ : Type} {S : OutStream σ} (m : Memory)

@[simp] theorem optional_text (c : Prop) [Decidable c] (name : String) (text : List UInt8) :
    (optional c name text).flatMap (.byte comma :: ·) =
      if c then .byte comma :: memberText name (text.map .byte) else [] := by
  by_cases holds : c <;> simp [optional,holds]

theorem appends_optional {c : Prop} [Decidable c] {name : String} {value : σ → Code σ} {text : List UInt8}
    (isName : IsName name) (writes : c → Appends S value (text.map .byte)) :
    Appends S (writeIf c (writeNext S name value)) ((optional c name text).flatMap (.byte comma :: ·)) := by
  rw [optional_text]
  exact appends_if fun holds => appends_next isName (writes holds)

/-- A line, and a column only behind a line. -/
theorem appends_pair {c d : Prop} [Decidable c] [Decidable d] {name name' : String} {value value' : σ → Code σ}
    {text text' : List UInt8} (isName : IsName name) (isName' : IsName name')
    (writes : Appends S value (text.map .byte)) (writes' : Appends S value' (text'.map .byte)) :
    Appends S (writeIf c fun s => do let s ← writeNext S name value s; writeIf d (writeNext S name' value') s)
      ((optional c name text).flatMap (.byte comma :: ·) ++
        (optional (c ∧ d) name' text').flatMap (.byte comma :: ·)) := by
  have both := appends_if fun _ : c => appends_bind (appends_next isName writes)
    (appends_if fun _ : d => appends_next isName' writes')
  by_cases holds : c
  · simpa [holds] using both
  · simpa [holds] using both

theorem appends_pointer {p : Option Pointer} (some_ : p ≠ none) :
    Appends S (writePointer S m p) ((pointerText m p).map .byte) := by
  cases p with
  | none => exact absurd rfl some_
  | some p => exact appends_clipped (m.nulFree p) (m.junk p)

theorem appends_true : Appends S (jsonWriteBoolean S · true) ((literal "true").map .byte) := appends_string _

theorem appends_area (prev : Option (CodeArea Pointer)) (area : CodeArea Pointer) :
    Appends S (writeCodeArea S m area prev) (areaText m prev area) := by
  have text := appends_bind (appends_byte (S := S) 0x7b) (appends_bind
    (appends_member (by decide : IsName "SAddr") (appends_ulong area.startAddress.toNat)) (appends_bind
    (appends_pair (c := 0 < area.startLine.toInt) (d := 0 < area.startColumn.toInt) (by decide : IsName "SLine")
      (by decide : IsName "SCol") (appends_ulong area.startLine.toInt.toNat) (appends_ulong area.startColumn.toInt.toNat)) (appends_bind
    (appends_optional (c := area.endAddress ≠ 0) (by decide : IsName "EAddr") fun _ => appends_ulong area.endAddress.toNat) (appends_bind
    (appends_pair (c := 0 < area.endLine.toInt) (d := 0 < area.endColumn.toInt) (by decide : IsName "ELine")
      (by decide : IsName "ECol") (appends_ulong area.endLine.toInt.toNat) (appends_ulong area.endColumn.toInt.toNat)) (appends_bind
    (appends_optional (c := area.nextAddress ≠ 0) (by decide : IsName "NAddr") fun _ => appends_ulong area.nextAddress.toNat) (appends_bind
    (appends_optional (c := area.file ≠ none ∧ ∀ p ∈ prev, p.file ≠ area.file) (by decide : IsName "File")
      fun given => appends_pointer m given.1) (appends_bind
    (appends_optional (c := area.directory ≠ none ∧ ∀ p ∈ prev, p.directory ≠ area.directory) (by decide : IsName "Dir")
      fun given => appends_pointer m given.1) (appends_bind
    (appends_optional (c := 0 < area.isa.toInt) (by decide : IsName "ISA") fun _ => appends_ulong area.isa.toInt.toNat) (appends_bind
    (appends_optional (c := area.isStatement = true) (by decide : IsName "IsStmt") fun _ => appends_true) (appends_bind
    (appends_optional (c := area.basicBlock = true) (by decide : IsName "BasicBlock") fun _ => appends_true) (appends_bind
    (appends_optional (c := area.prologueEnd = true) (by decide : IsName "PrologueEnd") fun _ => appends_true) (appends_bind
    (appends_optional (c := area.epilogueBegin = true) (by decide : IsName "EpilogueBegin") fun _ => appends_true) (appends_bind
    (appends_optional (c := area.opIndex ≠ 0) (by decide : IsName "OpIndex") fun _ => appends_long area.opIndex.toInt) (appends_bind
    (appends_optional (c := area.discriminator ≠ 0) (by decide : IsName "Discriminator")
      fun _ => appends_long area.discriminator.toInt)
    (appends_byte 0x7d)))))))))))))))
  simp only [List.append_assoc] at text
  simp only [areaText,separated,otherMembers,List.flatMap_append,List.append_assoc]
  exact text

theorem appends_lines (prev : CodeArea Pointer) (areas : List (CodeArea Pointer)) :
    Appends S (writeLineInfo S m prev areas) ((areaTexts m prev areas).flatMap (.byte comma :: ·)) := by
  induction areas generalizing prev with
  | nil => exact appends_nothing
  | cons area rest ih =>
    have text := appends_bind (appends_byte (S := S) comma) (appends_bind (appends_area m (some prev) area) (ih area))
    simp only [areaTexts,List.flatMap_cons]
    exact text

theorem appends_areas (areas : List (CodeArea Pointer)) :
    Appends S (writeAreas S m areas) (replyText m areas) := by
  cases areas with
  | nil =>
    exact appends_bind (appends_byte 0) (appends_bind (appends_string _) appends_eom)
  | cons area rest =>
    have text := appends_bind (appends_byte (S := S) 0) (appends_bind (appends_bind (appends_byte 0x5b) (appends_bind
      (appends_area m none area) (appends_bind (appends_lines m area rest) (appends_bind (appends_byte 0x5d)
      (appends_byte 0))))) appends_eom)
    simp only [replyText,separated,List.append_assoc,List.cons_append,List.nil_append] at text ⊢
    exact text

end Writing

section Reading

variable (m : Memory)

/-- The string that is read for a pointer if it was written. -/
def receivedString (p : Option Pointer) (written : Prop) [Decidable written] : Option (List UInt8) :=
  if p ≠ none ∧ written then p.map fun p => clipped (m.text p) ++ [0] else none

/-- A value that was written on a condition. -/
def given {α : Type} (c : Prop) [Decidable c] (value old : α) : α := if c then value else old

/-- What is read of an area. -/
def received (prev : Option (CodeArea Pointer)) (area : CodeArea Pointer) : ReadArea where
  directory := receivedString m area.directory (∀ p ∈ prev, p.directory ≠ area.directory)
  file := receivedString m area.file (∀ p ∈ prev, p.file ≠ area.file)
  fileMtime := 0
  fileSize := 0
  startAddress := area.startAddress
  startLine := given (0 < area.startLine.toInt) area.startLine 0
  startColumn := given (0 < area.startLine.toInt ∧ 0 < area.startColumn.toInt) area.startColumn 0
  endAddress := given (area.endAddress ≠ 0) area.endAddress 0
  endLine := given (0 < area.endLine.toInt) area.endLine 0
  endColumn := given (0 < area.endLine.toInt ∧ 0 < area.endColumn.toInt) area.endColumn 0
  nextAddress := given (area.nextAddress ≠ 0) area.nextAddress 0
  isa := given (0 < area.isa.toInt) area.isa 0
  isStatement := given (area.isStatement = true) true false
  basicBlock := given (area.basicBlock = true) true false
  prologueEnd := given (area.prologueEnd = true) true false
  epilogueBegin := given (area.epilogueBegin = true) true false
  opIndex := given (area.opIndex ≠ 0) area.opIndex 0
  discriminator := given (area.discriminator ≠ 0) area.discriminator 0

/-- A field that a member sets to what `read` returns, and that keeps its value when the member is not written. -/
theorem runs_given {α τ : Type} {callBack : List UInt8 → τ → Input → Code (τ × Input)} {c : Prop} [Decidable c] {name : String}
    {read : Input → Code (α × Input)} {text : List UInt8} {value : α} {st : τ} (set : α → τ) (old : α) (same : set old = st)
    (isName : IsName name) (props : callBack (literal name) st = fun inp => do let (v,inp) ← read inp; pure (set v,inp))
    (reads : c → Reads read (text.map .byte) value) :
    Runs (readMember callBack) st (optional c name text) (set (given c value old)) := by
  by_cases holds : c
  · have member : Reads (callBack (literal name) st) (text.map .byte) (set value) := by
      rw [props]
      exact reads_map set (reads holds)
    rw [optional,given,if_pos holds,if_pos holds]
    exact .cons (reads_member isName member) .nil
  · rw [optional,given,if_neg holds,if_neg holds,same]
    exact .nil

theorem runs_field {α : Type} {c : Prop} [Decidable c] {name : String} {read : Input → Code (α × Input)}
    {text : List UInt8} {value : α} (st : ReadArea) (set : α → ReadArea) (old : α) (same : set old = st) (isName : IsName name)
    (props : readCodeAreaProps (literal name) st = fun inp => do let (v,inp) ← read inp; pure (set v,inp))
    (reads : c → Reads read (text.map .byte) value) :
    Runs (readMember readCodeAreaProps) st (optional c name text) (set (given c value old)) :=
  runs_given set old same isName props reads

theorem reads_pointer {p : Option Pointer} {written : Prop} [Decidable written] (is : p ≠ none ∧ written) :
    Reads jsonReadAllocString ((pointerText m p).map .byte) (receivedString m p written) := by
  rw [receivedString,if_pos is]
  cases p with
  | none => exact absurd rfl is.1
  | some p => exact reads_alloc_string _

theorem receivedString_given (p : Option Pointer) (written : Prop) [Decidable written] :
    given (p ≠ none ∧ written) (receivedString m p written) none = receivedString m p written := by
  by_cases holds : p ≠ none ∧ written
  · rw [given,if_pos holds]
  · rw [given,receivedString,if_neg holds,if_neg holds]

theorem runs_other (prev : Option (CodeArea Pointer)) (area : CodeArea Pointer) :
    Runs (readMember readCodeAreaProps) { CodeArea.zero with startAddress := area.startAddress }
      (otherMembers m prev area) (received m prev area) := by
  have sLine := fun st : ReadArea => runs_field (c := 0 < area.startLine.toInt) st (fun n => { st with startLine := n })
    st.startLine rfl (by decide : IsName "SLine") rfl fun positive => reads_int_ulong (Int.le_of_lt positive)
  have sCol := fun st : ReadArea => runs_field (c := 0 < area.startLine.toInt ∧ 0 < area.startColumn.toInt)
    st (fun n => { st with startColumn := n }) st.startColumn rfl (by decide : IsName "SCol") rfl
    fun positive => reads_int_ulong (Int.le_of_lt positive.2)
  have eAddr := fun st : ReadArea => runs_field (c := area.endAddress ≠ 0) st (fun n => { st with endAddress := n })
    st.endAddress rfl (by decide : IsName "EAddr") rfl fun _ => reads_uint64 area.endAddress
  have eLine := fun st : ReadArea => runs_field (c := 0 < area.endLine.toInt) st (fun n => { st with endLine := n })
    st.endLine rfl (by decide : IsName "ELine") rfl fun positive => reads_int_ulong (Int.le_of_lt positive)
  have eCol := fun st : ReadArea => runs_field (c := 0 < area.endLine.toInt ∧ 0 < area.endColumn.toInt)
    st (fun n => { st with endColumn := n }) st.endColumn rfl (by decide : IsName "ECol") rfl
    fun positive => reads_int_ulong (Int.le_of_lt positive.2)
  have nAddr := fun st : ReadArea => runs_field (c := area.nextAddress ≠ 0) st (fun n => { st with nextAddress := n })
    st.nextAddress rfl (by decide : IsName "NAddr") rfl fun _ => reads_uint64 area.nextAddress
  have file := fun st : ReadArea => runs_field st (fun str => { st with file := str }) st.file rfl
    (by decide : IsName "File") rfl fun given => @reads_pointer m area.file (∀ p ∈ prev, p.file ≠ area.file) _ given
  have dir := fun st : ReadArea => runs_field st (fun str => { st with directory := str }) st.directory rfl
    (by decide : IsName "Dir") rfl
    fun given => @reads_pointer m area.directory (∀ p ∈ prev, p.directory ≠ area.directory) _ given
  have isa := fun st : ReadArea => runs_field (c := 0 < area.isa.toInt) st (fun n => { st with isa := n }) st.isa rfl
    (by decide : IsName "ISA") rfl fun positive => reads_int_ulong (Int.le_of_lt positive)
  have isStmt := fun st : ReadArea => runs_field (c := area.isStatement = true) st (fun b => { st with isStatement := b })
    st.isStatement rfl (by decide : IsName "IsStmt") rfl fun _ => reads_true
  have basicBlock := fun st : ReadArea => runs_field (c := area.basicBlock = true) st (fun b => { st with basicBlock := b })
    st.basicBlock rfl (by decide : IsName "BasicBlock") rfl fun _ => reads_true
  have prologueEnd := fun st : ReadArea => runs_field (c := area.prologueEnd = true) st (fun b => { st with prologueEnd := b })
    st.prologueEnd rfl (by decide : IsName "PrologueEnd") rfl fun _ => reads_true
  have epilogueBegin := fun st : ReadArea => runs_field (c := area.epilogueBegin = true)
    st (fun b => { st with epilogueBegin := b }) st.epilogueBegin rfl (by decide : IsName "EpilogueBegin") rfl fun _ => reads_true
  have opIndex := fun st : ReadArea => runs_field (c := area.opIndex ≠ 0) st (fun n => { st with opIndex := n }) st.opIndex rfl
    (by decide : IsName "OpIndex") rfl fun _ => reads_int area.opIndex
  have discriminator := fun st : ReadArea => runs_field (c := area.discriminator ≠ 0)
    st (fun n => { st with discriminator := n }) st.discriminator rfl (by decide : IsName "Discriminator") rfl
    fun _ => reads_int area.discriminator
  have all := (sLine { CodeArea.zero with startAddress := area.startAddress }).append ((sCol _).append ((eAddr _).append
    ((eLine _).append ((eCol _).append ((nAddr _).append ((file _).append ((dir _).append ((isa _).append ((isStmt _).append
    ((basicBlock _).append ((prologueEnd _).append ((epilogueBegin _).append ((opIndex _).append (discriminator _))))))))))))))
  simp only [CodeArea.zero,receivedString_given] at all
  exact all

theorem reads_area (prev : Option (CodeArea Pointer)) (area : CodeArea Pointer) :
    Reads readCodeArea (areaText m prev area) (received m prev area) := by
  have address : Reads (readMember readCodeAreaProps CodeArea.zero)
      (memberText "SAddr" ((decimal area.startAddress.toNat).map .byte))
      { CodeArea.zero with startAddress := area.startAddress } :=
    reads_member (by decide : IsName "SAddr") (reads_map
      (fun n : BitVec 64 => ({ CodeArea.zero with startAddress := n } : ReadArea)) (reads_uint64 area.startAddress))
  have struct := readBracketed_text (.inl ⟨rfl,rfl⟩) (begins_member _ _) (.cons address (runs_other m prev area))
  exact reads_map Prod.snd struct

def receivedAreas (prev : CodeArea Pointer) : List (CodeArea Pointer) → List ReadArea
  | [] => []
  | area :: rest => received m (some prev) area :: receivedAreas area rest

def receivedAll : List (CodeArea Pointer) → List ReadArea
  | [] => []
  | area :: rest => received m none area :: receivedAreas m area rest

theorem reads_item (buf : List ReadArea) (prev : Option (CodeArea Pointer)) (area : CodeArea Pointer) :
    Reads (readCodeAreaArray buf) (areaText m prev area) (buf ++ [received m prev area]) :=
  reads_map (fun area => buf ++ [area]) (reads_area m prev area)

theorem runs_areas (buf : List ReadArea) (prev : CodeArea Pointer) (areas : List (CodeArea Pointer)) :
    Runs readCodeAreaArray buf (areaTexts m prev areas) (buf ++ receivedAreas m prev areas) := by
  induction areas generalizing buf prev with
  | nil =>
    rw [receivedAreas,List.append_nil]
    exact .nil
  | cons area rest ih =>
    have later := ih (buf ++ [received m (some prev) area]) area
    rw [List.append_assoc] at later
    exact .cons (reads_item m buf (some prev) area) later

theorem begins_area (prev : Option (CodeArea Pointer)) (area : CodeArea Pointer) : Begins (areaText m prev area) :=
  ⟨0x7b,_,rfl,rfl,by decide,by decide⟩

theorem readErrno_zero (readErrorObject : Input → Code (Nat × Input)) (inp : Input) :
    readErrno readErrorObject (.byte 0 :: inp) = .ok (0,inp) := by
  cases inp <;> rfl

theorem readReply_text (readErrorObject : Input → Code (Nat × Input)) (areas : List (CodeArea Pointer)) (rest : Input) :
    readReply readErrorObject (replyText m areas ++ rest) = .ok ((0,receivedAll m areas),rest) := by
  have ending : jsonTestChar 0 (.byte 0 :: .eom :: rest) = .ok (.eom :: rest) := rfl
  have last : jsonTestEom (.eom :: rest) = .ok rest := rfl
  have array : ∃ some_ text, replyText m areas = .byte 0 :: (text ++ [.byte 0,.eom]) ∧
      Reads (jsonReadArray readCodeAreaArray []) text (some_,receivedAll m areas) := by
    cases areas with
    | nil => exact ⟨false,_,rfl,readBracketed_null _ _ _ _⟩
    | cons area others =>
      have run := Runs.cons (reads_item m [] none area) (runs_areas m [received m none area] area others)
      exact ⟨true,_,rfl,readBracketed_text (.inr ⟨rfl,rfl⟩) (begins_area m none area) run⟩
  obtain ⟨some_,text,whole,reads⟩ := array
  have reads' := reads 0 (.eom :: rest) (by decide)
  have same : replyText m areas ++ rest = .byte 0 :: (text ++ .byte 0 :: .eom :: rest) := by simp [whole]
  rw [readReply,same,readErrno_zero]
  simp only [Code.ok_bind,reads',ending,last,Code.pure_eq]

end Reading

/-! When nothing is lost. -/

section Carrying

variable (m : Memory)

/-- The area is the same after the wire: it has no time and size of its file, no negative numbers, no column
without a line, and its strings are not those of the area in front. -/
structure Carries (prev : Option (CodeArea Pointer)) (area : CodeArea Pointer) : Prop where
  mtime : area.fileMtime = 0
  size : area.fileSize = 0
  startLine : 0 ≤ area.startLine.toInt
  startColumn : 0 ≤ area.startColumn.toInt ∧ (0 < area.startColumn.toInt → 0 < area.startLine.toInt)
  endLine : 0 ≤ area.endLine.toInt
  endColumn : 0 ≤ area.endColumn.toInt ∧ (0 < area.endColumn.toInt → 0 < area.endLine.toInt)
  isa : 0 ≤ area.isa.toInt
  file : ∀ s ∈ area.file, (∀ p ∈ prev, p.file ≠ area.file) ∧ ShortRuns (m.text s)
  directory : ∀ s ∈ area.directory, (∀ p ∈ prev, p.directory ≠ area.directory) ∧ ShortRuns (m.text s)

theorem received_string_iff (p : Option Pointer) (written : Prop) [Decidable written] :
    receivedString m p written = p.map m.string ↔ ∀ s ∈ p, written ∧ ShortRuns (m.text s) := by
  cases p with
  | none => simp [receivedString]
  | some s =>
    by_cases holds : written
    · simp [receivedString,holds,Memory.string,clipped_eq_iff]
    · simp [receivedString,holds]

theorem given_eq_iff {w : Nat} {c : Prop} [Decidable c] (n : BitVec w) : given c n 0 = n ↔ (¬c → n.toInt = 0) := by
  by_cases holds : c
  · simp [given,holds]
  · rw [given,if_neg holds]
    constructor
    · intro same _
      rw [← same]
      exact BitVec.toInt_zero
    · intro zero
      exact (BitVec.eq_of_toInt_eq ((zero holds).trans BitVec.toInt_zero.symm)).symm

theorem given_positive (n : BitVec 32) : given (0 < n.toInt) n 0 = n ↔ 0 ≤ n.toInt := by
  rw [given_eq_iff]
  omega

theorem given_column (line n : BitVec 32) :
    given (0 < line.toInt ∧ 0 < n.toInt) n 0 = n ↔ 0 ≤ n.toInt ∧ (0 < n.toInt → 0 < line.toInt) := by
  rw [given_eq_iff]
  omega

theorem given_nonzero {w : Nat} (n : BitVec w) : given (n ≠ 0) n 0 = n := by
  rw [given_eq_iff]
  simp +contextual

theorem given_flag (b : Bool) : given (b = true) true false = b := by cases b <;> rfl

theorem received_eq_iff (prev : Option (CodeArea Pointer)) (area : CodeArea Pointer) :
    received m prev area = area.map m.string ↔ Carries m prev area := by
  simp only [received,CodeArea.map,CodeArea.mk.injEq,given_positive,given_column,given_nonzero,given_flag,
    received_string_iff,true_and,and_true]
  constructor
  · rintro ⟨directory,file,mtime,size,startLine,startColumn,endLine,endColumn,isa⟩
    exact ⟨mtime.symm,size.symm,startLine,startColumn,endLine,endColumn,isa,file,directory⟩
  · rintro ⟨mtime,size,startLine,startColumn,endLine,endColumn,isa,file,directory⟩
    exact ⟨directory,file,mtime.symm,size.symm,startLine,startColumn,endLine,endColumn,isa⟩

/-- Each area is the same after the wire, given the one in front. -/
def CarriesFrom (prev : Option (CodeArea Pointer)) : List (CodeArea Pointer) → Prop
  | [] => True
  | area :: rest => Carries m prev area ∧ CarriesFrom (some area) rest

theorem receivedAreas_eq_iff (prev : CodeArea Pointer) (areas : List (CodeArea Pointer)) :
    receivedAreas m prev areas = areas.map (CodeArea.map m.string) ↔ CarriesFrom m (some prev) areas := by
  induction areas generalizing prev with
  | nil => simp [receivedAreas,CarriesFrom]
  | cons area rest ih => simp [receivedAreas,CarriesFrom,received_eq_iff,ih]

theorem receivedAll_eq_iff (areas : List (CodeArea Pointer)) :
    receivedAll m areas = areas.map (CodeArea.map m.string) ↔ CarriesFrom m none areas := by
  cases areas with
  | nil => simp [receivedAll,CarriesFrom]
  | cons area rest => simp [receivedAll,CarriesFrom,received_eq_iff,receivedAreas_eq_iff]

end Carrying

section Proxy

variable (readErrorObject : Input → Code (Nat × Input))

theorem ask_new {cache : LineNumbersCache} {ctx : Nat} {query : Query} (new : (ask cache ctx query).1 = .wait true) :
    cache.serviceAvailable = true ∧
      (ask cache ctx query).2 = { cache with entries := ⟨ctx,query,true,none,[]⟩ :: cache.entries } := by
  unfold ask at new ⊢
  cases available : cache.serviceAvailable with
  | false => simp [available] at new
  | true =>
    simp only [available,Bool.true_eq_false,if_false] at new ⊢
    cases found : cache.entries.find? fun c => c.ctx = ctx ∧ c.query = query with
    | none => simp
    | some entry =>
      rw [found] at new
      dsimp only at new
      split at new
      next => cases new
      next =>
        split at new <;> cases new

/-- A query that has sent its command calls its client with the areas of the reply. -/
theorem ask_again {cache : LineNumbersCache} {ctx : Nat} {query : Query} (new : (ask cache ctx query).1 = .wait true)
    {areas : List ReadArea} {inp rest : Input} (read : readReply readErrorObject inp = .ok ((0,areas),rest)) :
    (ask (processReply readErrorObject (ask cache ctx query).2 ctx query 0 inp) ctx query).1 = .call areas := by
  obtain ⟨available,after⟩ := ask_new new
  have same : (if areas = [] then [] else areas) = areas := by
    split
    next empty => exact empty.symm
    next => rfl
  have entry : validateCacheEntry readErrorObject ⟨ctx,query,true,none,[]⟩ 0 inp = ⟨ctx,query,false,none,areas⟩ := by
    simp [validateCacheEntry,read,same]
  rw [after,processReply,ask]
  simp [available,entry]

/-- What a client of the proxy is called with, of the areas that the agent wrote as `text`. -/
def SameAreas (m : Memory) (areas : List (CodeArea Pointer)) (text : Input) : Prop :=
  (∀ (readErrorObject : Input → Code (Nat × Input)) cache ctx file line column rest,
    (lineToAddress cache ctx file line column).1 = .wait true →
    (lineToAddress (processReply readErrorObject (lineToAddress cache ctx file line column).2 ctx
      (.position file line column) 0 (text ++ rest)) ctx file line column).1 = .call (areas.map (CodeArea.map m.string))) ∧
  ∀ (readErrorObject : Input → Code (Nat × Input)) cache ctx addr0 addr1 rest,
    (addressToLine cache ctx addr0 addr1).1 = .wait true →
    (addressToLine (processReply readErrorObject (addressToLine cache ctx addr0 addr1).2 ctx (.range addr0 addr1) 0
      (text ++ rest)) ctx addr0 addr1).1 = .call (areas.map (CodeArea.map m.string))

theorem sameAreas_iff (m : Memory) (areas : List (CodeArea Pointer)) :
    SameAreas m areas (replyText m areas) ↔ receivedAll m areas = areas.map (CodeArea.map m.string) := by
  constructor
  · rintro ⟨same,_⟩
    have new : (lineToAddress ⟨true,[]⟩ 0 [] 0 0).1 = .wait true := rfl
    have answer := same (fun _ => .error .exception) ⟨true,[]⟩ 0 [] 0 0 [] new
    have read := readReply_text m (fun _ => .error .exception) areas []
    exact Answer.call.inj ((ask_again _ new read).symm.trans answer)
  · intro same
    rw [SameAreas,← same]
    exact ⟨fun readErrorObject cache ctx file line column rest new =>
        ask_again _ new (readReply_text m readErrorObject areas rest),
      fun readErrorObject cache ctx addr0 addr1 rest new =>
        ask_again _ new (readReply_text m readErrorObject areas rest)⟩

end Proxy

/-- Exactly these lists of areas come through the wire. -/
theorem areas_survive_iff {σ : Type} (S : OutStream σ) (m : Memory) (areas : List (CodeArea Pointer)) :
    ∃ text, Appends S (writeAreas S m areas) text ∧ (SameAreas m areas text ↔ CarriesFrom m none areas) :=
  ⟨replyText m areas,appends_areas m areas,(sameAreas_iff m areas).trans (receivedAll_eq_iff m areas)⟩

/-- The strings of a small agent. -/
def oneFile : Memory where
  text _ := literal "main.c"
  junk _ := []
  nulFree _ := by decide

def firstArea : CodeArea Pointer := { CodeArea.zero with file := some 16, startAddress := 0x1000, startLine := 1 }
def secondArea : CodeArea Pointer := { CodeArea.zero with file := some 16, startAddress := 0x1004, startLine := 2 }

/-- The second area of a file has no file in the proxy. -/
theorem second_area_loses_file :
    ∃ text, Appends smallTcp (writeAreas smallTcp oneFile [firstArea,secondArea]) text ∧
      ¬SameAreas oneFile [firstArea,secondArea] text := by
  refine ⟨replyText oneFile [firstArea,secondArea],appends_areas oneFile _,?_⟩
  rw [sameAreas_iff,receivedAll_eq_iff]
  rintro ⟨_,second,_⟩
  exact (second.file 16 rfl).1 firstArea rfl rfl

end Tcf.CodeAreas
