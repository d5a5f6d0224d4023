import Tcf.LineLoading
import Tcf.LineRows

/-! Which sections of line numbers the loader gets through, and what it leaves behind when it does not. -/
namespace Tcf.Dwarf

open ByteNumbers

section Hazards

/-- A number that goes on where the loop cannot shift any more. -/
def Overlong (width : Nat) (bytes : List UInt8) : Prop :=
  ∃ front more, bytes = front ++ more ∧ more ≠ [] ∧ (∀ byte ∈ front, 128 ≤ byte.toNat) ∧ width ≤ 7 * front.length

/-- One of the three numbers behind the name of a file is. -/
def OverlongFile (bytes : List UInt8) : Prop :=
  Overlong 32 bytes ∨ ∃ (dir : Leb) (later : List UInt8), bytes = dir.bytes ++ later ∧
    (Overlong 32 later ∨ ∃ (modTime : Leb) (last : List UInt8), later = modTime.bytes ++ last ∧ Overlong 32 last)

/-- What the loader must not find in the place of an instruction. -/
inductive Hazard (header : Header) : List UInt8 → Prop where
  | special {opcode : UInt8} {rest : List UInt8} (above : header.opcodeBase ≤ opcode.toNat)
      (zero : header.lineRange = 0 ∨ header.maxOpsPerInstruction = 0) : Hazard header (opcode :: rest)
  | constAddPc {rest : List UInt8} (below : 8 < header.opcodeBase) (zero : header.lineRange = 0) : Hazard header (8 :: rest)
  | advancePc {rest : List UInt8} (below : 2 < header.opcodeBase) (long : Overlong 64 rest) : Hazard header (2 :: rest)
  | operand {opcode : UInt8} {rest : List UInt8} (known : opcode ∈ ([3,4,5,12] : List UInt8))
      (below : opcode.toNat < header.opcodeBase) (long : Overlong 32 rest) : Hazard header (opcode :: rest)
  | size {rest : List UInt8} (long : Overlong 32 rest) : Hazard header (0 :: rest)
  | defineFile {rest name : List UInt8} (size : Leb) (named : 0 ∉ name) (long : OverlongFile rest) :
      Hazard header (0 :: (size.bytes ++ 3 :: (name ++ 0 :: rest)))
  | discriminator {rest : List UInt8} (size : Leb) (long : Overlong 32 rest) : Hazard header (0 :: (size.bytes ++ 4 :: rest))

/-- What the loader reads as an instruction. Of the size of an extended one it has 32 bits. -/
def Instruction.Accepted (sec : Section) (header : Header) : Instruction → Prop
  | .special opcode => header.opcodeBase ≤ opcode.toNat
  | .standard op => op.opcode < header.opcodeBase ∧ op.Fits ∧ op.Readable
  | .unknown _ _ => False
  | .extended size op => Short 32 size ∧ size.unsigned % 2 ^ 32 = (op.operands sec).length + 1 ∧ op.Fits sec ∧ op.Readable ∧
      op.Addressed sec

/-- A program of `room` bytes has instructions, and then a hazard. -/
def ProgramStumbles (sec : Section) (header : Header) (room : Nat) (bytes : List UInt8) : Prop :=
  ∃ (program : List Instruction) (rest : List UInt8), bytes = program.flatMap (Instruction.bytes sec) ++ rest ∧
    (∀ i ∈ program, i.Accepted sec header) ∧ (program.flatMap (Instruction.bytes sec)).length < room ∧ Hazard header rest

def Spelled (name : List UInt8) : Prop := name ≠ [] ∧ 0 ∉ name

/-- The files of a header, and then one with a number that is too long. -/
def FilesStumble (bytes : List UInt8) : Prop :=
  ∃ (files : List FileEntry) (name rest : List UInt8), bytes = files.flatMap FileEntry.bytes ++ (name ++ 0 :: rest) ∧
    (∀ file ∈ files, Spelled file.name ∧ file.Readable) ∧ Spelled name ∧ OverlongFile rest

end Hazards

variable {bytes : List UInt8}

section Endings

/-- How a reader ends. Exceptions are allowed. -/
def Ends (undefined : Prop) (finishes : α → Dio → Prop) : Except Failure (α × Dio) → Prop
  | .ok (a,d) => finishes a d
  | .error failure => failure = .undefined → undefined

def Consumed (bytes : List UInt8) (d d' : Dio) : Prop := d.rest = bytes ++ d'.rest ∧ d'.pos = d.pos + bytes.length

variable {undefined undefined' : Prop} {d d' d'' : Dio} {α β : Type}

theorem Consumed.append {more : List UInt8} (first : Consumed bytes d d') (second : Consumed more d' d'') :
    Consumed (bytes ++ more) d d'' := by
  obtain ⟨rest,pos⟩ := first
  obtain ⟨rest',pos'⟩ := second
  refine ⟨?_,?_⟩
  · rw [rest,rest',List.append_assoc]
  · rw [pos',pos,List.length_append,Nat.add_assoc]

theorem Consumed.cons {byte : UInt8} {more : List UInt8} (first : Consumed [byte] d d') (second : Consumed more d' d'') :
    Consumed (byte :: more) d d'' := first.append second

theorem Consumed.length (consumed : Consumed bytes d d') : d.rest.length = bytes.length + d'.rest.length := by
  rw [consumed.1,List.length_append]

variable {finishes : α → Dio → Prop}

theorem Ends.bind {x : Read α} {f : α → Read β} {finishes' : β → Dio → Prop}
    (first : Ends undefined finishes (x d)) (less : undefined → undefined')
    (next : ∀ a d', finishes a d' → Ends undefined' finishes' (f a d')) : Ends undefined' finishes' ((x >>= f) d) := by
  cases run : x d with
  | error failure =>
    rw [bind_fail run]
    rw [run] at first
    exact fun same => less (first same)
  | ok p =>
    obtain ⟨a,d'⟩ := p
    rw [bind_run run]
    rw [run] at first
    exact next a d' first

theorem Ends.weaken {result : Except Failure (α × Dio)} {finishes' : α → Dio → Prop} (ends : Ends undefined finishes result)
    (less : undefined → undefined') (more : ∀ a d', finishes a d' → finishes' a d') : Ends undefined' finishes' result := by
  cases result with
  | error failure => exact fun same => less (ends same)
  | ok p => exact more _ _ ends

theorem Ends.cause {result : Except Failure (α × Dio)} (ends : Ends undefined finishes result)
    (run : result = .error .undefined) : undefined := by
  subst run
  exact ends rfl

theorem Ends.result {result : Except Failure (α × Dio)} (ends : Ends undefined finishes result) {a : α}
    (run : result = .ok (a,d)) : finishes a d := by
  subst run
  exact ends

theorem ends_fail {failure : Failure} (defined : failure ≠ .undefined) :
    Ends undefined finishes (fail failure d) := fun same => absurd same defined

end Endings

section Primitives

variable {d : Dio} {sec : Section} {header : Header}

theorem dioGetPos_ends (d : Dio) : Ends False (fun pos d' => d' = d ∧ pos = d.pos) (dioGetPos d) := ⟨rfl,rfl⟩

theorem dioReadU1_ends (d : Dio) : Ends False (fun n d' => ∃ byte : UInt8, n = byte.toNat ∧ Consumed [byte] d d') (dioReadU1 d) := by
  obtain ⟨pos,rest⟩ := d
  cases rest with
  | nil =>
    intro same
    cases same
  | cons byte rest => exact ⟨byte,rfl,rfl,rfl⟩

theorem dioRead_ends (size : Nat) (d : Dio) : Ends False (fun bytes d' => bytes.length = size ∧ Consumed bytes d d') (dioRead size d) := by
  unfold dioRead
  split
  · intro same
    cases same
  · next enough =>
    have length : (d.rest.take size).length = size := by
      rw [List.length_take]
      omega
    exact ⟨length,(List.take_append_drop ..).symm,by rw [length]⟩

theorem dioSkip_ends (size : Nat) (d : Dio) :
    Ends False (fun _ d' => ∃ bytes : List UInt8, bytes.length = size ∧ Consumed bytes d d') (dioSkip size d) := by
  have reads := dioRead_ends size d
  unfold dioRead at reads
  unfold dioSkip
  split
  · intro same
    cases same
  · next enough =>
    rw [if_neg enough] at reads
    exact ⟨_,reads⟩

theorem dioReadUint_ends (size : Nat) (d : Dio) : Ends False
    (fun value d' => value < 256 ^ size ∧ Consumed (bytesOf sec.bigEndian size value) d d') (dioReadUint sec size d) := by
  refine Ends.bind (dioRead_ends size d) id fun bytes d' => ?_
  rintro ⟨rfl,consumed⟩
  obtain ⟨small,same⟩ := bytesOf_valueOf sec.bigEndian bytes
  exact ⟨small,by rwa [same]⟩

theorem mark_clear (byte : UInt8) : byte.toNat &&& 0x80 = 0 ↔ byte.toNat < 128 := by
  have all : ∀ n : Fin 256, n.val &&& 0x80 = 0 ↔ n.val < 128 := by decide +kernel
  exact all ⟨byte.toNat,byte.toNat_lt⟩

theorem lebLoop_ends (width : Nat) (signed : Bool) (bytes : List UInt8) (pos res i : Nat) :
    Ends (∃ front more, bytes = front ++ more ∧ more ≠ [] ∧ (∀ byte ∈ front, 128 ≤ byte.toNat) ∧ width ≤ i + 7 * front.length)
      (fun _ d' => ∃ leb : Leb, i + 7 * leb.groups.length < width ∧ Consumed leb.bytes ⟨pos,bytes⟩ d')
      (lebLoop width signed bytes pos res i) := by
  induction bytes generalizing pos res i with
  | nil =>
    intro same
    cases same
  | cons byte rest ih =>
    by_cases here : i < width
    · simp only [lebLoop,shiftLeft,here,if_true,Failure.ok_bind]
      by_cases mark : byte.toNat &&& 0x80 = 0
      · have last := (mark_clear byte).mp mark
        have whole : Consumed (Leb.bytes ⟨[],⟨byte.toNat,last⟩⟩) ⟨pos,byte :: rest⟩ ⟨pos + 1,rest⟩ := by
          simp [Consumed,Leb.bytes,groupsBytes]
        simp only [mark,if_true]
        cases signed with
        | true => exact ⟨⟨[],_⟩,by simpa using here,whole⟩
        | false => exact ⟨⟨[],_⟩,by simpa using here,whole⟩
      · have high : 128 ≤ byte.toNat := Nat.le_of_not_lt fun low => mark ((mark_clear byte).mpr low)
        have small := byte.toNat_lt
        simp only [mark,if_false]
        refine (ih (pos + 1) _ (i + 7)).weaken ?_ fun n d' => ?_
        · rintro ⟨front,more,rfl,some,marked,wide⟩
          refine ⟨byte :: front,more,rfl,some,List.forall_mem_cons.mpr ⟨high,marked⟩,?_⟩
          rw [List.length_cons]
          omega
        · rintro ⟨⟨groups,last⟩,short,rest',pos'⟩
          refine ⟨⟨⟨byte.toNat - 128,by omega⟩ :: groups,last⟩,?_,?_,?_⟩
          · simp only [List.length_cons] at short ⊢
            omega
          · have same : UInt8.ofNat (byte.toNat - 128 + 128) = byte := by
              rw [Nat.sub_add_cancel high,UInt8.ofNat_toNat]
            simpa [Leb.bytes,groupsBytes,same] using rest'
          · simp only [Leb.bytes_length,Leb.length,List.length_cons] at pos' ⊢
            omega
    · simp only [lebLoop,shiftLeft,here,if_false,Failure.error_bind]
      intro _
      exact ⟨[],byte :: rest,rfl,List.cons_ne_nil _ _,by simp,by simpa using here⟩

theorem leb_ends (width : Nat) (signed : Bool) (d : Dio) : Ends (Overlong width d.rest)
    (fun _ d' => ∃ leb : Leb, Short width leb ∧ Consumed leb.bytes d d') (lebLoop width signed d.rest d.pos 0 0) := by
  refine (lebLoop_ends width signed d.rest d.pos 0 0).weaken ?_ fun _ d' => ?_
  · rintro ⟨front,more,split,some,marked,wide⟩
    exact ⟨front,more,split,some,marked,by omega⟩
  · rintro ⟨leb,short,consumed⟩
    exact ⟨leb,by simpa [Short] using short,consumed⟩

theorem dioReadULEB128_ends (d : Dio) : Ends (Overlong 32 d.rest)
    (fun n d' => ∃ leb : Leb, Short 32 leb ∧ n = leb.unsigned % 2 ^ 32 ∧ Consumed leb.bytes d d') (dioReadULEB128 d) := by
  have ends : Ends _ _ (dioReadULEB128 d) := leb_ends 32 false d
  cases run : dioReadULEB128 d with
  | error failure =>
    rw [run] at ends
    exact ends
  | ok p =>
    rw [run] at ends
    obtain ⟨leb,short,consumed⟩ := ends
    refine ⟨leb,short,?_,consumed⟩
    obtain ⟨pos,bytes⟩ := d
    obtain rfl : bytes = leb.bytes ++ p.2.rest := consumed.1
    rw [dioReadULEB128_short short] at run
    exact congrArg Prod.fst (Except.ok.inj run.symm)

theorem dioReadSLEB128_ends (d : Dio) : Ends (Overlong 32 d.rest)
    (fun _ d' => ∃ leb : Leb, Short 32 leb ∧ Consumed leb.bytes d d') (dioReadSLEB128 d) := by
  have ends := leb_ends 32 true d
  unfold dioReadSLEB128
  cases run : lebLoop 32 true d.rest d.pos 0 0 with
  | error failure =>
    rw [run] at ends
    exact ends
  | ok p =>
    rw [run] at ends
    exact ends

/-- Any number that is too long is undefined. -/
theorem overlong_undefined {width : Nat} (signed : Bool) (long : Overlong width bytes) (pos : Nat) :
    lebLoop width signed bytes pos 0 0 = .error .undefined := by
  obtain ⟨front,more,rfl,some,marked,wide⟩ := long
  have from_ : ∀ (front : List UInt8) (pos res i : Nat), (∀ byte ∈ front, 128 ≤ byte.toNat) → width ≤ i + 7 * front.length →
      lebLoop width signed (front ++ more) pos res i = .error .undefined := by
    intro front
    induction front with
    | nil =>
      intro pos res i _ wide
      have behind : ¬i < width := by simpa using wide
      cases more with
      | nil => exact absurd rfl some
      | cons byte more => simp [lebLoop,shiftLeft,behind]
    | cons byte front ih =>
      intro pos res i marked wide
      by_cases here : i < width
      · have mark : ¬byte.toNat &&& 0x80 = 0 := by
          have high := marked byte (List.mem_cons_self ..)
          rw [mark_clear]
          omega
        simp only [List.cons_append,lebLoop,shiftLeft,here,if_true,Failure.ok_bind,mark,if_false]
        apply ih _ _ _ fun other member => marked other (List.mem_cons_of_mem _ member)
        rw [List.length_cons] at wide
        omega
      · simp [lebLoop,shiftLeft,here]
  exact from_ front pos 0 0 marked (by omega)

theorem stringLoop_ends (bytes before : List UInt8) (pos : Nat) : Ends False (fun name? d' => ∃ name : List UInt8, 0 ∉ name ∧
      Consumed (name ++ [0]) ⟨pos,bytes⟩ d' ∧ name? = if before ++ name = [] then none else some (before ++ name))
    (stringLoop before bytes pos) := by
  induction bytes generalizing before pos with
  | nil =>
    intro same
    cases same
  | cons byte rest ih =>
    rw [stringLoop]
    by_cases zero : byte = 0
    · subst zero
      rw [if_pos rfl]
      exact ⟨[],List.not_mem_nil,⟨rfl,rfl⟩,by rw [List.append_nil]⟩
    · rw [if_neg zero]
      refine (ih (before ++ [byte]) (pos + 1)).weaken id fun name? d' => ?_
      rintro ⟨name,inside,⟨rest',pos'⟩,value⟩
      refine ⟨byte :: name,?_,⟨?_,?_⟩,?_⟩
      · simpa [inside] using fun same => zero same.symm
      · simp only [List.cons_append] at rest' ⊢
        rw [rest']
      · simp only [List.length_append,List.length_cons] at pos' ⊢
        omega
      · simpa using value

theorem dioReadString_ends (d : Dio) : Ends False (fun name? d' => ∃ name : List UInt8, 0 ∉ name ∧ Consumed (name ++ [0]) d d' ∧
    name? = if name = [] then none else some name) (dioReadString d) := stringLoop_ends d.rest [] d.pos

theorem readFileInfo_ends (unit : CompUnit) (name : Option (List UInt8)) (d : Dio) : Ends (OverlongFile d.rest)
    (fun _ d' => ∃ dir modTime size : Leb, (Short 32 dir ∧ Short 32 modTime ∧ Short 32 size) ∧
      Consumed (dir.bytes ++ (modTime.bytes ++ size.bytes)) d d') (readFileInfo unit name d) := by
  refine Ends.bind (dioReadULEB128_ends d) .inl fun _ d1 => ?_
  rintro ⟨dir,dirShort,-,first⟩
  refine Ends.bind (dioReadULEB128_ends d1) (fun long => .inr ⟨dir,d1.rest,first.1,.inl long⟩) fun _ d2 => ?_
  rintro ⟨modTime,modTimeShort,-,second⟩
  refine Ends.bind (dioReadULEB128_ends d2) (fun long => .inr ⟨dir,d1.rest,first.1,.inr ⟨modTime,d2.rest,second.1,long⟩⟩) fun _ d3 => ?_
  rintro ⟨size,sizeShort,-,third⟩
  exact ⟨dir,modTime,size,⟨dirShort,modTimeShort,sizeShort⟩,first.append (second.append third)⟩

theorem readFileInfo_undefined (long : OverlongFile bytes) (unit : CompUnit) (name : Option (List UInt8)) (pos : Nat) :
    readFileInfo unit name ⟨pos,bytes⟩ = .error .undefined := by
  have number {bytes : List UInt8} (long : Overlong 32 bytes) (pos : Nat) : dioReadULEB128 ⟨pos,bytes⟩ = .error .undefined :=
    overlong_undefined false long pos
  rcases long with first | ⟨dir,later,rfl,long⟩
  · exact bind_fail (number first pos)
  · by_cases short : Short 32 dir
    · refine (bind_run (dioReadULEB128_short short)).trans ?_
      rcases long with second | ⟨modTime,last,rfl,third⟩
      · exact bind_fail (number second _)
      · by_cases short : Short 32 modTime
        · exact (bind_run (dioReadULEB128_short short)).trans (bind_fail (number third _))
        · exact bind_fail (dioReadULEB128_long short)
    · exact bind_fail (dioReadULEB128_long short)

end Primitives

section Opcodes

variable {sec : Section} {header : Header} {l : Loader}

theorem dioReadAddress_ends (d : Dio) : Ends False (fun _ d' => sec.addressSize ∈ [2,4,8] ∧
    ∃ value, value < 256 ^ sec.addressSize ∧ Consumed (bytesOf sec.bigEndian sec.addressSize value) d d') (dioReadAddress sec d) := by
  refine Ends.bind (dioGetPos_ends d) id fun pos d' => ?_
  rintro ⟨rfl,-⟩
  split
  · next size =>
    refine Ends.bind (dioReadUint_ends sec.addressSize d') id fun value d' => ?_
    rintro ⟨small,consumed⟩
    exact ⟨by simpa using size,value,small,consumed⟩
  · exact ends_fail nofun

theorem standardOpcode_ends (opcode : Nat) (d : Dio) : Ends ((opcode = 8 ∧ header.lineRange = 0) ∨ (opcode = 2 ∧ Overlong 64 d.rest) ∨
      (opcode ∈ [3,4,5,12] ∧ Overlong 32 d.rest))
    (fun _ d' => ∃ op : Standard, op.opcode = opcode ∧ op.Fits ∧ op.Readable ∧ Consumed (op.operands sec) d d')
    (standardOpcode sec header l opcode d) := by
  have plain (op : Standard) (same : op.opcode = opcode) (fits : op.Fits) (readable : op.Readable) (none_ : op.operands sec = []) :
      ∃ op : Standard, op.opcode = opcode ∧ op.Fits ∧ op.Readable ∧ Consumed (op.operands sec) d d :=
    ⟨op,same,fits,readable,by simp [Consumed,none_]⟩
  unfold standardOpcode
  split
  · exact plain .copy rfl trivial trivial rfl
  · refine Ends.bind (leb_ends 64 false d) (fun long => .inr (.inl ⟨rfl,long⟩)) fun _ d' => ?_
    rintro ⟨leb,short,consumed⟩
    exact ⟨.advancePc leb,rfl,trivial,short,consumed⟩
  · refine Ends.bind (dioReadSLEB128_ends d) (fun long => .inr (.inr ⟨by simp,long⟩)) fun _ d' => ?_
    rintro ⟨leb,short,consumed⟩
    exact ⟨.advanceLine leb,rfl,trivial,short,consumed⟩
  · refine Ends.bind (dioReadULEB128_ends d) (fun long => .inr (.inr ⟨by simp,long⟩)) fun _ d' => ?_
    rintro ⟨leb,short,-,consumed⟩
    exact ⟨.setFile leb,rfl,trivial,short,consumed⟩
  · refine Ends.bind (dioReadULEB128_ends d) (fun long => .inr (.inr ⟨by simp,long⟩)) fun _ d' => ?_
    rintro ⟨leb,short,-,consumed⟩
    exact ⟨.setColumn leb,rfl,trivial,short,consumed⟩
  · exact plain .negateStmt rfl trivial trivial rfl
  · exact plain .setBasicBlock rfl trivial trivial rfl
  · split
    · next zero => exact fun _ => .inl ⟨rfl,zero⟩
    · exact plain .constAddPc rfl trivial trivial rfl
  · refine Ends.bind (dioReadUint_ends 2 d) False.elim fun value d' => ?_
    rintro ⟨small,consumed⟩
    exact ⟨.fixedAdvancePc value,rfl,small,trivial,consumed⟩
  · exact plain .setPrologueEnd rfl trivial trivial rfl
  · exact plain .setEpilogueBegin rfl trivial trivial rfl
  · refine Ends.bind (dioReadULEB128_ends d) (fun long => .inr (.inr ⟨by simp,long⟩)) fun _ d' => ?_
    rintro ⟨leb,short,-,consumed⟩
    exact ⟨.setIsa leb,rfl,trivial,short,consumed⟩
  · exact ends_fail nofun

/-- What is wrong behind the opcode of an extended instruction. -/
def ExtendedHazard (opcode : UInt8) (bytes : List UInt8) : Prop :=
  (opcode = 3 ∧ ∃ name rest : List UInt8, bytes = name ++ 0 :: rest ∧ 0 ∉ name ∧ OverlongFile rest) ∨ (opcode = 4 ∧ Overlong 32 bytes)

theorem extendedOpcode_ends (opSize : Nat) (opcode : UInt8) (d : Dio) : Ends (ExtendedHazard opcode d.rest)
    (fun _ d' => ∃ op : Extended, op.opcode = opcode ∧ op.Fits sec ∧ op.Readable ∧ op.Addressed sec ∧ Consumed (op.operands sec) d d')
    (extendedOpcode sec header l opSize opcode.toNat d) := by
  by_cases end_ : opcode = 1
  · subst end_
    exact ⟨.endSequence,rfl,trivial,trivial,trivial,rfl,rfl⟩
  by_cases address : opcode = 2
  · subst address
    refine Ends.bind (dioReadAddress_ends d) False.elim fun _ d' => ?_
    rintro ⟨size,value,small,consumed⟩
    exact ⟨.setAddress value,rfl,small,trivial,size,consumed⟩
  by_cases file : opcode = 3
  · subst file
    refine Ends.bind (dioReadString_ends d) False.elim fun _ d1 => ?_
    rintro ⟨name,named,first,-⟩
    have split : d.rest = name ++ 0 :: d1.rest := by simpa using first.1
    refine Ends.bind (readFileInfo_ends l.unit _ d1) (fun long => .inl ⟨rfl,name,d1.rest,split,named,long⟩) fun _ d2 => ?_
    rintro ⟨dir,modTime,size,readable,second⟩
    refine ⟨.defineFile ⟨name,dir,modTime,size⟩,rfl,named,readable,trivial,?_⟩
    simpa [Extended.operands,FileEntry.bytes] using first.append second
  by_cases discriminator : opcode = 4
  · subst discriminator
    refine Ends.bind (dioReadULEB128_ends d) (fun long => .inr ⟨rfl,long⟩) fun _ d' => ?_
    rintro ⟨leb,short,-,consumed⟩
    exact ⟨.setDiscriminator leb,rfl,trivial,short,trivial,consumed⟩
  have new : opcode ∉ ([1,2,3,4] : List UInt8) := by simp [end_,address,file,discriminator]
  rw [extendedOpcode_other new]
  generalize (opSize + 2 ^ 32 - 1) % 2 ^ 32 = size
  refine Ends.bind (dioSkip_ends size d) False.elim fun _ d' => ?_
  rintro ⟨data,-,consumed⟩
  exact ⟨.other opcode data,rfl,new,trivial,trivial,consumed⟩

/-- An opcode is a hazard, or an instruction that the loader accepts. -/
theorem runOpcode_ends (d : Dio) : Ends (Hazard header d.rest)
    (fun _ d' => ∃ i : Instruction, i.Accepted sec header ∧ Consumed (i.bytes sec) d d') (runOpcode sec header l d) := by
  refine Ends.bind (dioReadU1_ends d) False.elim fun _ d1 => ?_
  rintro ⟨byte,rfl,first⟩
  have begins : d.rest = byte :: d1.rest := first.1
  split
  · next above =>
    split
    · next zero => exact fun _ => begins ▸ .special above zero
    · exact ⟨.special byte,above,first⟩
  next below =>
  have below : byte.toNat < header.opcodeBase := Nat.lt_of_not_le below
  split
  · next zero =>
    obtain rfl : byte = 0 := UInt8.toNat_inj.mp zero
    refine Ends.bind (dioReadULEB128_ends d1) (fun long => begins ▸ .size long) fun _ d2 => ?_
    rintro ⟨size,short,rfl,second⟩
    refine Ends.bind (dioGetPos_ends d2) False.elim fun _ d2 => ?_
    rintro ⟨rfl,rfl⟩
    refine Ends.bind (dioReadU1_ends d2) False.elim fun _ d3 => ?_
    rintro ⟨opcode,rfl,third⟩
    have front : d.rest = 0 :: (size.bytes ++ opcode :: d3.rest) := by rw [begins,second.1,third.1]; rfl
    refine Ends.bind (extendedOpcode_ends _ opcode d3) ?_ fun _ d4 => ?_
    · rw [front]
      rintro (⟨rfl,name,rest,split,named,long⟩ | ⟨rfl,long⟩)
      · exact split ▸ .defineFile size named long
      · exact .discriminator size long
    · rintro ⟨op,rfl,fits,readable,addressed,fourth⟩
      refine Ends.bind (dioGetPos_ends d4) False.elim fun _ d4 => ?_
      rintro ⟨rfl,rfl⟩
      split
      · exact ends_fail nofun
      · next stop =>
        refine ⟨.extended size op,⟨short,?_,fits,readable,addressed⟩,first.cons (second.append (third.cons fourth))⟩
        have place := (third.cons fourth).2
        simp only [List.length_cons] at place
        omega
  · next some =>
    refine (standardOpcode_ends byte.toNat d1).weaken ?_ fun _ d' => ?_
    · have known {n : UInt8} (same : byte.toNat = n.toNat) : byte = n := UInt8.toNat_inj.mp same
      rw [begins]
      rintro (⟨eight,zero⟩ | ⟨two,long⟩ | ⟨member,long⟩)
      · obtain rfl := known (n := 8) eight
        exact .constAddPc below zero
      · obtain rfl := known (n := 2) two
        exact .advancePc below long
      · refine .operand ?_ below long
        simp only [List.mem_cons,List.not_mem_nil,or_false] at member ⊢
        exact member.imp (known (n := 3)) (Or.imp (known (n := 4)) (Or.imp (known (n := 5)) (known (n := 12))))
    · rintro ⟨op,same,fits,readable,consumed⟩
      refine ⟨.standard op,⟨by omega,fits,readable⟩,?_⟩
      have byte_ : UInt8.ofNat op.opcode = byte := by rw [same,UInt8.ofNat_toNat]
      rw [Instruction.bytes,byte_]
      exact first.cons consumed

end Opcodes

section Programs

variable {sec : Section} {header : Header}

theorem runOpcode_below {opcode : UInt8} (below : opcode.toNat < header.opcodeBase) (some : opcode.toNat ≠ 0) {l : Loader} {pos : Nat}
    {rest : List UInt8} : runOpcode sec header l ⟨pos,opcode :: rest⟩ = standardOpcode sec header l opcode.toNat ⟨pos + 1,rest⟩ := by
  rw [runOpcode_cons,if_neg (Nat.not_le_of_lt below),if_neg some]

theorem Hazard.undefined (base : 0 < header.opcodeBase) (hazard : Hazard header bytes) (l : Loader) (pos : Nat) :
    runOpcode sec header l ⟨pos,bytes⟩ = .error .undefined := by
  have number {bytes : List UInt8} (long : Overlong 32 bytes) (pos : Nat) : dioReadULEB128 ⟨pos,bytes⟩ = .error .undefined :=
    overlong_undefined false long pos
  cases hazard with
  | special above zero =>
    rw [runOpcode_cons,if_pos above,if_pos zero]
    rfl
  | constAddPc below zero =>
    rw [@runOpcode_below sec header 8 below (by simp)]
    change (if header.lineRange = 0 then fail .undefined else pure (l.constAddPc header)) _ = _
    rw [if_pos zero]
    rfl
  | advancePc below long =>
    rw [@runOpcode_below sec header 2 below (by simp)]
    exact bind_fail (overlong_undefined false long _)
  | operand known below long =>
    simp only [List.mem_cons,List.not_mem_nil,or_false] at known
    rcases known with rfl | rfl | rfl | rfl
    · rw [runOpcode_below below (by simp)]
      apply bind_fail
      unfold dioReadSLEB128
      simp only [overlong_undefined true long,Failure.error_bind]
    all_goals
      rw [runOpcode_below below (by simp)]
      exact bind_fail (number long _)
  | size long =>
    rw [runOpcode_zero base]
    exact bind_fail (number long _)
  | @defineFile rest name size named long =>
    rw [runOpcode_zero base]
    by_cases short : Short 32 size
    · rw [bind_run (dioReadULEB128_short short),bind_run (show dioGetPos _ = .ok (pos + 1 + size.length,_) from rfl),
        bind_run (show dioReadU1 _ = .ok ((3 : UInt8).toNat,⟨pos + 1 + size.length + 1,_⟩) from rfl)]
      exact bind_fail ((bind_run (dioReadString_bytes named)).trans (bind_fail (readFileInfo_undefined long ..)))
    · exact bind_fail (dioReadULEB128_long short)
  | discriminator size long =>
    rw [runOpcode_zero base]
    by_cases short : Short 32 size
    · rw [bind_run (dioReadULEB128_short short),bind_run (show dioGetPos _ = .ok (pos + 1 + size.length,_) from rfl),
        bind_run (show dioReadU1 _ = .ok ((4 : UInt8).toNat,⟨pos + 1 + size.length + 1,_⟩) from rfl)]
      exact bind_fail (bind_fail (number long _))
    · exact bind_fail (dioReadULEB128_long short)

theorem Hazard.nonempty (hazard : Hazard header bytes) : bytes ≠ [] := by
  cases hazard <;> simp

/-- An accepted instruction is read to its end, or divides by zero. -/
theorem Instruction.Accepted.run {i : Instruction} (accepted : i.Accepted sec header) (base : 0 < header.opcodeBase) (l : Loader)
    (pos : Nat) (rest : List UInt8) :
    (∃ next, runOpcode sec header l ⟨pos,i.bytes sec ++ rest⟩ = .ok (next,⟨pos + (i.bytes sec).length,rest⟩)) ∨
      runOpcode sec header l ⟨pos,i.bytes sec ++ rest⟩ = .error .undefined := by
  cases i with
  | special opcode =>
    have above : opcode.toNat ≥ header.opcodeBase := accepted
    rw [show (Instruction.special opcode).bytes sec ++ rest = opcode :: rest from rfl,runOpcode_cons,if_pos above]
    split
    · exact .inr rfl
    · exact .inl ⟨_,rfl⟩
  | standard op =>
    obtain ⟨below,fits,readable⟩ := accepted
    rw [runOpcode_standard below]
    have place : pos + ((Instruction.standard op).bytes sec).length = pos + 1 + (op.operands sec).length := by
      simp only [Instruction.bytes,List.length_cons]
      omega
    rw [place]
    by_cases range : op = .constAddPc → header.lineRange ≠ 0
    · exact .inl ⟨_,standardOpcode_bytes fits readable range⟩
    · obtain ⟨rfl,zero⟩ : op = .constAddPc ∧ header.lineRange = 0 := by simpa using range
      right
      change (if header.lineRange = 0 then fail .undefined else pure (l.constAddPc header)) _ = _
      rw [if_pos zero]
      rfl
  | unknown opcode operands => exact accepted.elim
  | extended size op =>
    obtain ⟨short,whole,fits,readable,addressed⟩ := accepted
    have total : ((Instruction.extended size op).bytes sec).length = size.length + 2 + (op.operands sec).length := by
      simp [Instruction.bytes]
      omega
    have stop : pos + size.length + 2 + (op.operands sec).length = pos + 1 + size.length + size.unsigned % 2 ^ 32 := by omega
    rw [runOpcode_extended base short,bind_run (extendedOpcode_bytes fits readable addressed whole (Nat.mod_lt _ (by decide))),
      bind_run (show dioGetPos _ = .ok (_,_) from rfl),if_neg (by simp [stop]),total,← Nat.add_assoc,← Nat.add_assoc]
    exact .inl ⟨_,rfl⟩

theorem runProgram_ends (stop rounds : Nat) (l : Loader) (d : Dio) :
    Ends (ProgramStumbles sec header (stop - d.pos) d.rest) (fun _ _ => True) (runProgram sec header stop rounds l d) := by
  induction rounds generalizing l d with
  | zero =>
    refine Ends.bind (dioGetPos_ends d) False.elim fun pos d' _ => ?_
    split
    · exact ends_fail nofun
    · trivial
  | succ rounds ih =>
    obtain ⟨pos,bytes⟩ := d
    by_cases more : pos < stop
    · rw [runProgram_next more]
      refine Ends.bind (runOpcode_ends _) (fun hazard => ?_) fun next d' => ?_
      · exact ⟨[],bytes,rfl,nofun,by simpa using more,hazard⟩
      · rintro ⟨i,accepted,begins,place⟩
        refine (ih next d').weaken ?_ fun _ _ => id
        rintro ⟨program,rest,split,others,room,hazard⟩
        refine ⟨i :: program,rest,?_,List.forall_mem_cons.mpr ⟨accepted,others⟩,?_,hazard⟩
        · rw [begins,split,List.flatMap_cons,List.append_assoc]
        · simp only [List.flatMap_cons,List.length_append] at place ⊢
          omega
    · rw [runProgram_done (Nat.le_of_not_lt more)]
      trivial

theorem program_undefined (base : 0 < header.opcodeBase) {stop : Nat} {rest : List UInt8} (hazard : Hazard header rest)
    {program : List Instruction} (accepted : ∀ i ∈ program, i.Accepted sec header) {rounds : Nat} (enough : program.length < rounds)
    (l : Loader) {pos : Nat} (room : pos + (program.flatMap (Instruction.bytes sec)).length < stop) :
    runProgram sec header stop rounds l ⟨pos,program.flatMap (Instruction.bytes sec) ++ rest⟩ = .error .undefined := by
  induction program generalizing rounds l pos with
  | nil =>
    obtain ⟨left,rfl⟩ : ∃ left, rounds = left + 1 := Nat.exists_eq_add_of_le' enough
    rw [List.flatMap_nil,List.nil_append,runProgram_next (by simpa using room)]
    exact bind_fail (hazard.undefined base l pos)
  | cons i program ih =>
    obtain ⟨left,rfl⟩ : ∃ left, rounds = left + 1 := Nat.exists_eq_add_of_le' (Nat.le_trans (Nat.succ_le_succ (Nat.zero_le _)) enough)
    have longer := bytes_positive sec i
    simp only [List.flatMap_cons,List.length_append] at room
    rw [runProgram_next (by omega),List.flatMap_cons,List.append_assoc]
    rcases (accepted i (List.mem_cons_self ..)).run base l pos (program.flatMap (Instruction.bytes sec) ++ rest) with ⟨next,run⟩ | run
    · rw [bind_run run]
      exact ih (fun j member => accepted j (List.mem_cons_of_mem _ member)) (Nat.lt_of_succ_lt_succ enough) next (by omega)
    · exact bind_fail run

/-- As many rounds as there are bytes come to the hazard. -/
theorem runProgram_undefined (base : 0 < header.opcodeBase) {stop : Nat} {d : Dio} (stumbles : ProgramStumbles sec header (stop - d.pos) d.rest)
    (l : Loader) : runProgram sec header stop d.rest.length l d = .error .undefined := by
  obtain ⟨pos,bytes⟩ := d
  obtain ⟨program,rest,rfl,accepted,room,hazard⟩ := stumbles
  have count := @flatMap_long _ program _ (bytes_positive sec)
  have some := List.length_pos_iff.mpr hazard.nonempty
  change _ < stop - pos at room
  refine program_undefined base hazard accepted ?_ l (by omega)
  simp only [List.length_append]
  omega

end Programs

section Headers

/-- From `min_instruction_length` to `opcode_base`. -/
def readFields (version : Nat) : Read Header := do
  let minInstructionLength ← dioReadU1
  let maxOpsPerInstruction ← (if version ≥ 4 then dioReadU1 else pure 1 : Read Nat)
  let isStmtDefault ← dioReadU1
  let lineBase ← dioReadU1
  let lineRange ← dioReadU1
  let opcodeBase ← dioReadU1
  pure ⟨minInstructionLength,maxOpsPerInstruction,isStmtDefault ≠ 0,toI1 lineBase,lineRange,opcodeBase,[]⟩

/-- What is in front of the sizes of the opcodes. The names end at `namesEnd`, and the program at `stop`. -/
structure Front where
  dwarf64 : Bool
  stop : Nat
  namesEnd : Nat
  header : Header

def readFront (sec : Section) (offset : Nat) : Read Front := do
  let size ← readUnitSize sec
  let version ← dioReadU2 sec
  if version < 2 ∨ version > 4 then fail (.invDwarf "Invalid line number info version")
  else do
    let headerSize ← (if size.2 then dioReadU8 sec else dioReadU4 sec : Read Nat)
    let headerPos ← dioGetPos
    let header ← readFields version
    pure ⟨size.2,offset + wrappedSize offset size.1,headerPos + headerSize,header⟩

namespace Front

def sized (front : Front) (sizes : List UInt8) : Header := { front.header with opcodeSize := sizes }

def NamesEnd (front : Front) (pos : Nat) : Prop := front.namesEnd = pos ∨ front.dwarf64 = true ∧ front.namesEnd = pos + 12

/-- What is wrong with a table behind the opcode base: it is zero, or a file or the program has a hazard. -/
def Stumbles (sec : Section) (front : Front) (d : Dio) : Prop :=
  (front.header.opcodeBase = 0 ∧ 2 ^ 32 - 1 ≤ d.rest.length) ∨
  (0 < front.header.opcodeBase ∧ ∃ (sizes : List UInt8) (dirs : List (List UInt8)) (tail : List UInt8),
    d.rest = sizes ++ (dirs.flatMap (fun name => name ++ [0]) ++ 0 :: tail) ∧ sizes.length + 1 = front.header.opcodeBase ∧
    (∀ name ∈ dirs, Spelled name) ∧
    (FilesStumble tail ∨ ∃ (files : List FileEntry) (program : List UInt8) (pos : Nat), tail = files.flatMap FileEntry.bytes ++ 0 :: program ∧
      (∀ file ∈ files, Spelled file.name ∧ file.Readable) ∧ pos + program.length = d.pos + d.rest.length ∧ front.NamesEnd pos ∧
      ProgramStumbles sec (front.sized sizes) (front.stop - pos) program))

end Front

/-- What the loader does behind the opcode base. -/
def loadBehind (sec : Section) (unit : CompUnit) (front : Front) : Read CompUnit := do
  let sizes ← dioRead ((front.header.opcodeBase + 2 ^ 32 - 1) % 2 ^ 32)
  if front.header.opcodeBase = 0 then fail .undefined
  else do
    let unit ← readNames unit
    let pos ← dioGetPos
    if front.namesEnd ≠ pos ∧ ¬(front.dwarf64 ∧ front.namesEnd = pos + 12) then fail (.invDwarf "Invalid line info header")
    else do
      let left ← dioLeft
      let l ← runProgram sec (front.sized sizes) front.stop left ⟨unit,startState (front.sized sizes)⟩
      pure l.unit

theorem fail_bind (failure : Failure) (f : α → Read β) : (fail failure >>= f) = fail failure := rfl

theorem readHeader_eq (version : Nat) : readHeader version = readFields version >>= fun header =>
    dioRead ((header.opcodeBase + 2 ^ 32 - 1) % 2 ^ 32) >>= fun sizes =>
      if header.opcodeBase = 0 then fail .undefined else pure { header with opcodeSize := sizes } := by
  unfold readHeader readFields
  simp only [bind_assoc,pure_bind]

theorem readTable_front {unit : LineUnit} (new : ¬unit.version ≤ 1) : readTable unit =
    readFront unit.sec unit.table.lineInfoOffs >>= loadBehind unit.sec (addFile unit.table ⟨unit.name,unit.table.dir,0,0,0⟩) := by
  unfold readTable readFront
  simp only [new,if_false,bind_assoc]
  refine bind_congr fun size => ?_
  unfold loadLineNumbersV2
  refine bind_congr fun version => ?_
  split
  · rfl
  · simp only [readHeader_eq,bind_assoc,pure_bind]
    refine bind_congr fun headerSize => bind_congr fun headerPos => bind_congr fun header => ?_
    unfold loadBehind
    refine bind_congr fun sizes => ?_
    by_cases zero : header.opcodeBase = 0
    · simp only [zero,if_true,fail_bind]
    · simp only [zero,if_false,pure_bind]
      rfl

end Headers

section Names

variable {sec : Section}

/-- Never undefined. -/
def Defined (reader : Read α) : Prop := ∀ d, Ends False (fun _ _ => True) (reader d)

theorem Defined.bind {reader : Read α} {f : α → Read β} (first : Defined reader) (next : ∀ a, Defined (f a)) :
    Defined (reader >>= f) := fun d => Ends.bind (first d) id fun a d' _ => next a d'

theorem Defined.ite {condition : Prop} [Decidable condition] {first second : Read α} (yes : Defined first) (no : Defined second) :
    Defined (if condition then first else second) := by
  split
  · exact yes
  · exact no

theorem defined_pure (a : α) : Defined (pure a : Read α) := fun _ => trivial

theorem defined_fail {failure : Failure} (defined : failure ≠ .undefined) : Defined (fail failure : Read α) := fun _ => ends_fail defined

theorem defined_getPos : Defined dioGetPos := fun _ => trivial

theorem defined_readU1 : Defined dioReadU1 := fun d => (dioReadU1_ends d).weaken id fun _ _ _ => trivial

theorem defined_readUint (size : Nat) : Defined (dioReadUint sec size) := fun d => (dioReadUint_ends size d).weaken id fun _ _ _ => trivial

theorem defined_readUnitSize : Defined (readUnitSize sec) :=
  (defined_readUint 4).bind fun _ => Defined.ite ((defined_readUint 8).bind fun _ => defined_pure _) (defined_pure _)

/-- The opcode base is a byte. -/
theorem readFields_ends (version : Nat) (d : Dio) :
    Ends False (fun header _ => header.opcodeBase < 256) (readFields version d) := by
  have ops : Defined (if version ≥ 4 then dioReadU1 else pure 1 : Read Nat) := Defined.ite defined_readU1 (defined_pure 1)
  refine Ends.bind (defined_readU1 d) id fun _ d _ => Ends.bind (ops d) id fun _ d _ => Ends.bind (defined_readU1 d) id fun _ d _ =>
    Ends.bind (defined_readU1 d) id fun _ d _ => Ends.bind (defined_readU1 d) id fun _ d _ => Ends.bind (dioReadU1_ends d) id fun _ _ => ?_
  rintro ⟨byte,rfl,-⟩
  exact byte.toNat_lt

theorem readFront_ends (offset : Nat) (d : Dio) :
    Ends False (fun front _ => front.header.opcodeBase < 256) (readFront sec offset d) := by
  refine Ends.bind (defined_readUnitSize d) id fun size d _ => Ends.bind (defined_readUint 2 d) id fun version d _ => ?_
  split
  · exact ends_fail nofun
  · have headerSize : Defined (if size.2 then dioReadU8 sec else dioReadU4 sec : Read Nat) :=
      Defined.ite (defined_readUint 8) (defined_readUint 4)
    refine Ends.bind (headerSize d) id fun _ d _ => Ends.bind (defined_getPos d) id fun _ d _ =>
      Ends.bind (readFields_ends version d) id fun header _ small => ?_
    exact small

theorem readRowsV1_defined (address sect stop rounds line : Nat) (unit : CompUnit) :
    Defined (readRowsV1 sec address sect stop rounds line unit) := by
  induction rounds generalizing line unit with
  | zero => exact defined_getPos.bind fun _ => Defined.ite (defined_fail nofun) (defined_pure _)
  | succ rounds ih =>
    have row : Defined (readRowV1 sec address sect line) := (defined_readUint 4).bind fun _ => (defined_readUint 2).bind fun _ =>
      (defined_readUint 4).bind fun _ => defined_pure _
    exact defined_getPos.bind fun _ => Defined.ite (row.bind fun _ => ih _ _) (defined_pure _)

theorem loadLineNumbersV1_defined (unit : CompUnit) (unitSize : Nat) : Defined (loadLineNumbersV1 sec unit unitSize) := by
  have address : Defined (dioReadAddress sec) := fun d => (dioReadAddress_ends d).weaken id fun _ _ _ => trivial
  exact address.bind fun _ => Defined.bind (fun _ => trivial) fun _ => readRowsV1_defined _ _ _ _ _ _

theorem readDirs_ends (rounds : Nat) (unit : CompUnit) (d : Dio) : Ends False (fun _ d' => ∃ dirs : List (List UInt8),
    (∀ name ∈ dirs, Spelled name) ∧ Consumed (dirs.flatMap (fun name => name ++ [0]) ++ [0]) d d') (readDirs rounds unit d) := by
  induction rounds generalizing unit d with
  | zero => exact ends_fail nofun
  | succ rounds ih =>
    refine Ends.bind (dioReadString_ends d) id fun name? d1 => ?_
    rintro ⟨name,named,first,rfl⟩
    by_cases empty : name = []
    · subst empty
      exact ⟨[],nofun,first⟩
    · simp only [empty,if_false]
      refine (ih _ d1).weaken id fun _ d2 => ?_
      rintro ⟨dirs,spelled,second⟩
      refine ⟨name :: dirs,List.forall_mem_cons.mpr ⟨⟨empty,named⟩,spelled⟩,?_⟩
      rw [List.flatMap_cons,List.append_assoc]
      exact first.append second

theorem readFiles_ends (rounds : Nat) (unit : CompUnit) (d : Dio) : Ends (FilesStumble d.rest) (fun _ d' => ∃ files : List FileEntry,
    (∀ file ∈ files, Spelled file.name ∧ file.Readable) ∧ Consumed (files.flatMap FileEntry.bytes ++ [0]) d d')
    (readFiles rounds unit d) := by
  induction rounds generalizing unit d with
  | zero => exact ends_fail nofun
  | succ rounds ih =>
    refine Ends.bind (dioReadString_ends d) False.elim fun name? d1 => ?_
    rintro ⟨name,named,first,rfl⟩
    by_cases empty : name = []
    · subst empty
      exact ⟨[],nofun,first⟩
    · have begins : d.rest = name ++ 0 :: d1.rest := by simpa using first.1
      simp only [empty,if_false]
      refine Ends.bind (readFileInfo_ends unit _ d1) (fun long => ⟨[],name,d1.rest,begins,nofun,⟨empty,named⟩,long⟩) fun _ d2 => ?_
      rintro ⟨dir,modTime,size,readable,second⟩
      have file : Consumed (FileEntry.bytes ⟨name,dir,modTime,size⟩) d d2 := by
        simpa [FileEntry.bytes] using first.append second
      have fine : Spelled name ∧ FileEntry.Readable ⟨name,dir,modTime,size⟩ := ⟨⟨empty,named⟩,readable⟩
      refine (ih _ d2).weaken ?_ fun _ d3 => ?_
      · rintro ⟨files,other,rest,split,others,spelled,long⟩
        refine ⟨⟨name,dir,modTime,size⟩ :: files,other,rest,?_,List.forall_mem_cons.mpr ⟨fine,others⟩,spelled,long⟩
        rw [file.1,split,List.flatMap_cons,List.append_assoc]
      · rintro ⟨files,others,third⟩
        refine ⟨⟨name,dir,modTime,size⟩ :: files,List.forall_mem_cons.mpr ⟨fine,others⟩,?_⟩
        rw [List.flatMap_cons,List.append_assoc]
        exact file.append third

theorem files_undefined {files : List FileEntry} (fine : ∀ file ∈ files, Spelled file.name ∧ file.Readable) {name rest : List UInt8}
    (spelled : Spelled name) (long : OverlongFile rest) {rounds : Nat} (enough : files.length < rounds) (unit : CompUnit) (pos : Nat) :
    readFiles rounds unit ⟨pos,files.flatMap FileEntry.bytes ++ (name ++ 0 :: rest)⟩ = .error .undefined := by
  induction files generalizing rounds unit pos with
  | nil =>
    obtain ⟨left,rfl⟩ : ∃ left, rounds = left + 1 := Nat.exists_eq_add_of_le' enough
    rw [List.flatMap_nil,List.nil_append]
    exact (bind_run (readString_name spelled rest)).trans (bind_fail (readFileInfo_undefined long ..))
  | cons file files ih =>
    obtain ⟨left,rfl⟩ : ∃ left, rounds = left + 1 := Nat.exists_eq_add_of_le' (Nat.le_trans (Nat.succ_le_succ (Nat.zero_le _)) enough)
    obtain ⟨here,readable⟩ := fine file (List.mem_cons_self ..)
    rw [List.flatMap_cons,List.append_assoc,file_bytes]
    refine (bind_run (readString_name here _)).trans ((bind_run (readFileInfo_bytes _ _ unit (some file.name) readable)).trans ?_)
    exact ih (fun other member => fine other (List.mem_cons_of_mem _ member)) (Nat.lt_of_succ_lt_succ enough) ..

theorem readFiles_undefined {d : Dio} (stumbles : FilesStumble d.rest) (unit : CompUnit) :
    readFiles d.rest.length unit d = .error .undefined := by
  obtain ⟨pos,bytes⟩ := d
  obtain ⟨files,name,rest,rfl,fine,spelled,long⟩ := stumbles
  have count := @flatMap_long _ files FileEntry.bytes fun file => by simp [FileEntry.bytes]
  refine files_undefined fine spelled long ?_ unit pos
  simp only [List.length_append,List.length_cons]
  omega

end Names

section Tables

variable {sec : Section}

theorem opcode_sizes {base : Nat} (some : 0 < base) (small : base < 256) : (base + 2 ^ 32 - 1) % 2 ^ 32 + 1 = base := by omega

theorem wrapped_size {sizes left whole : Nat} (length : sizes = (0 + 2 ^ 32 - 1) % 2 ^ 32) (split : whole = sizes + left) :
    2 ^ 32 - 1 ≤ whole := by omega

theorem dioLeft_ends (d : Dio) : Ends False (fun left d' => d' = d ∧ left = d.rest.length) (dioLeft d) := ⟨rfl,rfl⟩

/-- The names of a table, or a file with a number that is too long. -/
theorem readNames_ends (unit : CompUnit) (d : Dio) :
    Ends (∃ (dirs : List (List UInt8)) (tail : List UInt8), d.rest = dirs.flatMap (fun name => name ++ [0]) ++ 0 :: tail ∧
        (∀ name ∈ dirs, Spelled name) ∧ FilesStumble tail)
      (fun _ d' => ∃ (dirs : List (List UInt8)) (files : List FileEntry),
        d.rest = dirs.flatMap (fun name => name ++ [0]) ++ 0 :: (files.flatMap FileEntry.bytes ++ 0 :: d'.rest) ∧
        (∀ name ∈ dirs, Spelled name) ∧ (∀ file ∈ files, Spelled file.name ∧ file.Readable) ∧
        d'.pos + d'.rest.length = d.pos + d.rest.length) (readNames unit d) := by
  refine Ends.bind (dioLeft_ends d) False.elim fun _ d1 => ?_
  rintro ⟨rfl,rfl⟩
  refine Ends.bind (readDirs_ends _ unit d1) False.elim fun unit d2 => ?_
  rintro ⟨dirs,spelled,first⟩
  have begins : d1.rest = dirs.flatMap (fun name => name ++ [0]) ++ 0 :: d2.rest := by simpa using first.1
  refine Ends.bind (dioLeft_ends d2) False.elim fun _ d3 => ?_
  rintro ⟨rfl,rfl⟩
  refine (readFiles_ends _ unit d3).weaken (fun stumbles => ⟨dirs,d3.rest,begins,spelled,stumbles⟩) fun _ d4 => ?_
  rintro ⟨files,fine,second⟩
  have behind : d3.rest = files.flatMap FileEntry.bytes ++ 0 :: d4.rest := by simpa using second.1
  refine ⟨dirs,files,by rw [begins,behind],spelled,fine,?_⟩
  have far := first.length
  have far' := second.length
  have place := first.2
  have place' := second.2
  omega

theorem loadBehind_ends {front : Front} (small : front.header.opcodeBase < 256) (unit : CompUnit) (d : Dio) :
    Ends (front.Stumbles sec d) (fun _ _ => True) (loadBehind sec unit front d) := by
  unfold loadBehind
  generalize count : (front.header.opcodeBase + 2 ^ 32 - 1) % 2 ^ 32 = size
  refine Ends.bind (dioRead_ends size d) False.elim fun sizes d1 => ?_
  rintro ⟨length,first⟩
  rw [← count] at length
  by_cases zero : front.header.opcodeBase = 0
  · rw [if_pos zero]
    intro _
    rw [zero] at length
    exact .inl ⟨zero,wrapped_size length first.length⟩
  rw [if_neg zero]
  have some : 0 < front.header.opcodeBase := Nat.pos_of_ne_zero zero
  have sized : sizes.length + 1 = front.header.opcodeBase := by rw [length,opcode_sizes some small]
  refine Ends.bind (readNames_ends unit d1) ?_ fun unit d2 => ?_
  · rintro ⟨dirs,tail,begins,spelled,stumbles⟩
    exact .inr ⟨some,sizes,dirs,tail,by rw [first.1,begins],sized,spelled,.inl stumbles⟩
  rintro ⟨dirs,files,begins,spelled,fine,total⟩
  refine Ends.bind (dioGetPos_ends d2) False.elim fun _ d3 => ?_
  rintro ⟨rfl,rfl⟩
  by_cases near : front.namesEnd ≠ d3.pos ∧ ¬(front.dwarf64 = true ∧ front.namesEnd = d3.pos + 12)
  · rw [if_pos near]
    exact ends_fail nofun
  rw [if_neg near]
  refine Ends.bind (dioLeft_ends d3) False.elim fun _ d4 => ?_
  rintro ⟨rfl,rfl⟩
  refine Ends.bind (runProgram_ends _ _ _ d4) (fun stumbles => ?_) fun _ _ _ => trivial
  have ends : front.NamesEnd d4.pos := by
    by_cases same : front.namesEnd = d4.pos
    · exact .inl same
    · exact .inr (Decidable.not_not.mp fun far => near ⟨same,far⟩)
  refine .inr ⟨some,sizes,dirs,_,by rw [first.1,begins],sized,spelled,.inr ⟨files,d4.rest,d4.pos,rfl,fine,?_,ends,stumbles⟩⟩
  have far := first.length
  have place := first.2
  omega

theorem readNames_dirs {dirs : List (List UInt8)} (spelled : ∀ name ∈ dirs, Spelled name) (unit : CompUnit) (pos : Nat) (tail : List UInt8) :
    readNames unit ⟨pos,dirs.flatMap (fun name => name ++ [0]) ++ 0 :: tail⟩ =
      readFiles tail.length { unit with dirs := unit.dirs ++ dirs } ⟨pos + (dirs.flatMap fun name => name ++ [0]).length + 1,tail⟩ := by
  have count := @flatMap_long _ dirs (fun name => name ++ [0]) fun name => by simp
  obtain ⟨more,rounds⟩ : ∃ more, (dirs.flatMap (fun name => name ++ [0]) ++ 0 :: tail).length = dirs.length + 1 + more := by
    apply Nat.exists_eq_add_of_le
    simp only [List.length_append,List.length_cons]
    omega
  refine (bind_run (show dioLeft _ = .ok (_,_) from rfl)).trans ?_
  rw [rounds]
  exact bind_run (readDirs_bytes spelled more unit pos tail)

theorem readNames_run {dirs : List (List UInt8)} (spelled : ∀ name ∈ dirs, Spelled name) {files : List FileEntry}
    (fine : ∀ file ∈ files, Spelled file.name ∧ file.Readable) (unit : CompUnit) (pos : Nat) (rest : List UInt8) :
    ∃ next, readNames unit ⟨pos,dirs.flatMap (fun name => name ++ [0]) ++ 0 :: (files.flatMap FileEntry.bytes ++ 0 :: rest)⟩ =
      .ok (next,⟨pos + (dirs.flatMap fun name => name ++ [0]).length + 1 + (files.flatMap FileEntry.bytes).length + 1,rest⟩) := by
  have count := @flatMap_long _ files FileEntry.bytes fun file => by simp [FileEntry.bytes]
  obtain ⟨more,rounds⟩ : ∃ more, (files.flatMap FileEntry.bytes ++ 0 :: rest).length = files.length + 1 + more := by
    apply Nat.exists_eq_add_of_le
    simp only [List.length_append,List.length_cons]
    omega
  rw [readNames_dirs spelled,rounds]
  exact ⟨_,readFiles_bytes (fun file member => (fine file member).1) (fun file member => (fine file member).2) more ..⟩

theorem loadBehind_undefined {front : Front} (small : front.header.opcodeBase < 256) {d : Dio} (stumbles : front.Stumbles sec d)
    (unit : CompUnit) : loadBehind sec unit front d = .error .undefined := by
  obtain ⟨pos,bytes⟩ := d
  rcases stumbles with ⟨zero,long⟩ | ⟨some,sizes,dirs,tail,split,sized,spelled,wrong⟩
  · unfold loadBehind
    have fits : ¬(0 + 2 ^ 32 - 1) % 2 ^ 32 > bytes.length := by
      change 2 ^ 32 - 1 ≤ bytes.length at long
      omega
    rw [zero]
    refine (bind_run (if_neg fits)).trans ?_
    rw [if_pos rfl]
    rfl
  · obtain rfl : bytes = _ := split
    have length : sizes.length = (front.header.opcodeBase + 2 ^ 32 - 1) % 2 ^ 32 := by
      have := opcode_sizes some small
      omega
    refine (bind_run (dioRead_bytes length)).trans ?_
    rw [if_neg (Nat.pos_iff_ne_zero.mp some)]
    rcases wrong with stumbles | ⟨files,program,place,rfl,fine,total,ends,stumbles⟩
    · exact bind_fail ((readNames_dirs spelled unit _ tail).trans (readFiles_undefined (d := ⟨_,tail⟩) stumbles _))
    · obtain ⟨next,names⟩ := readNames_run spelled fine unit (pos + (front.header.opcodeBase + 2 ^ 32 - 1) % 2 ^ 32) program
      have here : pos + (front.header.opcodeBase + 2 ^ 32 - 1) % 2 ^ 32 + (dirs.flatMap fun name => name ++ [0]).length + 1 +
          (files.flatMap FileEntry.bytes).length + 1 = place := by
        simp only [List.length_append,List.length_cons] at total
        omega
      rw [here] at names
      have near : ¬(front.namesEnd ≠ place ∧ ¬(front.dwarf64 = true ∧ front.namesEnd = place + 12)) :=
        fun far => ends.elim far.1 far.2
      refine (bind_run names).trans ((bind_run (show dioGetPos _ = .ok (place,_) from rfl)).trans ?_)
      rw [if_neg near]
      refine (bind_run (show dioLeft _ = .ok (program.length,_) from rfl)).trans ?_
      exact bind_fail (@runProgram_undefined sec (front.sized sizes) some front.stop ⟨place,program⟩ stumbles _)

end Tables

section Loops

/-- A loop in rounds, each of which reads something before it goes on. -/
structure Rounds {σ α : Type} (loop : Nat → σ → Read α) (round : (σ → Read α) → σ → Read α) : Prop where
  next : ∀ n s, loop (n + 1) s = round (loop n) s
  stuck : ∀ s d, d.rest = [] → ∃ f, loop 0 s d = round f s d
  reads : ∀ f g s d, (∀ s' d', d'.rest.length < d.rest.length → f s' d' = g s' d') → round f s d = round g s d

/-- More rounds than there are bytes make no difference. -/
theorem Rounds.enough {σ α : Type} {loop : Nat → σ → Read α} {round : (σ → Read α) → σ → Read α} (rounds : Rounds loop round) (n m : Nat)
    (s : σ) (d : Dio) (enough : d.rest.length ≤ n) (enough' : d.rest.length ≤ m) : loop n s d = loop m s d := by
  have empty (s : σ) (d : Dio) (none_ : d.rest = []) (f : σ → Read α) (n : Nat) : loop n s d = round f s d := by
    have any (g : σ → Read α) : round g s d = round f s d := rounds.reads g f s d fun s' d' less => by simp [none_] at less
    cases n with
    | zero =>
      obtain ⟨g,same⟩ := rounds.stuck s d none_
      rw [same,any]
    | succ n => rw [rounds.next,any]
  induction n generalizing m s d with
  | zero =>
    have none_ : d.rest = [] := List.length_eq_zero_iff.mp (Nat.le_zero.mp enough)
    rw [empty s d none_ (loop 0) 0,empty s d none_ (loop 0) m]
  | succ n ih =>
    cases m with
    | zero =>
      have none_ : d.rest = [] := List.length_eq_zero_iff.mp (Nat.le_zero.mp enough')
      rw [empty s d none_ (loop 0) 0,empty s d none_ (loop 0) (n + 1)]
    | succ m =>
      rw [rounds.next,rounds.next]
      exact rounds.reads _ _ s d fun s' d' less => ih m s' d' (by omega) (by omega)

/-- What is read before a call makes its input shorter. -/
theorem bind_shorter {x : Read α} {f g : α → Read β} {d : Dio} {U : Prop} (reads : Ends U (fun _ d' => d'.rest.length < d.rest.length) (x d))
    (same : ∀ a d', d'.rest.length < d.rest.length → f a d' = g a d') : (x >>= f) d = (x >>= g) d := by
  cases run : x d with
  | error failure => rw [bind_fail run,bind_fail run]
  | ok p =>
    obtain ⟨a,d'⟩ := p
    rw [run] at reads
    rw [bind_run run,bind_run run]
    exact same a d' reads

variable {sec : Section} {header : Header}

theorem at_pos {stop : Nat} {more done : Read α} (d : Dio) :
    (dioGetPos >>= fun pos => if pos < stop then more else done) d = if d.pos < stop then more d else done d := by
  rw [bind_run (show dioGetPos d = .ok (d.pos,d) from rfl)]
  split
  · rfl
  · rfl

theorem runProgram_rounds (stop : Nat) : Rounds (runProgram sec header stop) fun f l => dioGetPos >>= fun pos =>
    if pos < stop then runOpcode sec header l >>= f else pure l where
  next _ _ := rfl
  stuck l d none_ := by
    obtain ⟨pos,bytes⟩ := d
    obtain rfl : bytes = [] := none_
    refine ⟨runProgram sec header stop 0,?_⟩
    rw [runProgram,at_pos,at_pos]
    rfl
  reads f g l d same := by
    have shorter : Ends (Hazard header d.rest) (fun _ d' => d'.rest.length < d.rest.length) (runOpcode sec header l d) := by
      refine (runOpcode_ends d).weaken id fun _ d' => ?_
      rintro ⟨i,-,consumed⟩
      have far := consumed.length
      have positive := bytes_positive sec i
      omega
    rw [at_pos,at_pos,bind_shorter shorter same]

theorem readRowsV1_rounds (address sect stop : Nat) :
    Rounds (fun rounds (s : Nat × CompUnit) => readRowsV1 sec address sect stop rounds s.1 s.2) fun f s => dioGetPos >>= fun pos =>
      if pos < stop then readRowV1 sec address sect s.1 >>= fun state => f (state.line,addState s.2 state) else pure s.2 where
  next _ _ := rfl
  stuck s d none_ := by
    obtain ⟨pos,bytes⟩ := d
    obtain rfl : bytes = [] := none_
    refine ⟨fun s => readRowsV1 sec address sect stop 0 s.1 s.2,?_⟩
    simp only [readRowsV1]
    rw [at_pos,at_pos]
    rfl
  reads f g s d same := by
    have number (size : Nat) (d : Dio) : Ends False (fun _ d' => d.rest.length = size + d'.rest.length) (dioReadUint sec size d) := by
      refine (dioReadUint_ends size d).weaken id fun _ d' => ?_
      rintro ⟨-,consumed⟩
      rw [consumed.length,bytesOf_length]
    have shorter : Ends False (fun _ d' => d'.rest.length < d.rest.length) (readRowV1 sec address sect s.1 d) := by
      refine Ends.bind (number 4 d) id fun _ d1 first => Ends.bind (number 2 d1) id fun _ d2 second =>
        Ends.bind (number 4 d2) id fun _ d3 third => ?_
      change d3.rest.length < d.rest.length
      omega
    rw [at_pos,at_pos,bind_shorter shorter fun _ _ => same _ _]

theorem string_shorter (d : Dio) : Ends False (fun _ d' => d'.rest.length < d.rest.length) (dioReadString d) := by
  refine (dioReadString_ends d).weaken id fun _ d' => ?_
  rintro ⟨name,-,consumed,-⟩
  have far := consumed.length
  simp only [List.length_append,List.length_cons] at far
  omega

theorem readDirs_rounds : Rounds readDirs fun f unit => dioReadString >>= fun name => match name with
    | none => pure unit
    | some name => f (addDir unit name) where
  next _ _ := rfl
  stuck unit d none_ := by
    obtain ⟨pos,bytes⟩ := d
    obtain rfl : bytes = [] := none_
    exact ⟨readDirs 0,rfl⟩
  reads f g unit d same := by
    refine bind_shorter (string_shorter d) fun name d' less => ?_
    cases name with
    | none => rfl
    | some name => exact same _ d' less

theorem readFiles_rounds : Rounds readFiles fun f unit => dioReadString >>= fun name => match name with
    | none => pure unit
    | some name => readFileInfo unit (some name) >>= fun file => f (addFile unit file) where
  next _ _ := rfl
  stuck unit d none_ := by
    obtain ⟨pos,bytes⟩ := d
    obtain rfl : bytes = [] := none_
    exact ⟨readFiles 0,rfl⟩
  reads f g unit d same := by
    refine bind_shorter (string_shorter d) fun name d' less => ?_
    cases name with
    | none => rfl
    | some name =>
      have info : Ends (OverlongFile d'.rest) (fun _ d2 => d2.rest.length < d'.rest.length) (readFileInfo unit (some name) d') := by
        refine (readFileInfo_ends unit _ d').weaken id fun _ d2 => ?_
        rintro ⟨dir,modTime,size,-,consumed⟩
        have far := consumed.length
        simp only [List.length_append,Leb.bytes_length,Leb.length] at far
        omega
      exact bind_shorter info fun _ d2 less' => same _ d2 (by omega)

end Loops

section Files

/-- A unit as it is described in the file. -/
structure UnitSource where
  version : Nat
  name : Option (List UInt8)
  sec : Section
  lineInfoOffs : Nat
  dir : Option (List UInt8)

def UnitSource.unit (source : UnitSource) : LineUnit :=
  ⟨source.version,source.name,source.sec,⟨source.lineInfoOffs,source.dir,[],[],[]⟩,noRows,false⟩

/-- The units of a file by their places. -/
structure LineFile where
  cache : LineCache
  units : List LineUnit

def openFile (debugLineV1 debugLineV2 : Option (List UInt8)) (sources : List UnitSource) : LineFile :=
  ⟨⟨debugLineV1,debugLineV2,fun _ => []⟩,sources.map UnitSource.unit⟩

namespace LineFile

def load (f : LineFile) (id : Nat) : LineFile × Option Failure :=
  match f.units[id]? with
  | none => (f,none)
  | some unit =>
    let r := loadLineNumbers f.cache id unit
    (⟨r.1,f.units.set id r.2.1⟩,r.2.2)

def loads (f : LineFile) (ids : List Nat) : LineFile := ids.foldl (fun f id => (f.load id).1) f

/-- The unit has no files, directories or rows, and no entry of the hash is one of its files. -/
def Forgotten (f : LineFile) (id : Nat) (unit : LineUnit) : Prop :=
  (unit.table.files = [] ∧ unit.table.dirs = [] ∧ unit.table.states = [] ∧ unit.rows = noRows) ∧
    ∀ bucket, ∀ entry ∈ f.cache.fileInfoHash bucket, entry.1 ≠ id

/-- What is not loaded is forgotten. -/
def Sound (f : LineFile) : Prop :=
  ∀ id unit, f.units[id]? = some unit → unit.lineInfoLoaded = false → f.Forgotten id unit

/-- Every loop of the loader ends: rounds beyond the number of bytes make no difference. -/
structure Terminates (sec : Section) : Prop where
  dirs : ∀ n m unit (d : Dio), d.rest.length ≤ n → d.rest.length ≤ m → readDirs n unit d = readDirs m unit d
  files : ∀ n m unit (d : Dio), d.rest.length ≤ n → d.rest.length ≤ m → readFiles n unit d = readFiles m unit d
  program : ∀ header stop n m l (d : Dio), d.rest.length ≤ n → d.rest.length ≤ m →
    runProgram sec header stop n l d = runProgram sec header stop m l d
  rowsV1 : ∀ address sect stop n m line unit (d : Dio), d.rest.length ≤ n → d.rest.length ≤ m →
    readRowsV1 sec address sect stop n line unit d = readRowsV1 sec address sect stop m line unit d

/-- Loading the unit ends, with the rows or with an exception and nothing left of it. -/
structure Safe (f : LineFile) (id : Nat) : Prop where
  terminates : ∀ unit, f.units[id]? = some unit → Terminates unit.sec
  defined : (f.load id).2 ≠ some .undefined
  loaded : (f.load id).2 = none → ∀ unit, (f.load id).1.units[id]? = some unit → f.cache.section unit ≠ none → unit.lineInfoLoaded = true
  forgotten : (f.load id).2 ≠ none → ∀ unit, (f.load id).1.units[id]? = some unit → (f.load id).1.Forgotten id unit

/-- The unit is to be loaded from a place that is not in the section, or from a table with a hazard. -/
def Stumbles (f : LineFile) (id : Nat) : Prop :=
  ∃ unit data, f.units[id]? = some unit ∧ unit.lineInfoLoaded = false ∧ f.cache.section unit = some data ∧
    (data.length ≤ unit.table.lineInfoOffs ∨ 1 < unit.version ∧ ∃ front d,
      readFront unit.sec unit.table.lineInfoOffs ⟨unit.table.lineInfoOffs,data.drop unit.table.lineInfoOffs⟩ = .ok (front,d) ∧
        front.Stumbles unit.sec d)

end LineFile

theorem terminates (sec : Section) : LineFile.Terminates sec where
  dirs := readDirs_rounds.enough
  files := readFiles_rounds.enough
  program _ stop := (runProgram_rounds stop).enough
  rowsV1 address sect stop n m line unit := (readRowsV1_rounds address sect stop).enough n m (line,unit)

-- A reader is not evaluated from here on.
attribute [irreducible] Ends

/-- A table is undefined to read exactly when it has a hazard. -/
theorem readTable_undefined_iff (unit : LineUnit) (d : Dio) : readTable unit d = .error .undefined ↔ 1 < unit.version ∧ ∃ front d',
    readFront unit.sec unit.table.lineInfoOffs d = .ok (front,d') ∧ front.Stumbles unit.sec d' := by
  by_cases new : unit.version ≤ 1
  · have defined : Defined (readTable unit) := by
      unfold readTable
      simp only [new,if_true]
      exact (defined_readUint 4).bind fun _ => loadLineNumbersV1_defined _ _
    constructor
    · intro run
      exact ((defined d).cause run).elim
    · rintro ⟨old,-⟩
      omega
  · rw [readTable_front new]
    have ends := @readFront_ends unit.sec unit.table.lineInfoOffs d
    cases run : readFront unit.sec unit.table.lineInfoOffs d with
    | error failure =>
      rw [bind_fail run]
      constructor
      · intro same
        exact (ends.cause (run.trans (congrArg Except.error (Except.error.inj same)))).elim
      · rintro ⟨-,_,_,ok,-⟩
        cases ok
    | ok p =>
      obtain ⟨front,d'⟩ := p
      have small : front.header.opcodeBase < 256 := ends.result run
      rw [bind_run run]
      constructor
      · intro same
        exact ⟨Nat.lt_of_not_le new,front,d',rfl,(loadBehind_ends small _ d').cause same⟩
      · rintro ⟨-,_,_,ok,stumbles⟩
        cases ok
        exact loadBehind_undefined small stumbles _

theorem insertFiles_mem {id bucket : Nat} {files : List (FileInfo × Nat)} {hash : Nat → List (Nat × Nat)} {entry : Nat × Nat}
    (member : entry ∈ files.foldl (insertFile id) hash bucket) : entry.1 = id ∨ entry ∈ hash bucket := by
  induction files generalizing hash with
  | nil => exact .inr member
  | cons file files ih =>
    rcases ih member with own | later
    · exact .inl own
    · simp only [insertFile] at later
      split at later
      · rcases List.mem_cons.mp later with rfl | old
        · exact .inl rfl
        · exact .inr old
      · exact .inr later

/-- What one call does to the unit and the hash. -/
theorem loadLineNumbers_cases (cache : LineCache) (id : Nat) (unit : LineUnit) :
    (loadLineNumbers cache id unit = (cache,unit,none) ∧ (cache.section unit = none ∨ unit.lineInfoLoaded = true)) ∨
    (unit.lineInfoLoaded = false ∧ ∃ data, cache.section unit = some data ∧
      ((data.length ≤ unit.table.lineInfoOffs ∧ loadLineNumbers cache id unit = (cache,unit,some .undefined)) ∨
      (unit.table.lineInfoOffs < data.length ∧
        ((∃ failure, readTable unit ⟨unit.table.lineInfoOffs,data.drop unit.table.lineInfoOffs⟩ = .error failure ∧
          loadLineNumbers cache id unit = (cache,freeUnitCache unit,some failure)) ∨
        (∃ table d, readTable unit ⟨unit.table.lineInfoOffs,data.drop unit.table.lineInfoOffs⟩ = .ok (table,d) ∧
          loadLineNumbers cache id unit = ((computeReverseLookupIndices cache id { unit with table := table }).1,
            { (computeReverseLookupIndices cache id { unit with table := table }).2 with lineInfoLoaded := true },none)))))) := by
  unfold loadLineNumbers
  cases there : cache.section unit with
  | none => exact .inl ⟨rfl,.inl rfl⟩
  | some data =>
    by_cases loaded : unit.lineInfoLoaded = true
    · simp [loaded]
    refine .inr ⟨by simpa using loaded,data,rfl,?_⟩
    simp only [loaded,Bool.false_eq_true,if_false,dioEnterSection]
    by_cases inside : unit.table.lineInfoOffs < data.length
    · refine .inr ⟨inside,?_⟩
      simp only [inside,if_true]
      cases run : readTable unit ⟨unit.table.lineInfoOffs,data.drop unit.table.lineInfoOffs⟩ with
      | error failure => exact .inl ⟨failure,rfl,rfl⟩
      | ok p => exact .inr ⟨p.1,p.2,rfl,rfl⟩
    · refine .inl ⟨Nat.le_of_not_lt inside,?_⟩
      simp only [inside,if_false]

namespace LineFile

variable {f : LineFile} {id : Nat}

theorem openFile_sound (debugLineV1 debugLineV2 : Option (List UInt8)) (sources : List UnitSource) :
    (openFile debugLineV1 debugLineV2 sources).Sound := by
  intro id unit there _
  obtain ⟨source,_,rfl⟩ := List.mem_map.mp (List.mem_of_getElem? there)
  exact ⟨⟨rfl,rfl,rfl,rfl⟩,nofun⟩

/-- Another cache and another unit in a place are sound if the unit is, and the hash has nothing new of the other ones. -/
theorem Sound.replace (sound : f.Sound) {cache : LineCache} {next : LineUnit}
    (others : ∀ bucket, ∀ entry ∈ cache.fileInfoHash bucket, entry.1 = id ∨ entry ∈ f.cache.fileInfoHash bucket)
    (own : next.lineInfoLoaded = false → Forgotten ⟨cache,f.units.set id next⟩ id next) :
    Sound ⟨cache,f.units.set id next⟩ := by
  intro other unit there unloaded
  by_cases same : id = other
  · subst same
    obtain ⟨-,rfl⟩ : id < f.units.length ∧ next = unit := by
      simpa [List.getElem?_set_self',Option.map_eq_some_iff,List.getElem?_eq_some_iff] using there
    exact own unloaded
  · obtain ⟨empty,unlisted⟩ := sound other unit (by rwa [List.getElem?_set_ne same] at there) unloaded
    refine ⟨empty,fun bucket entry member => ?_⟩
    rcases others bucket entry member with rfl | old
    · exact same
    · exact unlisted bucket entry old

theorem load_unit {unit : LineUnit} (there : f.units[id]? = some unit) : f.load id =
    (⟨(loadLineNumbers f.cache id unit).1,f.units.set id (loadLineNumbers f.cache id unit).2.1⟩,(loadLineNumbers f.cache id unit).2.2) := by
  unfold load
  rw [there]

theorem forgotten_free {unit : LineUnit} (forgotten : f.Forgotten id unit) :
    Forgotten ⟨f.cache,f.units.set id (freeUnitCache unit)⟩ id (freeUnitCache unit) := ⟨⟨rfl,rfl,rfl,rfl⟩,forgotten.2⟩

theorem load_sound (sound : f.Sound) (id : Nat) : (f.load id).1.Sound := by
  cases there : f.units[id]? with
  | none =>
    unfold load
    rw [there]
    exact sound
  | some unit =>
    rw [load_unit there]
    have same : f.units.set id unit = f.units := by
      obtain ⟨inside,rfl⟩ := List.getElem?_eq_some_iff.mp there
      exact List.set_getElem_self inside
    rcases loadLineNumbers_cases f.cache id unit with ⟨run,-⟩ | ⟨unloaded,_,-,⟨-,run⟩ | ⟨-,⟨_,-,run⟩ | ⟨table,_,-,run⟩⟩⟩
    · rw [run,same]
      exact sound
    · rw [run,same]
      exact sound
    · rw [run]
      exact sound.replace (fun _ _ => .inr) fun _ => forgotten_free (sound id unit there unloaded)
    · rw [run]
      exact sound.replace (fun bucket entry member => insertFiles_mem member) nofun

theorem loads_sound (sound : f.Sound) (ids : List Nat) : (f.loads ids).Sound := by
  induction ids generalizing f with
  | nil => exact sound
  | cons id ids ih => exact ih (load_sound sound id)

/-- A call is safe unless the unit stumbles. -/
theorem safe_iff (sound : f.Sound) (id : Nat) : f.Safe id ↔ ¬f.Stumbles id := by
  cases there : f.units[id]? with
  | none =>
    have run : f.load id = (f,none) := by
      unfold load
      rw [there]
    have absent : ¬f.Stumbles id := by
      rintro ⟨unit,_,here,_⟩
      cases there.symm.trans here
    refine iff_of_true ⟨fun unit _ => terminates unit.sec,by simp [run],fun _ unit here => ?_,fun failed => absurd (by rw [run]) failed⟩ absent
    rw [run] at here
    cases there.symm.trans here
  | some unit =>
    have load := load_unit there
    have place (next : LineUnit) : (f.units.set id next)[id]? = some next := by
      rw [List.getElem?_set_self (List.getElem?_eq_some_iff.mp there).1]
    have undefined_iff := readTable_undefined_iff unit
    rcases loadLineNumbers_cases f.cache id unit with
      ⟨run,done⟩ | ⟨unloaded,data,content,⟨outside,run⟩ | ⟨inside,⟨failure,read,run⟩ | ⟨table,d,read,run⟩⟩⟩
    · rw [run] at load
      have absent : ¬f.Stumbles id := by
        rintro ⟨_,_,here,unloaded,content,-⟩
        cases there.symm.trans here
        simp [content,unloaded] at done
      refine iff_of_true ⟨fun unit _ => terminates unit.sec,by simp [load],fun _ other here content => ?_,fun failed => absurd (by rw [load]) failed⟩ absent
      rw [load,place] at here
      cases here
      exact done.resolve_left content
    · rw [run] at load
      exact iff_of_false (fun safe => safe.defined (by rw [load])) fun absent => absent ⟨unit,data,there,unloaded,content,.inl outside⟩
    · rw [run] at load
      have stumbles_iff : f.Stumbles id ↔ failure = .undefined := by
        have read_iff := undefined_iff ⟨unit.table.lineInfoOffs,data.drop unit.table.lineInfoOffs⟩
        rw [read,Except.error.injEq] at read_iff
        rw [read_iff]
        constructor
        · rintro ⟨_,_,here,_,content',wrong⟩
          cases there.symm.trans here
          cases content.symm.trans content'
          exact wrong.resolve_left (Nat.not_le_of_lt inside)
        · exact fun wrong => ⟨unit,data,there,unloaded,content,.inr wrong⟩
      rw [stumbles_iff]
      constructor
      · intro safe same
        exact safe.defined (by rw [load,same])
      · intro defined
        refine ⟨fun unit _ => terminates unit.sec,by simp [load,defined],fun ok => by simp [load] at ok,fun _ other here => ?_⟩
        rw [load,place] at here
        cases here
        rw [load]
        exact forgotten_free (sound id unit there unloaded)
    · rw [run] at load
      have absent : ¬f.Stumbles id := by
        rintro ⟨_,_,here,_,content',wrong⟩
        cases there.symm.trans here
        cases content.symm.trans content'
        have failed := (undefined_iff _).mpr (wrong.resolve_left (Nat.not_le_of_lt inside))
        cases read.symm.trans failed
      refine iff_of_true ⟨fun unit _ => terminates unit.sec,by simp [load],fun _ other here _ => ?_,fun failed => absurd (by rw [load]) failed⟩ absent
      rw [load,place] at here
      cases here
      rfl

end LineFile

/-- A header of version 2 with a line range of 0, and a special opcode. -/
def zeroRange : List UInt8 := [14,0,0,0,2,0,7,0,0,0,1,1,0xfb,0,1,0,0,1]

end Files

end Tcf.Dwarf
