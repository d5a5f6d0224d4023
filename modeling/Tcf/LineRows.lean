import Mathlib.Data.Nat.ModEq
import Tcf.LineMachine

/-! The loader of line numbers reads what a table contains, and runs its program in step with the state
machine, up to a drift. -/
namespace Tcf.Dwarf

open ByteNumbers

@[simp] theorem Failure.ok_bind (a : α) (f : α → Except Failure β) : (Except.ok a >>= f) = f a := rfl

@[simp] theorem Failure.error_bind (e : Failure) (f : α → Except Failure β) : ((Except.error e : Except Failure α) >>= f) = .error e := rfl

@[simp] theorem Failure.pure_eq (a : α) : (pure a : Except Failure α) = .ok a := rfl

variable {name : List UInt8}

section Reading

variable {d d' : Dio} {pos : Nat} {rest : List UInt8}

theorem bind_run {x : Read α} {f : α → Read β} (run : x d = .ok (a,d')) : (x >>= f) d = f a d' := by
  change (x d >>= fun p => f p.1 p.2) = f a d'
  rw [run]
  rfl

theorem bind_fail {failure : Failure} {x : Read α} {f : α → Read β} (run : x d = .error failure) : (x >>= f) d = .error failure := by
  change (x d >>= fun p => f p.1 p.2) = .error failure
  rw [run]
  rfl

variable {width : Nat}

theorem lebLoop_short {signed : Bool} (last : Fin 128) (groups : List (Fin 128)) (pos : Nat) {low i : Nat} (below : low < 2 ^ i)
    (short : i + 7 * groups.length < width) :
    ∃ n : Nat, lebLoop width signed (groupsBytes last groups ++ rest) pos low i = .ok (n,⟨pos + groups.length + 1,rest⟩) ∧
      (n : Int) = (low + groupsValue last groups * 2 ^ i -
        (if signed = true ∧ 64 ≤ last.val then 128 ^ (groups.length + 1) * 2 ^ i else 0) : Int) % 2 ^ width := by
  induction groups generalizing pos low i with
  | nil =>
    obtain ⟨value,mark,sign⟩ := last_byte last
    have here : i < width := by simpa using short
    have bits := or_shifted last.val below (Nat.le_of_lt here)
    have run : lebLoop width signed (groupsBytes last [] ++ rest) pos low i =
        if signed = true then .ok ((low + last.val * 2 ^ i) % 2 ^ width |||
            (2 ^ width - (if 64 ≤ last.val then 64 else 0) <<< i % 2 ^ width) % 2 ^ width,⟨pos + 1,rest⟩)
        else .ok ((low + last.val * 2 ^ i) % 2 ^ width,⟨pos + 1,rest⟩) := by
      simp only [groupsBytes,List.singleton_append,lebLoop,shiftLeft,here,if_true,value,mark,sign,Failure.ok_bind,bits]
      rfl
    rw [run]
    by_cases negative : signed = true ∧ 64 ≤ last.val
    · obtain ⟨rfl,high⟩ := negative
      refine ⟨_,by simp only [high,if_true]; rfl,?_⟩
      rw [or_sign below last.isLt high]
      simp [groupsValue,high]
    · refine ⟨(low + last.val * 2 ^ i) % 2 ^ width,?_,by simp [groupsValue,negative]⟩
      cases signed with
      | false => rfl
      | true =>
        have high : ¬64 ≤ last.val := fun high => negative ⟨rfl,high⟩
        simp [high]
  | cons group groups ih =>
    obtain ⟨value,mark⟩ := group_byte group
    have here : i < width := by omega
    have bits := or_shifted group.val below (Nat.le_of_lt here)
    have next : (low + group.val * 2 ^ i) % 2 ^ width < 2 ^ (i + 7) := by
      apply (Nat.mod_le _ _).trans_lt
      have size := group.isLt
      calc low + group.val * 2 ^ i < 2 ^ i + group.val * 2 ^ i := Nat.add_lt_add_right below _
        _ = (group.val + 1) * 2 ^ i := by ring
        _ ≤ 128 * 2 ^ i := Nat.mul_le_mul_right _ size
        _ = 2 ^ (i + 7) := by ring
    have left : i + 7 + 7 * groups.length < width := by
      simp only [List.length_cons] at short
      omega
    obtain ⟨n,run,equal⟩ := ih (pos + 1) next left
    refine ⟨n,?_,?_⟩
    · simp only [groupsBytes,List.cons_append,lebLoop,shiftLeft,here,if_true,value,mark,if_false,Failure.ok_bind,bits]
      rw [run]
      simp only [List.length_cons]
      congr 3
      omega
    · rw [equal]
      simp only [groupsValue,List.length_cons]
      push_cast
      rw [Int.sub_emod,Int.add_emod,Int.emod_emod_of_dvd _ (Int.dvd_refl _),← Int.add_emod,← Int.sub_emod]
      congr 1
      split <;> ring

theorem lebLoop_long {signed : Bool} (last : Fin 128) (groups : List (Fin 128)) {low i : Nat}
    (long : width ≤ i + 7 * groups.length) :
    lebLoop width signed (groupsBytes last groups ++ rest) pos low i = .error .undefined := by
  induction groups generalizing pos low i with
  | nil =>
    have reached : ¬i < width := by simpa using long
    simp [groupsBytes,lebLoop,shiftLeft,reached]
  | cons group groups ih =>
    obtain ⟨value,mark⟩ := group_byte group
    by_cases here : i < width
    · simp only [groupsBytes,List.cons_append,lebLoop,shiftLeft,here,if_true,mark,if_false,Failure.ok_bind]
      apply ih
      simp only [List.length_cons] at long
      omega
    · simp [groupsBytes,lebLoop,shiftLeft,here]

variable {leb : Leb}

theorem readLeb (pos : Nat) (rest : List UInt8) (signed : Bool) (short : Short width leb) :
    ∃ n : Nat, lebLoop width signed (leb.bytes ++ rest) pos 0 0 = .ok (n,⟨pos + leb.length,rest⟩) ∧
      (n : Int) = (if signed = true then leb.signed else leb.unsigned) % 2 ^ width := by
  have inside : 0 + 7 * leb.groups.length < width := by simpa [Short] using short
  obtain ⟨n,run,value⟩ := lebLoop_short leb.last leb.groups pos (Nat.two_pow_pos 0) inside
  refine ⟨n,run,?_⟩
  rw [value]
  cases signed <;> simp [Leb.signed,Leb.unsigned,Leb.length]

theorem readLeb_long (signed : Bool) (long : ¬Short width leb) :
    lebLoop width signed (leb.bytes ++ rest) pos 0 0 = .error .undefined := by
  apply lebLoop_long
  unfold Short at long
  omega

theorem dioReadULEB128_short (short : Short 32 leb) :
    dioReadULEB128 ⟨pos,leb.bytes ++ rest⟩ = .ok (leb.unsigned % 2 ^ 32,⟨pos + leb.length,rest⟩) := by
  obtain ⟨n,run,value⟩ := readLeb pos rest false short
  have same : n = leb.unsigned % 2 ^ 32 := by
    simp only [Bool.false_eq_true,if_false] at value
    omega
  rw [← same]
  exact run

theorem dioReadU8LEB128_short (short : Short 64 leb) :
    dioReadU8LEB128 ⟨pos,leb.bytes ++ rest⟩ = .ok (leb.unsigned % 2 ^ 64,⟨pos + leb.length,rest⟩) := by
  obtain ⟨n,run,value⟩ := readLeb pos rest false short
  have same : n = leb.unsigned % 2 ^ 64 := by
    simp only [Bool.false_eq_true,if_false] at value
    omega
  rw [← same]
  exact run

theorem dioReadSLEB128_short (pos : Nat) (rest : List UInt8) (short : Short 32 leb) :
    ∃ n, dioReadSLEB128 ⟨pos,leb.bytes ++ rest⟩ = .ok (n,⟨pos + leb.length,rest⟩) ∧ n % 2 ^ 32 = leb.signed % 2 ^ 32 := by
  obtain ⟨n,run,value⟩ := readLeb pos rest true short
  have cast : toI4 n % 2 ^ 32 = n := by
    have small := Int.emod_lt_of_pos leb.signed (show (0 : Int) < 2 ^ 32 by decide)
    simp only [if_true] at value
    unfold toI4
    split <;> omega
  refine ⟨toI4 n,?_,cast.trans (by simpa using value)⟩
  unfold dioReadSLEB128
  simp only [run,Failure.ok_bind,Failure.pure_eq]

theorem dioRead_bytes {bytes : List UInt8} {size : Nat} (length : bytes.length = size) :
    dioRead size ⟨pos,bytes ++ rest⟩ = .ok (bytes,⟨pos + size,rest⟩) := by
  subst length
  simp [dioRead]

theorem dioReadUint_bytes (sec : Section) {size value : Nat} (fits : value < 256 ^ size) :
    dioReadUint sec size ⟨pos,bytesOf sec.bigEndian size value ++ rest⟩ = .ok (value,⟨pos + size,rest⟩) := by
  unfold dioReadUint
  rw [bind_run (dioRead_bytes (bytesOf_length ..)),valueOf_bytesOf fits]
  rfl

theorem stringLoop_bytes (inside : 0 ∉ name) (before : List UInt8) :
    stringLoop before (name ++ 0 :: rest) pos =
      .ok (if before ++ name = [] then none else some (before ++ name),⟨pos + name.length + 1,rest⟩) := by
  induction name generalizing before pos with
  | nil => simp [stringLoop]
  | cons byte name ih =>
    have plain : byte ≠ 0 := fun zero => inside (zero ▸ List.mem_cons_self ..)
    have later : 0 ∉ name := fun member => inside (List.mem_cons_of_mem _ member)
    simp only [List.cons_append,stringLoop,plain,if_false,ih later,List.append_assoc,List.length_cons,List.nil_append]
    congr 3
    omega

theorem dioReadString_bytes (inside : 0 ∉ name) :
    dioReadString ⟨pos,name ++ 0 :: rest⟩ = .ok (if name = [] then none else some name,⟨pos + name.length + 1,rest⟩) :=
  stringLoop_bytes inside []

theorem readFileInfo_bytes (pos : Nat) (rest : List UInt8) (unit : CompUnit) (name : Option (List UInt8)) {file : FileEntry} (readable : file.Readable) :
    readFileInfo unit name ⟨pos,file.dir.bytes ++ (file.modTime.bytes ++ (file.size.bytes ++ rest))⟩ =
      .ok (fileInfo unit name (file.dir.unsigned % 2 ^ 32) (file.modTime.unsigned % 2 ^ 32) (file.size.unsigned % 2 ^ 32),
        ⟨pos + file.dir.length + file.modTime.length + file.size.length,rest⟩) := by
  obtain ⟨dir,modTime,size⟩ := readable
  unfold readFileInfo
  rw [bind_run (dioReadULEB128_short dir),bind_run (dioReadULEB128_short modTime),bind_run (dioReadULEB128_short size)]
  rfl

theorem dioReadULEB128_long (long : ¬Short 32 leb) : dioReadULEB128 ⟨pos,leb.bytes ++ rest⟩ = .error .undefined :=
  readLeb_long false long

theorem readFileInfo_long (unit : CompUnit) (name : Option (List UInt8)) {file : FileEntry} (long : ¬file.Readable) :
    readFileInfo unit name ⟨pos,file.dir.bytes ++ (file.modTime.bytes ++ (file.size.bytes ++ rest))⟩ = .error .undefined := by
  unfold readFileInfo
  by_cases dir : Short 32 file.dir
  · rw [bind_run (dioReadULEB128_short dir)]
    by_cases modTime : Short 32 file.modTime
    · rw [bind_run (dioReadULEB128_short modTime)]
      exact bind_fail (dioReadULEB128_long fun size => long ⟨dir,modTime,size⟩)
    · exact bind_fail (dioReadULEB128_long modTime)
  · exact bind_fail (dioReadULEB128_long dir)

end Reading

def Standard.load (header : Header) (l : Loader) : Standard → Loader
  | copy => l.copy
  | advancePc n => l.advancePc header (n.unsigned % 2 ^ 64)
  | advanceLine n => l.advanceLine n.signed
  | setFile n => l.setFile (n.unsigned % 2 ^ 32)
  | setColumn n => l.setColumn (n.unsigned % 2 ^ 32)
  | negateStmt => l.negateStmt
  | setBasicBlock => l.setFlag LINE_BasicBlock
  | constAddPc => l.constAddPc header
  | fixedAdvancePc n => l.advanceAddress n
  | setPrologueEnd => l.setFlag LINE_PrologueEnd
  | setEpilogueBegin => l.setFlag LINE_EpilogueBegin
  | setIsa n => l.setIsa (n.unsigned % 2 ^ 32)

/-- The loader reads an address only in the sizes that it knows. -/
def Extended.Addressed (sec : Section) : Extended → Prop
  | .setAddress _ => sec.addressSize ∈ [2,4,8]
  | _ => True

theorem Extended.Addressed.of_size {sec : Section} (size : sec.addressSize ∈ [2,4,8]) (op : Extended) : op.Addressed sec := by
  cases op with
  | setAddress => exact size
  | _ => trivial

def FileEntry.info (unit : CompUnit) (file : FileEntry) : FileInfo :=
  fileInfo unit (if file.name = [] then none else some file.name) (file.dir.unsigned % 2 ^ 32) (file.modTime.unsigned % 2 ^ 32)
    (file.size.unsigned % 2 ^ 32)

def Extended.load (sec : Section) (header : Header) (pos : Nat) (l : Loader) : Extended → Loader
  | endSequence => l.endSequence header
  | setAddress value => l.setAddress (sec.address pos value,(sec.relocate pos value).2.getD 0)
  | defineFile file => l.defineFile (file.info l.unit)
  | setDiscriminator n => l.setDiscriminator (n.unsigned % 2 ^ 32)
  | other _ _ => l

/-- What the loader does with an instruction once it is read. -/
def Instruction.load (sec : Section) (header : Header) (pos : Nat) (l : Loader) : Instruction → Loader
  | special opcode => l.special header opcode.toNat
  | standard op => op.load header l
  | unknown _ _ => l
  | extended size op => op.load sec header (pos + size.length + 2) l

section Rounds

variable {sec : Section} {header : Header} {l : Loader} {pos : Nat} {rest : List UInt8}

theorem advanceLine_congr {m n : Int} (same : m % 2 ^ 32 = n % 2 ^ 32) : l.advanceLine m = l.advanceLine n := by
  unfold Loader.advanceLine
  rw [Int.add_emod,same,← Int.add_emod]

variable {op : Standard}

theorem standardOpcode_bytes (fits : op.Fits) (readable : op.Readable)
    (range : op = .constAddPc → header.lineRange ≠ 0) :
    standardOpcode sec header l op.opcode ⟨pos,op.operands sec ++ rest⟩ =
      .ok (op.load header l,⟨pos + (op.operands sec).length,rest⟩) := by
  cases op with
  | copy | negateStmt | setBasicBlock | setPrologueEnd | setEpilogueBegin => rfl
  | constAddPc =>
    simp only [Standard.opcode,standardOpcode,range rfl,if_false]
    rfl
  | advancePc n =>
    simp only [Standard.opcode,standardOpcode,Standard.operands,Leb.bytes_length]
    rw [bind_run (dioReadU8LEB128_short readable)]
    rfl
  | advanceLine n =>
    obtain ⟨value,run,same⟩ := dioReadSLEB128_short pos rest readable
    simp only [Standard.opcode,standardOpcode,Standard.operands,Leb.bytes_length]
    rw [bind_run run,advanceLine_congr same]
    rfl
  | setFile n | setColumn n | setIsa n =>
    simp only [Standard.opcode,standardOpcode,Standard.operands,Leb.bytes_length]
    rw [bind_run (dioReadULEB128_short readable)]
    rfl
  | fixedAdvancePc n =>
    simp only [Standard.opcode,standardOpcode,Standard.operands,bytesOf_length,dioReadU2]
    rw [bind_run (dioReadUint_bytes sec fits)]
    rfl

theorem standardOpcode_long (long : ¬op.Readable) :
    standardOpcode sec header l op.opcode ⟨pos,op.operands sec ++ rest⟩ = .error .undefined := by
  cases op with
  | copy | negateStmt | setBasicBlock | setPrologueEnd | setEpilogueBegin | constAddPc | fixedAdvancePc n => exact absurd trivial long
  | advancePc n => exact bind_fail (readLeb_long false long)
  | advanceLine n =>
    apply bind_fail
    unfold dioReadSLEB128
    simp only [Standard.operands,readLeb_long true long,Failure.error_bind]
  | setFile n | setColumn n | setIsa n => exact bind_fail (dioReadULEB128_long long)

theorem standardOpcode_unknown {opcode : Nat} (unknown : 13 ≤ opcode) (d : Dio) :
    standardOpcode sec header l opcode d = .error (.invDwarf "Invalid line info op code") := by
  unfold standardOpcode
  split <;> first | omega | rfl

theorem dioReadAddress_bytes {value : Nat} (fits : value < 256 ^ sec.addressSize) (size : sec.addressSize ∈ [2,4,8]) :
    dioReadAddress sec ⟨pos,bytesOf sec.bigEndian sec.addressSize value ++ rest⟩ =
      .ok ((sec.address pos value,(sec.relocate pos value).2.getD 0),⟨pos + sec.addressSize,rest⟩) := by
  have one : sec.addressSize = 2 ∨ sec.addressSize = 4 ∨ sec.addressSize = 8 := by simpa using size
  unfold dioReadAddress
  rw [bind_run (show dioGetPos _ = .ok (pos,_) from rfl),if_pos one,bind_run (dioReadUint_bytes sec fits)]
  rfl

theorem dioSkip_bytes (data : List UInt8) : dioSkip data.length ⟨pos,data ++ rest⟩ = .ok ((),⟨pos + data.length,rest⟩) := by
  simp [dioSkip]

theorem extendedOpcode_other {opcode : UInt8} (new : opcode ∉ ([1,2,3,4] : List UInt8)) (opSize : Nat) :
    extendedOpcode sec header l opSize opcode.toNat = (do
      dioSkip ((opSize + 2 ^ 32 - 1) % 2 ^ 32)
      pure l) := by
  have differs : ∀ n : UInt8, n ∈ ([1,2,3,4] : List UInt8) → opcode.toNat ≠ n.toNat :=
    fun n member same => new (UInt8.toNat_inj.mp same ▸ member)
  unfold extendedOpcode
  split
  · next same => exact absurd same (differs 1 (by simp))
  · next same => exact absurd same (differs 2 (by simp))
  · next same => exact absurd same (differs 3 (by simp))
  · next same => exact absurd same (differs 4 (by simp))
  · rfl

theorem extendedOpcode_bytes {op : Extended} (fits : op.Fits sec) (readable : op.Readable) (size : op.Addressed sec)
    {opSize : Nat} (sized : opSize = (op.operands sec).length + 1) (small : opSize < 2 ^ 32) :
    extendedOpcode sec header l opSize op.opcode.toNat ⟨pos,op.operands sec ++ rest⟩ =
      .ok (op.load sec header pos l,⟨pos + (op.operands sec).length,rest⟩) := by
  cases op with
  | endSequence => rfl
  | setAddress value =>
    change (dioReadAddress sec >>= fun address => pure (l.setAddress address)) _ = _
    rw [show (Extended.setAddress value).operands sec = bytesOf sec.bigEndian sec.addressSize value from rfl,
      bind_run (dioReadAddress_bytes fits size),bytesOf_length]
    rfl
  | defineFile file =>
    change (dioReadString >>= fun name => readFileInfo l.unit name >>= fun file => pure (l.defineFile file)) _ = _
    simp only [Extended.operands,FileEntry.bytes,List.append_assoc,List.cons_append]
    rw [bind_run (dioReadString_bytes fits),bind_run (readFileInfo_bytes _ _ l.unit _ readable)]
    simp only [List.length_append,List.length_cons,Leb.bytes_length]
    change Except.ok _ = _
    congr 3
    omega
  | setDiscriminator n =>
    change (dioReadULEB128 >>= fun n => pure (l.setDiscriminator n)) _ = _
    rw [show (Extended.setDiscriminator n).operands sec = n.bytes from rfl,bind_run (dioReadULEB128_short readable),Leb.bytes_length]
    rfl
  | other opcode data =>
    have skip : (opSize + 2 ^ 32 - 1) % 2 ^ 32 = data.length := by
      simp only [Extended.operands] at sized
      omega
    rw [show (Extended.other opcode data).opcode = opcode from rfl,extendedOpcode_other fits,skip]
    exact bind_run (dioSkip_bytes data)

theorem extendedOpcode_long {op : Extended} (fits : op.Fits sec) (long : ¬op.Readable) (opSize : Nat) :
    extendedOpcode sec header l opSize op.opcode.toNat ⟨pos,op.operands sec ++ rest⟩ = .error .undefined := by
  cases op with
  | endSequence | setAddress value | other opcode data => exact absurd trivial long
  | defineFile file =>
    change (dioReadString >>= fun name => readFileInfo l.unit name >>= fun file => pure (l.defineFile file)) _ = _
    simp only [Extended.operands,FileEntry.bytes,List.append_assoc,List.cons_append]
    rw [bind_run (dioReadString_bytes fits)]
    exact bind_fail (readFileInfo_long l.unit _ long)
  | setDiscriminator n => exact bind_fail (dioReadULEB128_long long)

theorem runOpcode_cons (byte : UInt8) :
    runOpcode sec header l ⟨pos,byte :: rest⟩ =
      (if byte.toNat ≥ header.opcodeBase then
        if header.lineRange = 0 ∨ header.maxOpsPerInstruction = 0 then fail .undefined
        else pure (l.special header byte.toNat)
      else if byte.toNat = 0 then do
        let opSize ← dioReadULEB128
        let opPos ← dioGetPos
        let extended ← dioReadU1
        let l ← extendedOpcode sec header l opSize extended
        let pos ← dioGetPos
        if pos ≠ opPos + opSize then fail (.invDwarf "Invalid line info op size") else pure l
      else standardOpcode sec header l byte.toNat) ⟨pos + 1,rest⟩ := rfl

theorem Standard.opcode_byte (op : Standard) : (UInt8.ofNat op.opcode).toNat = op.opcode ∧ op.opcode ≠ 0 := by
  cases op <;> exact ⟨rfl,by simp [opcode]⟩

theorem runOpcode_standard (below : op.opcode < header.opcodeBase) :
    runOpcode sec header l ⟨pos,(Instruction.standard op).bytes sec ++ rest⟩ =
      standardOpcode sec header l op.opcode ⟨pos + 1,op.operands sec ++ rest⟩ := by
  obtain ⟨byte,some⟩ := op.opcode_byte
  rw [show (Instruction.standard op).bytes sec ++ rest = UInt8.ofNat op.opcode :: (op.operands sec ++ rest) from rfl,
    runOpcode_cons,byte,if_neg (Nat.not_le_of_lt below),if_neg some]

theorem runOpcode_zero (base : 0 < header.opcodeBase) :
    runOpcode sec header l ⟨pos,0 :: rest⟩ = (do
      let opSize ← dioReadULEB128
      let opPos ← dioGetPos
      let extended ← dioReadU1
      let l ← extendedOpcode sec header l opSize extended
      let pos ← dioGetPos
      if pos ≠ opPos + opSize then fail (.invDwarf "Invalid line info op size") else pure l) ⟨pos + 1,rest⟩ := by
  have below : ¬(0 : UInt8).toNat ≥ header.opcodeBase := Nat.not_le_of_lt base
  rw [runOpcode_cons,if_neg below,if_pos (show (0 : UInt8).toNat = 0 from rfl)]

theorem extended_bytes (size : Leb) (op : Extended) :
    (Instruction.extended size op).bytes sec ++ rest = 0 :: (size.bytes ++ (op.opcode :: (op.operands sec ++ rest))) := by
  simp [Instruction.bytes]

/-- What is left of a round once the size of an extended instruction is read. -/
theorem runOpcode_extended {size : Leb} {op : Extended} (base : 0 < header.opcodeBase) (short : Short 32 size) :
    runOpcode sec header l ⟨pos,(Instruction.extended size op).bytes sec ++ rest⟩ = (do
      let l ← extendedOpcode sec header l (size.unsigned % 2 ^ 32) op.opcode.toNat
      let stop ← dioGetPos
      if stop ≠ pos + 1 + size.length + size.unsigned % 2 ^ 32 then fail (.invDwarf "Invalid line info op size") else pure l)
        ⟨pos + size.length + 2,op.operands sec ++ rest⟩ := by
  rw [extended_bytes,runOpcode_zero base,bind_run (dioReadULEB128_short short),
    bind_run (show dioGetPos _ = .ok (pos + 1 + size.length,_) from rfl),
    bind_run (show dioReadU1 _ = .ok (op.opcode.toNat,⟨pos + 1 + size.length + 1,_⟩) from rfl),
    show pos + 1 + size.length + 1 = pos + size.length + 2 by omega]

theorem runOpcode_bytes {i : Instruction} (well : i.WellFormed sec header) (readable : i.Readable) (sized : i.Sized)
    (base : 0 < header.opcodeBase) (range : header.lineRange ≠ 0) (ops : header.maxOpsPerInstruction ≠ 0)
    (size : sec.addressSize ∈ [2,4,8]) :
    runOpcode sec header l ⟨pos,i.bytes sec ++ rest⟩ = .ok (i.load sec header pos l,⟨pos + (i.bytes sec).length,rest⟩) := by
  cases i with
  | special opcode =>
    have above : opcode.toNat ≥ header.opcodeBase := well
    rw [show (Instruction.special opcode).bytes sec ++ rest = opcode :: rest from rfl,runOpcode_cons,if_pos above,
      if_neg (by simp [range,ops])]
    rfl
  | standard op =>
    rw [runOpcode_standard well.1,standardOpcode_bytes well.2 readable fun _ => range,
      show ((Instruction.standard op).bytes sec).length = 1 + (op.operands sec).length by simp [Instruction.bytes,Nat.add_comm],
      ← Nat.add_assoc]
    rfl
  | unknown opcode operands => exact readable.elim
  | extended length op =>
    obtain ⟨whole,fits⟩ := well
    have total : ((Instruction.extended length op).bytes sec).length = length.length + 2 + (op.operands sec).length := by
      simp [Instruction.bytes]
      omega
    have stop : pos + length.length + 2 + (op.operands sec).length = pos + 1 + length.length + length.unsigned := by omega
    rw [runOpcode_extended base readable.1,Nat.mod_eq_of_lt sized,
      bind_run (extendedOpcode_bytes fits readable.2 (.of_size size op) whole sized),
      bind_run (show dioGetPos _ = .ok (_,_) from rfl),if_neg (by simp [stop]),total,← Nat.add_assoc,← Nat.add_assoc]
    rfl

theorem runOpcode_long {i : Instruction} (well : i.WellFormed sec header) (long : ¬i.Readable) (sized : i.Sized)
    (base : 0 < header.opcodeBase) : ∃ failure, runOpcode sec header l ⟨pos,i.bytes sec ++ rest⟩ = .error failure := by
  cases i with
  | special opcode => exact absurd trivial long
  | standard op =>
    rw [runOpcode_standard well.1]
    exact ⟨_,standardOpcode_long long⟩
  | unknown opcode operands =>
    obtain ⟨new,below,_⟩ := well
    rw [show (Instruction.unknown opcode operands).bytes sec ++ rest = opcode :: (operands.flatMap Leb.bytes ++ rest) from rfl,
      runOpcode_cons,if_neg (Nat.not_le_of_lt below),if_neg (by omega),standardOpcode_unknown new]
    exact ⟨_,rfl⟩
  | extended length op =>
    by_cases short : Short 32 length
    · rw [runOpcode_extended base short]
      exact ⟨_,bind_fail (extendedOpcode_long well.2 (fun readable => long ⟨short,readable⟩) _)⟩
    · rw [extended_bytes,runOpcode_zero base]
      exact ⟨_,bind_fail (dioReadULEB128_long short)⟩

end Rounds

/-- The state that the loader adds to the unit. -/
def Instruction.entry (header : Header) (l : Loader) : Instruction → Option LineNumbersState
  | special opcode => some (l.advanceSpecial header opcode.toNat).state
  | standard .copy => some l.state
  | extended _ .endSequence => some (l.setFlag LINE_EndSequence).state
  | standard _ | unknown _ _ | extended _ _ => none

/-- The loader on instructions, at a position. It emits the rows that are in the file table. -/
def loader (sec : Section) (header : Header) : Transducer (Loader × Nat) Instruction Registers where
  step p i := ((i.load sec header p.2 p.1,p.2 + (i.bytes sec).length),
    ((i.entry header p.1).filter fun state => state.file < p.1.unit.files.length).map LineNumbersState.row)

section Programs

theorem bytes_positive (sec : Section) (i : Instruction) : 0 < (i.bytes sec).length := by cases i <;> simp [Instruction.bytes]

variable {sec : Section} {header : Header}

theorem runProgram_done {l : Loader} {pos stop : Nat} {rest : List UInt8} (done : stop ≤ pos) (rounds : Nat) :
    runProgram sec header stop rounds l ⟨pos,rest⟩ = .ok (l,⟨pos,rest⟩) := by
  cases rounds <;>
  · unfold runProgram
    rw [bind_run (show dioGetPos _ = .ok (pos,_) from rfl),if_neg (Nat.not_lt_of_le done)]
    rfl

variable {rounds : Nat}

theorem runProgram_next {l : Loader} {pos stop : Nat} {rest : List UInt8} (more : pos < stop) :
    runProgram sec header stop (rounds + 1) l ⟨pos,rest⟩ =
      (runOpcode sec header l >>= fun l => runProgram sec header stop rounds l) ⟨pos,rest⟩ := by
  rw [runProgram,bind_run (show dioGetPos _ = .ok (pos,_) from rfl),if_pos more]

variable (base : 0 < header.opcodeBase) (range : header.lineRange ≠ 0) (ops : header.maxOpsPerInstruction ≠ 0)
  (size : sec.addressSize ∈ [2,4,8])

include base range ops size in
theorem runProgram_bytes {program : List Instruction} (well : ∀ i ∈ program, i.WellFormed sec header)
    (sized : ∀ i ∈ program, i.Sized) (readable : ∀ i ∈ program, i.Readable) (enough : program.length ≤ rounds)
    (l : Loader) (pos : Nat) (rest : List UInt8) :
    runProgram sec header (pos + (program.flatMap (Instruction.bytes sec)).length) rounds l
        ⟨pos,program.flatMap (Instruction.bytes sec) ++ rest⟩ =
      .ok (((loader sec header).final (l,pos) program).1,⟨pos + (program.flatMap (Instruction.bytes sec)).length,rest⟩) := by
  induction program generalizing rounds l pos with
  | nil => exact runProgram_done (Nat.le_refl _) rounds
  | cons i program ih =>
    obtain ⟨left,rfl⟩ := Nat.exists_eq_add_of_le' (Nat.le_trans (Nat.succ_le_succ (Nat.zero_le _)) enough)
    have more : pos < pos + ((i :: program).flatMap (Instruction.bytes sec)).length := by
      have := bytes_positive sec i
      simp only [List.flatMap_cons,List.length_append]
      omega
    rw [runProgram_next more]
    simp only [List.flatMap_cons,List.append_assoc,List.length_append,← Nat.add_assoc]
    rw [bind_run (runOpcode_bytes (well i (List.mem_cons_self ..)) (readable i (List.mem_cons_self ..))
      (sized i (List.mem_cons_self ..)) base range ops size)]
    exact ih (fun j member => well j (List.mem_cons_of_mem _ member)) (fun j member => sized j (List.mem_cons_of_mem _ member))
      (fun j member => readable j (List.mem_cons_of_mem _ member)) (Nat.le_of_succ_le_succ enough) ..

include base range ops size in
theorem runProgram_long {program : List Instruction} (well : ∀ i ∈ program, i.WellFormed sec header)
    (sized : ∀ i ∈ program, i.Sized) (long : ¬∀ i ∈ program, i.Readable) (enough : program.length ≤ rounds)
    (l : Loader) (pos : Nat) (rest : List UInt8) :
    ∃ failure, runProgram sec header (pos + (program.flatMap (Instruction.bytes sec)).length) rounds l
      ⟨pos,program.flatMap (Instruction.bytes sec) ++ rest⟩ = .error failure := by
  induction program generalizing rounds l pos with
  | nil => exact absurd nofun long
  | cons i program ih =>
    obtain ⟨left,rfl⟩ := Nat.exists_eq_add_of_le' (Nat.le_trans (Nat.succ_le_succ (Nat.zero_le _)) enough)
    have more : pos < pos + ((i :: program).flatMap (Instruction.bytes sec)).length := by
      have := bytes_positive sec i
      simp only [List.flatMap_cons,List.length_append]
      omega
    rw [runProgram_next more]
    simp only [List.flatMap_cons,List.append_assoc,List.length_append,← Nat.add_assoc]
    by_cases readable : i.Readable
    · rw [bind_run (runOpcode_bytes (well i (List.mem_cons_self ..)) readable (sized i (List.mem_cons_self ..)) base range ops size)]
      apply ih (fun j member => well j (List.mem_cons_of_mem _ member)) (fun j member => sized j (List.mem_cons_of_mem _ member)) _
        (Nat.le_of_succ_le_succ enough)
      exact fun others => long (List.forall_mem_cons.mpr ⟨readable,others⟩)
    · obtain ⟨failure,run⟩ := runOpcode_long (well i (List.mem_cons_self ..)) readable (sized i (List.mem_cons_self ..)) base
      exact ⟨failure,bind_fail run⟩

end Programs

section Entries

variable {sec : Section} {header : Header} {l : Loader} {unit : CompUnit} {state : LineNumbersState}

theorem pushState_rows (plain : state.artificial = false) : (pushState unit state).rows = unit.rows ++ [state.row] := by
  simp [CompUnit.rows,pushState,plain]

theorem pushState_artificial (made : state.artificial = true) : (pushState unit state).rows = unit.rows := by
  simp [CompUnit.rows,pushState,made]

@[simp] theorem addState_files (unit : CompUnit) (state : LineNumbersState) :
    (addState unit state).files.length = unit.files.length := by
  unfold addState
  split
  · rfl
  · split <;> simp [pushState]

theorem addState_rows (plain : state.artificial = false) :
    (addState unit state).rows =
      unit.rows ++ (((some state).filter fun state => state.file < unit.files.length).map LineNumbersState.row).toList := by
  unfold addState
  by_cases inside : state.file < unit.files.length
  · rw [List.getElem?_eq_getElem inside]
    simp only [Option.filter,inside,decide_true,if_true,Option.map_some,Option.toList_some]
    split
    · rw [pushState_rows plain,pushState_artificial (by rfl)]
    · exact pushState_rows plain
  · rw [List.getElem?_eq_none (Nat.le_of_not_lt inside)]
    simp [Option.filter,inside]

/-- An instruction adds at most its entry, and a new file. -/
theorem load_unit (sec : Section) (header : Header) (i : Instruction) (pos : Nat) (plain : l.state.artificial = false) :
    (i.load sec header pos l).unit.rows = l.unit.rows ++ ((loader sec header).step (l,pos) i).2.toList ∧
    (i.load sec header pos l).unit.files.length = l.unit.files.length + i.newFiles ∧
    (i.load sec header pos l).state.artificial = false := by
  cases i with
  | special opcode => exact ⟨addState_rows plain,addState_files ..,plain⟩
  | unknown opcode operands => exact ⟨(List.append_nil _).symm,rfl,plain⟩
  | standard op =>
    cases op with
    | copy => exact ⟨addState_rows plain,addState_files ..,plain⟩
    | _ => exact ⟨(List.append_nil _).symm,rfl,plain⟩
  | extended size op =>
    cases op with
    | endSequence =>
      have marked : (l.setFlag LINE_EndSequence).state.artificial = false := plain
      exact ⟨addState_rows marked,addState_files ..,rfl⟩
    | defineFile file =>
      refine ⟨(List.append_nil _).symm,?_,plain⟩
      simp [Instruction.load,Extended.load,Loader.defineFile,addFile,Instruction.newFiles]
    | _ => exact ⟨(List.append_nil _).symm,rfl,plain⟩

theorem final_rows (program : List Instruction) (pos : Nat) (plain : l.state.artificial = false) :
    ((loader sec header).final (l,pos) program).1.unit.rows = l.unit.rows ++ (loader sec header).output (l,pos) program := by
  induction program generalizing l pos with
  | nil => exact (List.append_nil _).symm
  | cons i program ih =>
    obtain ⟨rows,_,plain'⟩ := load_unit sec header i pos plain
    rw [Transducer.final_cons,Transducer.output_cons,← List.append_assoc,← rows]
    exact ih _ plain'

end Entries

def flagBits (isStmt basicBlock prologueEnd epilogueBegin endSequence : Bool) : UInt8 :=
  (if isStmt then LINE_IsStmt else 0) ||| (if basicBlock then LINE_BasicBlock else 0) |||
    (if prologueEnd then LINE_PrologueEnd else 0) ||| (if epilogueBegin then LINE_EpilogueBegin else 0) |||
      (if endSequence then LINE_EndSequence else 0)

theorem flagBits_test : ∀ a b c d e, (flagBits a b c d e &&& LINE_IsStmt ≠ 0 ↔ a = true) ∧
    (flagBits a b c d e &&& LINE_BasicBlock ≠ 0 ↔ b = true) ∧ (flagBits a b c d e &&& LINE_PrologueEnd ≠ 0 ↔ c = true) ∧
    (flagBits a b c d e &&& LINE_EpilogueBegin ≠ 0 ↔ d = true) ∧ (flagBits a b c d e &&& LINE_EndSequence ≠ 0 ↔ e = true) := by
  decide

theorem flagBits_set : ∀ a b c d e, flagBits a b c d e ||| LINE_BasicBlock = flagBits a true c d e ∧
    flagBits a b c d e ||| LINE_PrologueEnd = flagBits a b true d e ∧ flagBits a b c d e ||| LINE_EpilogueBegin = flagBits a b c true e ∧
    flagBits a b c d e ||| LINE_EndSequence = flagBits a b c d true ∧ flagBits a b c d e ^^^ LINE_IsStmt = flagBits (!a) b c d e ∧
    flagBits a b c d e &&& ~~~(LINE_BasicBlock ||| LINE_PrologueEnd ||| LINE_EpilogueBegin) = flagBits a false false false e := by
  decide

/-- The flags of an entry. -/
def Registers.flags (r : Registers) : UInt8 := flagBits r.isStmt r.basicBlock r.prologueEnd r.epilogueBegin r.endSequence

/-- The fields of an entry are the registers, cut to their sizes, with the drift on top. -/
structure Follows (header : Header) (state : LineNumbersState) (r : Registers) (d : Drift) : Prop where
  address : state.address =
    (r.address + (r.opIndex + d.ops) / header.maxOpsPerInstruction * header.minInstructionLength) % 2 ^ 64
  opIndex : state.opIndex = (r.opIndex + d.ops) % header.maxOpsPerInstruction
  bound : r.opIndex < header.maxOpsPerInstruction
  file : state.file = r.file % 2 ^ 32
  line : (state.line : Int) = r.line % 2 ^ 32
  column : state.column = r.column % 2 ^ 16
  flags : state.flags = r.flags
  isa : state.isa = r.isa % 2 ^ 8
  discriminator : state.discriminator = (r.discriminator + d.discriminator) % 2 ^ 8
  plain : state.artificial = false

section Fields

variable {header : Header} {state : LineNumbersState} {r : Registers} {d : Drift}

section

variable (follows : Follows header state r d)

include follows

theorem row_eq_iff : state.row = r ↔ r.Shown header d := by
  obtain ⟨address,opIndex,bound,file,line,column,flags,isa,discriminator,plain⟩ := follows
  obtain ⟨isStmt,basicBlock,prologueEnd,epilogueBegin,endSequence⟩ :=
    flagBits_test r.isStmt r.basicBlock r.prologueEnd r.epilogueBegin r.endSequence
  change state.flags = flagBits _ _ _ _ _ at flags
  rw [← flags] at isStmt basicBlock prologueEnd epilogueBegin endSequence
  have aligned (whole : d.ops % header.maxOpsPerInstruction = 0) :
      (r.opIndex + d.ops) / header.maxOpsPerInstruction = d.ops / header.maxOpsPerInstruction ∧
      (r.opIndex + d.ops) % header.maxOpsPerInstruction = r.opIndex := by
    have shape := Nat.div_add_mod d.ops header.maxOpsPerInstruction
    rw [whole,Nat.add_zero] at shape
    have positive : 0 < header.maxOpsPerInstruction := Nat.lt_of_le_of_lt (Nat.zero_le _) bound
    constructor
    · rw [← shape,Nat.add_mul_div_left _ _ positive,Nat.div_eq_of_lt bound,Nat.zero_add,Nat.mul_div_cancel_left _ positive]
    · rw [← shape,Nat.add_mul_mod_self_left,Nat.mod_eq_of_lt bound]
  constructor
  · intro equal
    have whole : d.ops % header.maxOpsPerInstruction = 0 := by
      have same : (r.opIndex + d.ops) % header.maxOpsPerInstruction = r.opIndex := opIndex.symm.trans (congrArg Registers.opIndex equal)
      have cancel : r.opIndex + d.ops ≡ r.opIndex + 0 [MOD header.maxOpsPerInstruction] :=
        same.trans (Nat.mod_eq_of_lt bound).symm
      exact (show d.ops % _ = 0 % _ from Nat.ModEq.add_left_cancel' _ cancel).trans (Nat.zero_mod _)
    rw [(aligned whole).1] at address
    have address' : state.address = r.address := congrArg Registers.address equal
    have file' : state.file = r.file := congrArg Registers.file equal
    have line' : (state.line : Int) = r.line := congrArg Registers.line equal
    have column' : state.column = r.column := congrArg Registers.column equal
    have isa' : state.isa = r.isa := congrArg Registers.isa equal
    have discriminator' : state.discriminator = r.discriminator := congrArg Registers.discriminator equal
    refine ⟨?_,?_,?_,?_,?_,?_,whole⟩ <;> omega
  · rintro ⟨file',line',column',isa',⟨discriminator',kept⟩,⟨address',index⟩,whole⟩
    obtain ⟨quotient,remainder⟩ := aligned whole
    rw [quotient] at address
    rw [remainder] at opIndex
    have address : state.address = r.address := by omega
    have file : state.file = r.file := by omega
    have line : (state.line : Int) = r.line := by omega
    have column : state.column = r.column := by omega
    have isa : state.isa = r.isa := by omega
    have discriminator : state.discriminator = r.discriminator := by omega
    simp [LineNumbersState.row,address,opIndex,file,line,column,isa,discriminator,isStmt,basicBlock,prologueEnd,epilogueBegin,endSequence]

/-- Of the rows that are in the file table. -/
theorem emitted_eq_iff (files : Nat) :
    (((some state).filter fun state => state.file < files).map LineNumbersState.row = (some r).filter fun r => r.file < files) ↔
      (r.file % 2 ^ 32 < files → r.Shown header d) := by
  have file := follows.file
  by_cases inside : r.file % 2 ^ 32 < files
  · have entry : state.file < files := by omega
    simp only [Option.filter,entry,decide_true,if_true,Option.map_some,inside,true_implies,← row_eq_iff follows]
    constructor
    · intro equal
      split at equal
      · exact Option.some.inj equal
      · cases equal
    · intro equal
      have same : r.file < files := by rwa [← equal]
      simp [same,equal]
  · have entry : ¬state.file < files := by omega
    have row : ¬r.file < files := fun less => inside (Nat.lt_of_le_of_lt (Nat.mod_le _ _) less)
    simp only [Option.filter,entry,row]
    exact iff_of_true rfl fun less => absurd less inside

omit follows in
theorem ops_carry {m : Nat} (positive : 0 < m) (x y : Nat) : x / m + (x % m + y) / m = (x + y) / m := by
  conv_rhs => rw [← Nat.div_add_mod x m,Nat.add_assoc,Nat.mul_add_div positive]

/-- The loader divides in two steps what the standard divides in one. -/
theorem Follows.advance (operation : Nat) :
    Follows header { state with
        address := (state.address + (state.opIndex + operation) / header.maxOpsPerInstruction * header.minInstructionLength) % 2 ^ 64
        opIndex := (state.opIndex + operation) % header.maxOpsPerInstruction } (r.advance header operation) d := by
  have positive : 0 < header.maxOpsPerInstruction := Nat.lt_of_le_of_lt (Nat.zero_le _) follows.bound
  have ahead := ops_carry positive (r.opIndex + d.ops) operation
  have behind := ops_carry positive (r.opIndex + operation) d.ops
  have order : r.opIndex + d.ops + operation = r.opIndex + operation + d.ops := Nat.add_right_comm ..
  refine { follows with address := ?_, opIndex := ?_, bound := Nat.mod_lt _ positive }
  · dsimp only [Registers.advance]
    rw [follows.address,follows.opIndex,Nat.mod_add_mod,Nat.add_assoc,← Nat.add_mul,ahead,order,← behind,
      Nat.mul_comm header.minInstructionLength,Nat.add_assoc r.address,← Nat.add_mul]
  · dsimp only [Registers.advance]
    rw [follows.opIndex,Nat.mod_add_mod,Nat.mod_add_mod,order]

/-- The loader counts an operation as an instruction. -/
theorem Follows.skip (operation : Nat) :
    Follows header { state with address := (state.address + operation * header.minInstructionLength) % 2 ^ 64 }
      (r.advance header operation) { d with ops := d.ops + operation * (header.maxOpsPerInstruction - 1) } := by
  have positive : 0 < header.maxOpsPerInstruction := Nat.lt_of_le_of_lt (Nat.zero_le _) follows.bound
  have behind := ops_carry positive (r.opIndex + operation) (d.ops + operation * (header.maxOpsPerInstruction - 1))
  have total : r.opIndex + operation + (d.ops + operation * (header.maxOpsPerInstruction - 1)) =
      r.opIndex + d.ops + header.maxOpsPerInstruction * operation := by
    obtain ⟨more,equal⟩ := Nat.exists_eq_add_of_le' positive
    rw [equal,Nat.add_sub_cancel]
    ring
  rw [total,Nat.add_mul_div_left _ _ positive] at behind
  refine { follows with address := ?_, opIndex := ?_, bound := Nat.mod_lt _ positive }
  · dsimp only [Registers.advance]
    rw [follows.address,Nat.mod_add_mod,Nat.add_assoc,← Nat.add_mul,← behind,Nat.mul_comm header.minInstructionLength,
      Nat.add_assoc r.address,← Nat.add_mul]
  · dsimp only [Registers.advance]
    rw [follows.opIndex,Nat.mod_add_mod,total,Nat.add_mul_mod_self_left]

theorem Follows.moveLine {m n : Int} (same : m % 2 ^ 32 = n % 2 ^ 32) :
    Follows header { state with line := ((state.line + m) % 2 ^ 32).toNat } { r with line := r.line + n } d := by
  have line := follows.line
  refine { follows with line := ?_ }
  dsimp only
  omega

theorem Follows.clear :
    Follows header { state with flags := state.flags &&& ~~~(LINE_BasicBlock ||| LINE_PrologueEnd ||| LINE_EpilogueBegin) } r.appended
      { d with discriminator := d.discriminator + r.discriminator } := by
  refine { follows with flags := ?_, discriminator := ?_ }
  · dsimp only
    rw [follows.flags]
    exact (flagBits_set ..).2.2.2.2.2
  · dsimp only [Registers.appended]
    rw [follows.discriminator,Nat.zero_add,Nat.add_comm]

theorem Follows.discriminate (n : Nat) :
    Follows header { state with discriminator := n % 2 ^ 8 } { r with discriminator := n } { d with discriminator := 0 } :=
  { follows with discriminator := rfl }

end

theorem start_follows (positive : 0 < header.maxOpsPerInstruction) :
    Follows header (startState header) (Registers.start header) ⟨0,0⟩ where
  address := by simp [startState,Registers.start]
  opIndex := (Nat.zero_mod _).symm
  bound := positive
  file := rfl
  line := rfl
  column := rfl
  flags := by
    unfold startState Registers.flags Registers.start
    cases header.isStmtDefault <;> rfl
  isa := rfl
  discriminator := rfl
  plain := rfl

end Fields

section Steps

variable {sec : Section} {header : Header} {l : Loader} {m : Machine} {d : Drift}

section

variable (follows : Follows header l.state m.registers d)

include follows

theorem special_follows (opcode : Nat) :
    Follows header (l.advanceSpecial header opcode).state (m.registers.special header opcode) d := by
  have sum : m.registers.line + header.lineBase + ((opcode - header.opcodeBase) % header.lineRange : Nat) =
      m.registers.line + (((opcode - header.opcodeBase) % header.lineRange : Nat) + header.lineBase) := by omega
  have moved := (follows.advance ((opcode - header.opcodeBase) / header.lineRange)).moveLine
    (rfl : (((opcode - header.opcodeBase) % header.lineRange : Nat) + header.lineBase) % 2 ^ 32 = _)
  unfold Registers.special
  dsimp only [Registers.advance] at moved ⊢
  rw [sum]
  exact moved

theorem standard_follows (op : Standard) :
    Follows header (op.load header l).state (op.run header m.registers) (drift header m d (.standard op)) := by
  cases op with
  | copy => exact follows.clear
  | advancePc n =>
    have skipped := follows.skip n.unsigned
    have same : (l.state.address + n.unsigned % 2 ^ 64 * header.minInstructionLength % 2 ^ 64) % 2 ^ 64 =
        (l.state.address + n.unsigned * header.minInstructionLength) % 2 ^ 64 := by rw [Nat.mod_mul_mod,Nat.add_mod_mod]
    rw [← same] at skipped
    exact skipped
  | advanceLine n => exact follows.moveLine rfl
  | setFile n => exact { follows with file := rfl }
  | setColumn n =>
    refine { follows with column := ?_ }
    dsimp only [Standard.load,Loader.setColumn,Standard.run]
    omega
  | negateStmt =>
    refine { follows with flags := ?_ }
    exact (congrArg (· ^^^ LINE_IsStmt) follows.flags).trans (flagBits_set ..).2.2.2.2.1
  | setBasicBlock =>
    refine { follows with flags := ?_ }
    exact (congrArg (· ||| LINE_BasicBlock) follows.flags).trans (flagBits_set ..).1
  | constAddPc => exact follows.skip _
  | fixedAdvancePc n =>
    have positive : 0 < header.maxOpsPerInstruction := Nat.lt_of_le_of_lt (Nat.zero_le _) follows.bound
    refine { follows with address := ?_, opIndex := ?_, bound := positive }
    · dsimp only [Standard.load,Loader.advanceAddress,Standard.run,drift]
      rw [follows.address,Nat.mod_add_mod,Nat.zero_add,Nat.add_comm d.ops,Nat.add_right_comm]
    · dsimp only [Standard.load,Loader.advanceAddress,Standard.run,drift]
      rw [follows.opIndex,Nat.zero_add,Nat.add_comm d.ops]
  | setPrologueEnd =>
    refine { follows with flags := ?_ }
    exact (congrArg (· ||| LINE_PrologueEnd) follows.flags).trans (flagBits_set ..).2.1
  | setEpilogueBegin =>
    refine { follows with flags := ?_ }
    exact (congrArg (· ||| LINE_EpilogueBegin) follows.flags).trans (flagBits_set ..).2.2.1
  | setIsa n =>
    refine { follows with isa := ?_ }
    dsimp only [Standard.load,Loader.setIsa,Standard.run]
    omega

omit follows in
theorem address_bound (size : sec.addressSize ∈ [2,4,8]) (pos value : Nat) : sec.address pos value < 2 ^ 64 := by
  have below : sec.address pos value < 256 ^ sec.addressSize := Nat.mod_lt _ (Nat.pow_pos (by decide))
  have one : sec.addressSize = 2 ∨ sec.addressSize = 4 ∨ sec.addressSize = 8 := by simpa using size
  rcases one with same | same | same <;> rw [same] at below <;> omega

theorem extended_follows (size : sec.addressSize ∈ [2,4,8]) (op : Extended) (leb : Leb)
    (pos : Nat) : Follows header (op.load sec header pos l).state (op.run sec header pos m.registers) (drift header m d (.extended leb op)) := by
  have positive : 0 < header.maxOpsPerInstruction := Nat.lt_of_le_of_lt (Nat.zero_le _) follows.bound
  cases op with
  | endSequence => exact start_follows positive
  | setAddress value =>
    refine { follows with address := ?_, opIndex := ?_, bound := positive }
    · dsimp only [Extended.load,Loader.setAddress,Extended.run,drift]
      rw [Nat.zero_add,Nat.div_eq_of_lt (Nat.mod_lt _ positive),Nat.zero_mul,Nat.add_zero,Nat.mod_eq_of_lt (address_bound size ..)]
    · dsimp only [Extended.load,Loader.setAddress,Extended.run,drift]
      rw [follows.opIndex,Nat.zero_add,Nat.mod_mod]
  | defineFile file => exact follows
  | setDiscriminator n =>
    have set := follows.discriminate n.unsigned
    have same : n.unsigned % 2 ^ 32 % 2 ^ 8 = n.unsigned % 2 ^ 8 := by omega
    rw [← same] at set
    exact set
  | other opcode data => exact follows

theorem load_follows (size : sec.addressSize ∈ [2,4,8]) (i : Instruction) :
    Follows header (i.load sec header m.pos l).state (i.run sec header m.pos m.registers) (drift header m d i) := by
  cases i with
  | special opcode =>
    have clear := ((special_follows follows opcode.toNat).clear).discriminate 0
    exact clear
  | standard op => exact standard_follows follows op
  | unknown opcode operands => exact follows
  | extended leb op => exact extended_follows follows size op leb _

theorem row_eq (files : l.unit.files.length = m.files) (pos : Nat) (i : Instruction) :
    ((loader sec header).step (l,pos) i).2 = ((dwarf sec header).step m i).2 ↔ ShowsRow header m d i := by
  obtain ⟨registers,known,place⟩ := m
  obtain rfl : l.unit.files.length = known := files
  cases i with
  | special opcode => exact emitted_eq_iff (special_follows follows opcode.toNat) _
  | unknown opcode operands => exact iff_of_true rfl trivial
  | standard op =>
    cases op with
    | copy => exact emitted_eq_iff follows _
    | _ => exact iff_of_true rfl trivial
  | extended size op =>
    cases op with
    | endSequence =>
      have marked : Follows header (l.setFlag LINE_EndSequence).state { registers with endSequence := true } d := by
        refine { follows with flags := ?_ }
        exact (congrArg (· ||| LINE_EndSequence) follows.flags).trans (flagBits_set ..).2.2.2.1
      exact emitted_eq_iff marked _
    | _ => exact iff_of_true rfl trivial

/-- A row of the state machine has an entry: a file number does not grow when it is cut. -/
theorem row_covered (files : l.unit.files.length = m.files) (pos : Nat) (i : Instruction)
    (some' : ((dwarf sec header).step m i).2.isSome) : ((loader sec header).step (l,pos) i).2.isSome := by
  have covered {state : LineNumbersState} {r : Registers} (file : state.file = r.file % 2 ^ 32)
      (inside : ((some r).filter fun r => r.file < m.files).isSome) :
      (((some state).filter fun state => state.file < l.unit.files.length).map LineNumbersState.row).isSome := by
    have less : r.file < m.files := by simpa [Option.filter] using inside
    have entry : state.file < l.unit.files.length := by omega
    simp [Option.filter,entry]
  cases i with
  | special opcode => exact covered (special_follows follows opcode.toNat).file some'
  | unknown opcode operands => cases some'
  | standard op =>
    cases op with
    | copy => exact covered follows.file some'
    | _ => cases some'
  | extended size op =>
    cases op with
    | endSequence =>
      have file : (l.setFlag LINE_EndSequence).state.file = m.registers.file % 2 ^ 32 := follows.file
      exact covered (r := { m.registers with endSequence := true }) file some'
    | _ => cases some'

end

/-- The loader and the state machine after the same instructions. -/
structure Linked (header : Header) (p : Loader × Nat) (m : Machine) (d : Drift) : Prop where
  follows : Follows header p.1.state m.registers d
  files : p.1.unit.files.length = m.files
  pos : p.2 = m.pos

theorem output_iff (size : sec.addressSize ∈ [2,4,8]) {p : Loader × Nat} (linked : Linked header p m d) (program : List Instruction) :
    (loader sec header).output p program = (dwarf sec header).output m program ↔
      (dwarf sec header).Along (drift header) (ShowsRow header) m d program := by
  apply Transducer.output_eq_iff (Linked header)
  · rintro ⟨l,pos⟩ m d i ⟨follows,files,rfl⟩
    obtain ⟨_,files',_⟩ := load_unit sec header i m.pos follows.plain
    exact ⟨load_follows follows size i,files'.trans (congrArg (· + i.newFiles) files),rfl⟩
  · rintro ⟨l,pos⟩ m d i ⟨follows,files,rfl⟩
    exact row_covered follows files m.pos i
  · rintro ⟨l,pos⟩ m d i ⟨follows,files,rfl⟩
    exact row_eq follows files m.pos i
  · exact linked

end Steps

section Tables

variable {sec : Section} {pos : Nat} {rest : List UInt8}

theorem readString_end : dioReadString ⟨pos,0 :: rest⟩ = .ok (none,⟨pos + 1,rest⟩) := rfl

theorem readString_name (well : name ≠ [] ∧ 0 ∉ name) (rest : List UInt8) :
    dioReadString ⟨pos,name ++ 0 :: rest⟩ = .ok (some name,⟨pos + name.length + 1,rest⟩) := by
  rw [dioReadString_bytes well.2,if_neg well.1]

theorem readDirs_bytes {names : List (List UInt8)} (well : ∀ name ∈ names, name ≠ [] ∧ 0 ∉ name) (rounds : Nat)
    (unit : CompUnit) (pos : Nat) (rest : List UInt8) :
    readDirs (names.length + 1 + rounds) unit ⟨pos,names.flatMap (fun name => name ++ [0]) ++ 0 :: rest⟩ =
      .ok ({ unit with dirs := unit.dirs ++ names },⟨pos + (names.flatMap fun name => name ++ [0]).length + 1,rest⟩) := by
  induction names generalizing unit pos with
  | nil =>
    rw [List.length_nil,Nat.zero_add,Nat.add_comm 1]
    refine (bind_run readString_end).trans ?_
    rw [List.append_nil]
    rfl
  | cons name names ih =>
    have later := ih (fun other member => well other (List.mem_cons_of_mem _ member)) (addDir unit name) (pos + name.length + 1)
    rw [List.length_cons,Nat.add_right_comm (names.length + 1)]
    simp only [List.flatMap_cons,List.append_assoc,List.cons_append,List.nil_append]
    refine (bind_run (readString_name (well name (List.mem_cons_self ..)) _)).trans ?_
    refine Eq.trans later ?_
    simp only [addDir,List.append_assoc,List.cons_append,List.nil_append,List.length_append,List.length_cons]
    congr 3
    omega

theorem file_bytes (file : FileEntry) (rest : List UInt8) :
    file.bytes ++ rest = file.name ++ 0 :: (file.dir.bytes ++ (file.modTime.bytes ++ (file.size.bytes ++ rest))) := by
  simp [FileEntry.bytes]

theorem file_length (file : FileEntry) :
    file.bytes.length = file.name.length + 1 + file.dir.length + file.modTime.length + file.size.length := by
  simp only [FileEntry.bytes,List.length_append,List.length_cons,Leb.bytes_length]
  omega

/-- The files are added, in their order. -/
theorem readFiles_bytes {files : List FileEntry} (well : ∀ file ∈ files, file.name ≠ [] ∧ file.Named)
    (readable : ∀ file ∈ files, file.Readable) (rounds : Nat) (unit : CompUnit) (pos : Nat) (rest : List UInt8) :
    readFiles (files.length + 1 + rounds) unit ⟨pos,files.flatMap FileEntry.bytes ++ 0 :: rest⟩ =
      .ok (files.foldl (fun unit file => addFile unit (file.info unit)) unit,
        ⟨pos + (files.flatMap FileEntry.bytes).length + 1,rest⟩) := by
  induction files generalizing unit pos with
  | nil =>
    rw [List.length_nil,Nat.zero_add,Nat.add_comm 1]
    exact bind_run readString_end
  | cons file files ih =>
    have here := well file (List.mem_cons_self ..)
    have later := ih (fun other member => well other (List.mem_cons_of_mem _ member))
      (fun other member => readable other (List.mem_cons_of_mem _ member)) (addFile unit (file.info unit)) (pos + file.bytes.length)
    have info := readFileInfo_bytes (pos + file.name.length + 1) (files.flatMap FileEntry.bytes ++ 0 :: rest) unit (some file.name)
      (readable file (List.mem_cons_self ..))
    have same : fileInfo unit (some file.name) (file.dir.unsigned % 2 ^ 32) (file.modTime.unsigned % 2 ^ 32)
        (file.size.unsigned % 2 ^ 32) = file.info unit := by rw [FileEntry.info,if_neg here.1]
    have place : pos + file.name.length + 1 + file.dir.length + file.modTime.length + file.size.length = pos + file.bytes.length := by
      rw [file_length]
      omega
    rw [List.length_cons,Nat.add_right_comm (files.length + 1),List.flatMap_cons,List.append_assoc,file_bytes,List.length_append,
      ← Nat.add_assoc pos]
    refine Eq.trans ?_ later
    rw [← place,← same]
    refine (bind_run (readString_name here _)).trans ?_
    exact bind_run info

theorem readFiles_long {files : List FileEntry} (well : ∀ file ∈ files, file.name ≠ [] ∧ file.Named)
    (long : ¬∀ file ∈ files, file.Readable) (rounds : Nat) (unit : CompUnit) (pos : Nat) (rest : List UInt8) :
    readFiles (files.length + 1 + rounds) unit ⟨pos,files.flatMap FileEntry.bytes ++ 0 :: rest⟩ = .error .undefined := by
  induction files generalizing unit pos with
  | nil => exact absurd nofun long
  | cons file files ih =>
    have here := well file (List.mem_cons_self ..)
    rw [List.length_cons,Nat.add_right_comm (files.length + 1),List.flatMap_cons,List.append_assoc,file_bytes]
    refine (bind_run (readString_name here _)).trans ?_
    by_cases readable : file.Readable
    · refine (bind_run (readFileInfo_bytes _ _ unit (some file.name) readable)).trans ?_
      apply ih (fun other member => well other (List.mem_cons_of_mem _ member))
      exact fun others => long (List.forall_mem_cons.mpr ⟨readable,others⟩)
    · exact bind_fail (readFileInfo_long unit (some file.name) readable)

theorem addFiles_unit (files : List FileEntry) (unit : CompUnit) :
    (files.foldl (fun unit file => addFile unit (file.info unit)) unit).states = unit.states ∧
    (files.foldl (fun unit file => addFile unit (file.info unit)) unit).files.length = unit.files.length + files.length := by
  induction files generalizing unit with
  | nil => exact ⟨rfl,rfl⟩
  | cons file files ih =>
    obtain ⟨states,length⟩ := ih (addFile unit (file.info unit))
    refine ⟨states,length.trans ?_⟩
    simp only [addFile,List.length_append,List.length_cons,List.length_nil]
    omega

theorem small_byte {n : Nat} (small : n < 256) : (UInt8.ofNat n).toNat = n := by
  rw [UInt8.toNat_ofNat']
  exact Nat.mod_eq_of_lt small

theorem readU1_byte {n : Nat} (small : n < 256) : dioReadU1 ⟨pos,UInt8.ofNat n :: rest⟩ = .ok (n,⟨pos + 1,rest⟩) := by
  change Except.ok _ = _
  rw [small_byte small]

variable {table : Table}

section

variable (well : table.WellFormed sec)

include well

theorem readHeader_bytes (pos : Nat) (rest : List UInt8) :
    ∃ front, table.headerBytes.length = front + table.names.length ∧
      readHeader table.version ⟨pos,table.headerBytes ++ rest⟩ = .ok (table.header,⟨pos + front,table.names ++ rest⟩) := by
  obtain ⟨baseLow,baseHigh⟩ := well.opcodeBase
  obtain ⟨lineLow,lineHigh⟩ := well.lineBase
  have ops : ∀ tail, (if table.version ≥ 4 then dioReadU1 else pure 1 : Read Nat)
      ⟨pos + 1,(if table.version ≥ 4 then [UInt8.ofNat table.header.maxOpsPerInstruction] else []) ++ tail⟩ =
        .ok (table.header.maxOpsPerInstruction,⟨pos + 1 + if table.version ≥ 4 then 1 else 0,tail⟩) := by
    intro tail
    by_cases new : table.version ≥ 4
    · simp only [new,if_true]
      exact readU1_byte well.maxOps.2
    · simp only [new,if_false,well.oneOp (Nat.lt_of_not_le new)]
      rfl
  have sizes : (table.header.opcodeBase + 2 ^ 32 - 1) % 2 ^ 32 = table.header.opcodeSize.length := by
    have length := well.opcodeSize
    omega
  have line : toI1 (table.header.lineBase % 256).toNat = table.header.lineBase := by
    unfold toI1
    split <;> omega
  have stmt : decide ((table.defaultIsStmt).toNat ≠ 0) = table.header.isStmtDefault := by
    rw [well.isStmt]
    simp [← UInt8.toNat_inj]
  refine ⟨5 + (if table.version ≥ 4 then 1 else 0) + table.header.opcodeSize.length,?_,?_⟩
  · unfold Table.headerBytes
    split <;> simp <;> omega
  · unfold Table.headerBytes readHeader
    simp only [List.cons_append,List.append_assoc]
    rw [bind_run (readU1_byte well.minInstructionLength),bind_run (ops _),
      bind_run (show dioReadU1 _ = .ok (table.defaultIsStmt.toNat,_) from rfl),bind_run (readU1_byte (by omega)),
      bind_run (readU1_byte well.lineRange.2),bind_run (readU1_byte baseHigh),bind_run (dioRead_bytes sizes.symm),
      if_neg (Nat.pos_iff_ne_zero.mp baseLow),line,stmt,sizes]
    have place : pos + 1 + (if table.version ≥ 4 then 1 else 0) + 1 + 1 + 1 + 1 + table.header.opcodeSize.length =
        pos + (5 + (if table.version ≥ 4 then 1 else 0) + table.header.opcodeSize.length) := by omega
    rw [place]
    rfl

/-- The unit once the header is read. -/
def Table.opened (table : Table) (unit : CompUnit) : CompUnit :=
  table.fileNames.foldl (fun unit file => addFile unit (file.info unit)) { unit with dirs := unit.dirs ++ table.directories }

omit well in
theorem flatMap_long {items : List α} {bytes : α → List UInt8} (filled : ∀ item, 0 < (bytes item).length) :
    items.length ≤ (items.flatMap bytes).length := by
  induction items with
  | nil => exact Nat.le_refl _
  | cons item items ih =>
    have here := filled item
    simp only [List.flatMap_cons,List.length_append,List.length_cons]
    omega

theorem readNames_front (unit : CompUnit) (pos : Nat) (rest : List UInt8) :
    ∃ rounds, readNames unit ⟨pos,table.names ++ rest⟩ =
      readFiles (table.fileNames.length + 1 + rounds) { unit with dirs := unit.dirs ++ table.directories }
        ⟨pos + (table.directories.flatMap fun name => name ++ [0]).length + 1,table.fileNames.flatMap FileEntry.bytes ++ 0 :: rest⟩ := by
  have dirs : table.directories.length ≤ (table.directories.flatMap fun name => name ++ [0]).length := by
    apply flatMap_long
    intro name
    simp
  have files : table.fileNames.length ≤ (table.fileNames.flatMap FileEntry.bytes).length := by
    apply flatMap_long
    intro file
    rw [file_length]
    omega
  have shape : table.names ++ rest =
      table.directories.flatMap (fun name => name ++ [0]) ++ 0 :: (table.fileNames.flatMap FileEntry.bytes ++ 0 :: rest) := by
    simp [Table.names]
  obtain ⟨first,enough⟩ : ∃ first, (table.names ++ rest).length = table.directories.length + 1 + first := by
    apply Nat.exists_eq_add_of_le
    rw [shape]
    simp only [List.length_append,List.length_cons]
    omega
  obtain ⟨second,enough'⟩ : ∃ second, (table.fileNames.flatMap FileEntry.bytes ++ 0 :: rest).length = table.fileNames.length + 1 + second := by
    apply Nat.exists_eq_add_of_le
    simp only [List.length_append,List.length_cons]
    omega
  refine ⟨second,?_⟩
  have read := readDirs_bytes well.directories first unit pos (table.fileNames.flatMap FileEntry.bytes ++ 0 :: rest)
  rw [← shape] at read
  unfold readNames
  rw [bind_run (show dioLeft _ = .ok ((table.names ++ rest).length,_) from rfl),enough,bind_run read,
    bind_run (show dioLeft _ = .ok ((table.fileNames.flatMap FileEntry.bytes ++ 0 :: rest).length,_) from rfl),enough']

theorem readNames_bytes (readable : ∀ file ∈ table.fileNames, file.Readable)
    (unit : CompUnit) (pos : Nat) (rest : List UInt8) :
    readNames unit ⟨pos,table.names ++ rest⟩ = .ok (table.opened unit,⟨pos + table.names.length,rest⟩) := by
  obtain ⟨rounds,run⟩ := readNames_front well unit pos rest
  have place : pos + (table.directories.flatMap fun name => name ++ [0]).length + 1 + (table.fileNames.flatMap FileEntry.bytes).length + 1 =
      pos + table.names.length := by
    simp only [Table.names,List.length_append,List.length_cons,List.length_nil]
    omega
  rw [run,readFiles_bytes well.fileNames readable,place]
  rfl

theorem load_front (unit : CompUnit) (unitSize pos : Nat) (after : List UInt8) :
    ∃ front, table.headerBytes.length = front + table.names.length ∧
      loadLineNumbersV2 sec unit unitSize table.dwarf64 ⟨pos,table.bytes sec ++ after⟩ = (do
        let unit' ← readNames unit
        let stop ← dioGetPos
        if pos + 2 + table.lengthSize + table.headerBytes.length ≠ stop ∧
            ¬(table.dwarf64 ∧ pos + 2 + table.lengthSize + table.headerBytes.length = stop + 12) then
          fail (.invDwarf "Invalid line info header")
        else do
          let left ← dioLeft
          let l ← runProgram sec table.header (unit.lineInfoOffs + unitSize) left ⟨unit',startState table.header⟩
          pure l.unit)
        ⟨pos + 2 + table.lengthSize + front,table.names ++ (table.code sec ++ after)⟩ := by
  obtain ⟨front,whole,header⟩ := readHeader_bytes well (pos + 2 + table.lengthSize) (table.code sec ++ after)
  refine ⟨front,whole,?_⟩
  obtain ⟨low,high⟩ := well.version
  have version : dioReadU2 sec ⟨pos,table.bytes sec ++ after⟩ = .ok (table.version,⟨pos + 2,
      bytesOf sec.bigEndian table.lengthSize table.headerBytes.length ++ (table.headerBytes ++ (table.code sec ++ after))⟩) := by
    unfold Table.bytes
    simp only [List.append_assoc]
    exact dioReadUint_bytes sec (Nat.lt_of_le_of_lt high (by decide))
  have length : (if table.dwarf64 = true then dioReadU8 sec else dioReadU4 sec : Read Nat) ⟨pos + 2,
      bytesOf sec.bigEndian table.lengthSize table.headerBytes.length ++ (table.headerBytes ++ (table.code sec ++ after))⟩ =
        .ok (table.headerBytes.length,⟨pos + 2 + table.lengthSize,table.headerBytes ++ (table.code sec ++ after)⟩) := by
    have size : (if table.dwarf64 = true then dioReadU8 sec else dioReadU4 sec : Read Nat) = dioReadUint sec table.lengthSize := by
      unfold Table.lengthSize
      cases table.dwarf64 <;> rfl
    rw [size]
    exact dioReadUint_bytes sec well.length
  unfold loadLineNumbersV2
  rw [bind_run version,if_neg (by omega),bind_run length,bind_run (show dioGetPos _ = .ok (pos + 2 + table.lengthSize,_) from rfl),
    bind_run header]

/-- Up to the loop over the program. -/
theorem load_bytes (readable : ∀ file ∈ table.fileNames, file.Readable)
    (unit : CompUnit) (unitSize pos : Nat) (after : List UInt8) :
    loadLineNumbersV2 sec unit unitSize table.dwarf64 ⟨pos,table.bytes sec ++ after⟩ =
      (runProgram sec table.header (unit.lineInfoOffs + unitSize) (table.code sec ++ after).length
          ⟨table.opened unit,startState table.header⟩ >>= fun l => pure l.unit)
        ⟨pos + 2 + table.lengthSize + table.headerBytes.length,table.code sec ++ after⟩ := by
  obtain ⟨front,whole,run⟩ := load_front well unit unitSize pos after
  have place : pos + 2 + table.lengthSize + front + table.names.length = pos + 2 + table.lengthSize + table.headerBytes.length := by omega
  rw [run,bind_run (readNames_bytes well readable ..),place,
    bind_run (show dioGetPos _ = .ok (pos + 2 + table.lengthSize + table.headerBytes.length,_) from rfl),if_neg (by simp),
    bind_run (show dioLeft _ = .ok ((table.code sec ++ after).length,_) from rfl)]

theorem load_long (long : ¬∀ file ∈ table.fileNames, file.Readable)
    (unit : CompUnit) (unitSize pos : Nat) (after : List UInt8) :
    loadLineNumbersV2 sec unit unitSize table.dwarf64 ⟨pos,table.bytes sec ++ after⟩ = .error .undefined := by
  obtain ⟨front,whole,run⟩ := load_front well unit unitSize pos after
  obtain ⟨rounds,names⟩ := readNames_front well unit (pos + 2 + table.lengthSize + front) (table.code sec ++ after)
  rw [run]
  exact bind_fail (names.trans (readFiles_long well.fileNames long ..))

end

theorem opened_unit (table : Table) (unit : CompUnit) :
    (table.opened unit).rows = unit.rows ∧ (table.opened unit).files.length = unit.files.length + table.fileNames.length := by
  obtain ⟨states,length⟩ := addFiles_unit table.fileNames { unit with dirs := unit.dirs ++ table.directories }
  refine ⟨?_,length⟩
  unfold CompUnit.rows Table.opened
  rw [states]

section Whole

variable {table : Table} {unit : CompUnit} {unitSize : Nat} {after : List UInt8}

theorem start_linked (well : table.WellFormed sec) (unit : CompUnit) (pos : Nat) :
    Linked table.header (⟨table.opened unit,startState table.header⟩,pos)
      ⟨Registers.start table.header,unit.files.length + table.fileNames.length,pos⟩ ⟨0,0⟩ :=
  ⟨start_follows well.maxOps.1,(opened_unit table unit).2,rfl⟩

theorem total_length (sec : Section) (table : Table) (pos : Nat) :
    pos + (table.bytes sec).length = pos + 2 + table.lengthSize + table.headerBytes.length + (table.code sec).length := by
  simp only [Table.bytes,List.length_append,bytesOf_length]
  omega

theorem enough_rounds (sec : Section) (table : Table) (after : List UInt8) :
    table.program.length ≤ (table.code sec ++ after).length := by
  have long : table.program.length ≤ (table.code sec).length := flatMap_long (bytes_positive sec)
  rw [List.length_append]
  exact Nat.le_add_right_of_le long

/-- When everything can be read, only the rows matter. -/
theorem executes_iff (well : table.WellFormed sec) (size : unit.lineInfoOffs + unitSize = pos + (table.bytes sec).length)
    (files : ∀ file ∈ table.fileNames, file.Readable) (readable : ∀ i ∈ table.program, i.Readable)
    (sized : ∀ i ∈ table.program, i.Sized) :
    Executes sec table unit unitSize pos after ↔ table.Faithful sec unit.files.length pos := by
  generalize start : pos + 2 + table.lengthSize + table.headerBytes.length = place
  have linked := start_linked well unit place
  have outputs := output_iff well.addressSize linked table.program
  have load : loadLineNumbersV2 sec unit unitSize table.dwarf64 ⟨pos,table.bytes sec ++ after⟩ =
      .ok (((loader sec table.header).final (⟨table.opened unit,startState table.header⟩,place) table.program).1.unit,
        ⟨pos + (table.bytes sec).length,after⟩) := by
    have run := runProgram_bytes well.opcodeBase.1 (Nat.pos_iff_ne_zero.mp well.lineRange.1) (Nat.pos_iff_ne_zero.mp well.maxOps.1)
      well.addressSize well.program sized readable (enough_rounds sec table after) ⟨table.opened unit,startState table.header⟩ place after
    rw [load_bytes well files,size,total_length,start]
    exact bind_run run
  have final : ((loader sec table.header).final (⟨table.opened unit,startState table.header⟩,place) table.program).1.unit.rows =
      unit.rows ++ (loader sec table.header).output (⟨table.opened unit,startState table.header⟩,place) table.program := by
    rw [← (opened_unit table unit).1]
    exact final_rows table.program place rfl
  have rows : table.rows sec unit.files.length pos = (dwarf sec table.header).output
      ⟨Registers.start table.header,unit.files.length + table.fileNames.length,place⟩ table.program := by
    rw [Table.rows,start]
  constructor
  · rintro ⟨next,ok,equal⟩
    cases load.symm.trans ok
    rw [final,rows] at equal
    refine ⟨files,readable,sized,?_⟩
    rw [start]
    exact outputs.mp (List.append_cancel_left equal)
  · rintro ⟨_,_,_,shown⟩
    rw [start] at shown
    refine ⟨_,load,?_⟩
    rw [final,rows,outputs.mpr shown]

theorem unread_fails (after : List UInt8) (well : table.WellFormed sec)
    (size : unit.lineInfoOffs + unitSize = pos + (table.bytes sec).length) (sized : ∀ i ∈ table.program, i.Sized)
    (unread : ¬((∀ file ∈ table.fileNames, file.Readable) ∧ ∀ i ∈ table.program, i.Readable)) :
    ∃ failure, loadLineNumbersV2 sec unit unitSize table.dwarf64 ⟨pos,table.bytes sec ++ after⟩ = .error failure := by
  by_cases files : ∀ file ∈ table.fileNames, file.Readable
  · obtain ⟨failure,run⟩ := runProgram_long well.opcodeBase.1 (Nat.pos_iff_ne_zero.mp well.lineRange.1)
      (Nat.pos_iff_ne_zero.mp well.maxOps.1) well.addressSize well.program sized (fun readable => unread ⟨files,readable⟩)
      (enough_rounds sec table after) ⟨table.opened unit,startState table.header⟩
      (pos + 2 + table.lengthSize + table.headerBytes.length) after
    refine ⟨failure,(load_bytes well files unit unitSize pos after).trans ?_⟩
    rw [size,total_length]
    exact bind_fail run
  · exact ⟨_,load_long well files unit unitSize pos after⟩

end Whole

end Tables

/-- A table is run as the standard says exactly when the loader reads all of it and no row shows a limit of the fields or the drift. -/
theorem line_program_rows (sec : Section) (table : Table) (unit : CompUnit) (unitSize pos : Nat) (after : List UInt8)
    (well : table.WellFormed sec) (size : unit.lineInfoOffs + unitSize = pos + (table.bytes sec).length) :
    (table.Faithful sec unit.files.length pos → Executes sec table unit unitSize pos after) ∧
    ((∀ i ∈ table.program, i.Sized) → Executes sec table unit unitSize pos after → table.Faithful sec unit.files.length pos) := by
  constructor
  · intro faithful
    exact (executes_iff well size faithful.fileNames faithful.readable faithful.sized).mpr faithful
  · intro sized executes
    by_cases read : (∀ file ∈ table.fileNames, file.Readable) ∧ ∀ i ∈ table.program, i.Readable
    · exact (executes_iff well size read.1 read.2 sized).mp executes
    · obtain ⟨failure,run⟩ := unread_fails after well size sized read
      obtain ⟨next,ok,_⟩ := executes
      cases run.symm.trans ok

/-- A table for one file, whose opcodes have the numbers of operands of the standard. -/
def sampleTable (version ops : Nat) (lengths : List UInt8) (program : List Instruction) : Table :=
  ⟨version,false,1,⟨4,ops,true,-3,12,lengths.length + 1,lengths⟩,[[100]],[⟨[97],⟨[],1⟩,⟨[],0⟩,⟨[5],1⟩⟩],program⟩

def standardLengths : List UInt8 := [0,1,1,1,1,0,0,0,1,0,0,1]

def sampleSection : Section := ⟨false,4,fun _ value => (value,none)⟩

def sampleUnit : CompUnit := ⟨0,none,[],[⟨some [97],none,0,0,0⟩],[]⟩

/-- Two operations make an instruction. A code is longer than it has to be, and one extended opcode is unknown. -/
def packedTable : Table := sampleTable 4 2 standardLengths
  [.extended ⟨[],5⟩ (.setAddress 4096),.special 30,.standard (.advanceLine ⟨[126,127],127⟩),.standard .setPrologueEnd,.special 45,
    .extended ⟨[],3⟩ (.other 128 [1,2]),.extended ⟨[],6⟩ (.defineFile ⟨[98],⟨[],0⟩,⟨[],0⟩,⟨[],0⟩⟩),.standard (.setFile ⟨[],2⟩),
    .extended ⟨[],2⟩ (.setDiscriminator ⟨[],3⟩),.standard .copy,.standard (.setFile ⟨[],9⟩),.standard .copy,.extended ⟨[],1⟩ .endSequence]

theorem line_program_rows_packed : ∃ next, loadLineNumbersV2 sampleSection sampleUnit ((packedTable.bytes sampleSection).length + 4) false
      ⟨4,packedTable.bytes sampleSection ++ [7]⟩ = .ok (next,⟨4 + (packedTable.bytes sampleSection).length,[7]⟩) ∧
    next.rows.map (fun r => (r.address,r.opIndex,r.file,r.line,r.discriminator)) =
      [(4096,1,1,3,0),(4100,1,1,6,0),(4100,1,2,6,3)] := by
  have well : packedTable.WellFormed sampleSection := by constructor <;> decide +kernel
  have faithful : packedTable.Faithful sampleSection sampleUnit.files.length 4 := by constructor <;> decide +kernel
  obtain ⟨next,run,rows⟩ := (line_program_rows sampleSection packedTable sampleUnit ((packedTable.bytes sampleSection).length + 4) 4 [7] well
    (by decide +kernel)).1 faithful
  refine ⟨next,run,?_⟩
  rw [rows]
  decide +kernel

/-- `DW_LNS_copy` leaves the discriminator, `DW_LNS_advance_pc` counts operations as instructions, and an opcode that only has
a number of operands is an error. -/
theorem line_program_drifts :
    (∃ table : Table, table.version = 2 ∧ table.WellFormed sampleSection ∧
      table.program = [.extended ⟨[],2⟩ (.setDiscriminator ⟨[],1⟩),.standard .copy,.standard .copy] ∧
      ¬Executes sampleSection table sampleUnit ((table.bytes sampleSection).length + 4) 4 []) ∧
    (∃ table : Table, table.version = 4 ∧ table.WellFormed sampleSection ∧ table.program = [.standard (.advancePc ⟨[],1⟩),.standard .copy] ∧
      ¬Executes sampleSection table sampleUnit ((table.bytes sampleSection).length + 4) 4 []) ∧
    (∃ table : Table, table.version = 3 ∧ table.WellFormed sampleSection ∧ table.program = [.unknown 13 [⟨[],1⟩],.standard .copy] ∧
      ¬Executes sampleSection table sampleUnit ((table.bytes sampleSection).length + 4) 4 []) := by
  refine ⟨⟨sampleTable 2 1 standardLengths [.extended ⟨[],2⟩ (.setDiscriminator ⟨[],1⟩),.standard .copy,.standard .copy],rfl,?_,rfl,?_⟩,
    ⟨sampleTable 4 2 standardLengths [.standard (.advancePc ⟨[],1⟩),.standard .copy],rfl,?_,rfl,?_⟩,
    ⟨sampleTable 3 1 (standardLengths ++ [1]) [.unknown 13 [⟨[],1⟩],.standard .copy],rfl,?_,rfl,?_⟩⟩
  all_goals first | decide +kernel | (constructor <;> decide +kernel)

end Tcf.Dwarf
