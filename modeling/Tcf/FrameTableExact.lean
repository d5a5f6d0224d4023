import Tcf.FrameKept
import Tcf.FrameTable
import Tcf.LineRows

/-! When the rules of a frame are those of the table that its instructions stand for. -/
namespace Tcf.Frames

open Dwarf ByteNumbers

section Registers

variable {machine : Machine} {rar : Nat} {regs src : List RegisterRules}

/-- The rules of a register, whether it is in the array or not. -/
def ruleAt (machine : Machine) (rar : Nat) (regs : List RegisterRules) (n : Nat) : RegisterRules := regs[n]?.getD (implied machine rar n)

theorem grown_length (regs : List RegisterRules) (reg : Nat) : reg < (grown machine rar regs reg).length := by
  unfold grown
  split
  · assumption
  · simp only [List.length_append,List.length_map,List.length_range']
    omega

@[simp] theorem ruleAt_grown (reg n : Nat) : ruleAt machine rar (grown machine rar regs reg) n = ruleAt machine rar regs n := by
  unfold grown
  split
  · rfl
  · unfold ruleAt
    by_cases inside : n < regs.length
    · rw [List.getElem?_append_left inside]
    · rw [List.getElem?_append_right (by omega),List.getElem?_eq_none (by omega : regs.length ≤ n),List.getElem?_map]
      rcases Nat.lt_or_ge (n - regs.length) (max (reg + 1) (minRegCnt machine) - regs.length) with new | beyond
      · rw [List.getElem?_range' new]
        simp only [Option.map_some,Option.getD_some,Option.getD_none]
        congr 1
        omega
      · rw [List.getElem?_eq_none (by simpa using beyond)]
        rfl

theorem getD_grown (reg : Nat) : (grown machine rar regs reg).getD reg (plain .none) = ruleAt machine rar regs reg := by
  have inside : reg < (grown machine rar regs reg).length := grown_length regs reg
  rw [← ruleAt_grown reg reg,ruleAt,List.getD_eq_getElem?_getD,List.getElem?_eq_getElem inside]
  rfl

theorem ruleAt_set {reg : Nat} (inside : reg < regs.length) (rules : RegisterRules) (n : Nat) :
    ruleAt machine rar (regs.set reg rules) n = if n = reg then rules else ruleAt machine rar regs n := by
  unfold ruleAt
  by_cases same : n = reg
  · subst same
    simp [inside]
  · rw [List.getElem?_set_ne (Ne.symm same),if_neg same]

theorem ruleAt_copyRegs (n k : Nat) :
    ruleAt machine rar (copyRegs machine rar src k) n = if n < k then src.getD n (plain .none) else implied machine rar n := by
  induction k with
  | zero => rfl
  | succ k ih =>
    rw [copyRegs,ruleAt_set (grown_length _ k),ruleAt_grown,ih]
    by_cases last : n = k
    · simp [last]
    · by_cases below : n < k
      · simp [last,below,Nat.lt_succ_of_lt below]
      · simp [last,below,show ¬n < k + 1 by omega]

/-- A copy has the rules of the original. -/
@[simp] theorem ruleAt_copy (n : Nat) : ruleAt machine rar (copyRegs machine rar src src.length) n = ruleAt machine rar src n := by
  rw [ruleAt_copyRegs,ruleAt]
  by_cases inside : n < src.length
  · simp [inside]
  · simp [inside]

end Registers

section Worlds

/-- The reader at a position of the section -/
def World.goto (s : FrameSection) (pos : Nat) (w : World) : World := { w with dio := ⟨pos,s.data.drop pos⟩ }

def World.grow (s : FrameSection) (reg : Nat) (w : World) : World :=
  { w with frameRegs.regs := grown s.machine w.rules.returnAddressRegister w.frameRegs.regs reg }

def World.growCie (s : FrameSection) (reg : Nat) (w : World) : World :=
  { w with cieRegs.regs := grown s.machine w.rules.returnAddressRegister w.cieRegs.regs reg }

def World.frameRule (s : FrameSection) (w : World) (reg : Nat) : RegisterRules :=
  ruleAt s.machine w.rules.returnAddressRegister w.frameRegs.regs reg

def World.cieRule (s : FrameSection) (w : World) (reg : Nat) : RegisterRules :=
  ruleAt s.machine w.rules.returnAddressRegister w.cieRegs.regs reg

def World.assign (s : FrameSection) (reg : Nat) (f : RegisterRules → RegisterRules) (w : World) : World :=
  { w.grow s reg with frameRegs.regs := (w.grow s reg).frameRegs.regs.set reg (f (w.frameRule s reg)) }

def World.setCfa (f : StackFrameRegisters → StackFrameRegisters) (w : World) : World := { w with frameRegs := f w.frameRegs }

def World.restored (s : FrameSection) (reg : Nat) (w : World) : World := (w.assign s reg fun _ => w.cieRule s reg).growCie s reg

def World.advanced (delta : Nat) (w : World) : World :=
  { w with rules.location := (w.rules.location + delta * w.rules.codeAlignment % 2 ^ 32) % 2 ^ 64 }

def World.popped (s : FrameSection) (w : World) : World :=
  match w.regsStack with
  | [] => w
  | top :: regsStack => { w with frameRegs := copyRegisterRules s.machine w.rules.returnAddressRegister top, regsStack := regsStack }

/-- What the code does with an instruction at a position, once it is read. -/
def applied (s : FrameSection) (pos : Nat) (w : World) : FrameInstruction → World
  | .nop | .argsSize _ => w
  | .advanceLoc delta => w.advanced delta.val
  | .advanceLoc1 delta => w.advanced delta.toNat
  | .advanceLoc2 delta => w.advanced delta.toNat
  | .advanceLoc4 delta => w.advanced delta.toNat
  | .offset reg n => w.assign s reg.val fun old => { old with rule := .offset, offset := word (n.unsigned * w.rules.dataAlignment) }
  | .offsetExtended reg n => w.assign s reg.unsigned fun old => { old with rule := .offset, offset := word (n.unsigned * w.rules.dataAlignment) }
  | .offsetExtendedSf reg n => w.assign s reg.unsigned fun old => { old with rule := .offset, offset := word (n.signed * w.rules.dataAlignment) }
  | .negativeOffsetExtended reg n =>
    w.assign s reg.unsigned fun old => { old with rule := .offset, offset := word (-n.signed * w.rules.dataAlignment) }
  | .valOffset reg n => w.assign s reg.unsigned fun old => { old with rule := .valOffset, offset := word (n.unsigned * w.rules.dataAlignment) }
  | .valOffsetSf reg n => w.assign s reg.unsigned fun old => { old with rule := .valOffset, offset := word (n.signed * w.rules.dataAlignment) }
  | .register reg source => w.assign s reg.unsigned fun old => { old with rule := .register, offset := word source.unsigned }
  | .expression reg block =>
    w.assign s reg.unsigned fun _ => ⟨.expression,block.bytes.length,pos + 1 + reg.length + block.size.length⟩
  | .valExpression reg block =>
    w.assign s reg.unsigned fun _ => ⟨.valExpression,block.bytes.length,pos + 1 + reg.length + block.size.length⟩
  | .undefined reg => w.assign s reg.unsigned fun _ => plain .none
  | .sameValue reg => w.assign s reg.unsigned fun old => { old with rule := .sameValue }
  | .restore reg => w.restored s reg.val
  | .restoreExtended reg => w.restored s reg.unsigned
  | .rememberState => { w with regsStack := copyRegisterRules s.machine w.rules.returnAddressRegister w.frameRegs :: w.regsStack }
  | .restoreState => w.popped s
  | .defCfa reg n => w.setCfa fun regs => { regs with cfaRule := .offset, cfaRegister := reg.unsigned, cfaOffset := word n.unsigned }
  | .defCfaSf reg n => w.setCfa fun regs =>
    { regs with cfaRule := .offset, cfaRegister := reg.unsigned, cfaOffset := word (n.signed * w.rules.dataAlignment) }
  | .defCfaRegister reg => w.setCfa fun regs => { regs with cfaRule := .offset, cfaRegister := reg.unsigned }
  | .defCfaOffset n => w.setCfa fun regs => { regs with cfaRule := .offset, cfaOffset := word n.unsigned }
  | .defCfaOffsetSf n => w.setCfa fun regs => { regs with cfaRule := .offset, cfaOffset := word (n.signed * w.rules.dataAlignment) }
  | .defCfaExpression block => w.setCfa fun regs =>
    { regs with cfaRule := .expression, cfaOffset := block.bytes.length, cfaExpression := pos + 1 + block.size.length }

end Worlds

variable {i : FrameInstruction}

section Reading

variable {s : FrameSection} {w : World} {pos : Nat} {rest : List UInt8} {text : Option Nat} {funcAddr : Nat}

theorem drop_next {first : List UInt8} (placed : s.data.drop pos = first ++ rest) : s.data.drop (pos + first.length) = rest := by
  rw [← List.drop_drop,placed,List.drop_left]

theorem drop_opcode {opcode : UInt8} {operands : List UInt8} (placed : s.data.drop pos = opcode :: operands) :
    s.data.drop (pos + 1) = operands := by
  rw [← List.drop_drop,placed,List.drop_one,List.tail_cons]

theorem drop_inside {first : List UInt8} (placed : s.data.drop pos = first ++ rest) (filled : first ≠ []) : pos + first.length ≤ s.data.length := by
  have size := congrArg List.length placed
  have positive := List.length_pos_iff.mpr filled
  simp only [List.length_drop,List.length_append] at size
  omega

theorem liftRead_goto {α : Type} {read : Read α} {a : α} {n : Nat} (run : read ⟨pos,s.data.drop pos⟩ = .ok (a,⟨n,s.data.drop n⟩)) :
    liftRead read (w.goto s pos) = .ok a (w.goto s n) := by
  simp only [liftRead,World.goto,run]

theorem liftRead_fails {α : Type} {read : Read α} {failure : Failure} (run : read ⟨pos,s.data.drop pos⟩ = .error failure) :
    liftRead read (w.goto s pos) = .error (.failure failure) (w.goto s pos) := by
  simp only [liftRead,World.goto,run]

theorem get_run (w : World) : (get : Lookup World) w = .ok w w := rfl

theorem getPos_goto : getPos (w.goto s pos) = .ok pos (w.goto s pos) := rfl

variable {leb : Leb}

theorem uleb_goto (short : Short 32 leb) (placed : s.data.drop pos = leb.bytes ++ rest) :
    uleb (w.goto s pos) = .ok (leb.unsigned % 2 ^ 32) (w.goto s (pos + leb.length)) := by
  apply liftRead_goto
  have next := drop_next placed
  rw [Leb.bytes_length] at next
  rw [placed,next]
  exact dioReadULEB128_short short

theorem uleb_small (short : Short 32 leb) (small : leb.unsigned < 2 ^ 32) (placed : s.data.drop pos = leb.bytes ++ rest) :
    uleb (w.goto s pos) = .ok leb.unsigned (w.goto s (pos + leb.length)) := by
  have run := uleb_goto (w := w) short placed
  rwa [Nat.mod_eq_of_lt small] at run

theorem uleb_long (long : ¬Short 32 leb) (placed : s.data.drop pos = leb.bytes ++ rest) :
    uleb (w.goto s pos) = .error (.failure .undefined) (w.goto s pos) := by
  apply liftRead_fails
  rw [placed]
  exact dioReadULEB128_long long

theorem sleb_goto (short : Short 32 leb) (placed : s.data.drop pos = leb.bytes ++ rest) :
    ∃ n, sleb (w.goto s pos) = .ok n (w.goto s (pos + leb.length)) ∧ n % 2 ^ 32 = leb.signed % 2 ^ 32 := by
  obtain ⟨n,run,same⟩ := dioReadSLEB128_short pos rest short
  refine ⟨n,?_,same⟩
  apply liftRead_goto
  have next := drop_next placed
  rw [Leb.bytes_length] at next
  rw [placed,next]
  exact run

theorem sleb_long (long : ¬Short 32 leb) (placed : s.data.drop pos = leb.bytes ++ rest) :
    sleb (w.goto s pos) = .error (.failure .undefined) (w.goto s pos) := by
  apply liftRead_fails
  rw [placed]
  unfold dioReadSLEB128
  simp only [readLeb_long true long,Failure.error_bind]

theorem skip_goto {size : Nat} (inside : pos + size ≤ s.data.length) (small : s.data.length < 2 ^ 64) :
    skip s size (w.goto s pos) = .ok () (w.goto s (pos + size)) := by
  unfold skip
  rw [bind_ok getPos_goto]
  have here : (((pos : Int) + (size : Int)) % 2 ^ 64).toNat = pos + size := by omega
  rw [here,setPos,if_neg (by omega)]
  rfl

theorem getReg_goto {reg : Nat} (small : reg < 2 ^ 30) : getReg s reg (w.goto s pos) = .ok (w.frameRule s reg) ((w.grow s reg).goto s pos) := by
  unfold getReg
  rw [if_pos small]
  simp only [getD_grown]
  rfl

theorem getReg_far {reg : Nat} (far : ¬reg < 2 ^ 30) : getReg s reg w = .error (.failure .undefined) w := by
  rw [getReg,if_neg far]

theorem getCieReg_goto {reg : Nat} (small : reg < 2 ^ 30) :
    getCieReg s reg (w.goto s pos) = .ok (w.cieRule s reg) ((w.growCie s reg).goto s pos) := by
  unfold getCieReg
  rw [if_pos small]
  simp only [getD_grown]
  rfl

theorem scaled_word {m n : Int} (rules : StackFrameRules) (same : m % 2 ^ 32 = n % 2 ^ 32) : scaled rules m = word (n * rules.dataAlignment) := by
  unfold scaled word
  rw [Int.mul_emod,same,← Int.mul_emod]

theorem toI4_word (n : Nat) : toI4 (n % 2 ^ 32) = word n := by
  unfold word
  congr 1

theorem toI4_small {n : Nat} (small : n < 2 ^ 31) : toI4 n = n := by
  unfold toI4
  rw [if_pos small]

variable {reg : Leb} {rule : Rule} {operand : StackFrameRules → Lookup Int}

/-- A rule with an operand, once the operand is known to be read. -/
theorem ruleWith_goto {n : Int} {next : Nat} (indexed : FrameInstruction.Indexed reg)
    (placed : s.data.drop pos = reg.bytes ++ rest)
    (run : operand w.rules ((w.grow s reg.unsigned).goto s (pos + reg.length)) = .ok n ((w.grow s reg.unsigned).goto s next)) :
    ruleWith s rule operand (w.goto s pos) = .ok () ((w.assign s reg.unsigned fun old => { old with rule := rule, offset := n }).goto s next) := by
  obtain ⟨short,small⟩ := indexed
  unfold ruleWith
  rw [bind_ok (uleb_small short (by omega) placed),bind_ok (getReg_goto small)]
  exact bind_ok run

theorem ruleWith_far (fits : reg.unsigned < 2 ^ 32)
    (unread : ¬FrameInstruction.Indexed reg) (placed : s.data.drop pos = reg.bytes ++ rest) :
    ∃ w', ruleWith s rule operand (w.goto s pos) = .error (.failure .undefined) w' := by
  unfold ruleWith
  by_cases short : Short 32 reg
  · refine ⟨w.goto s (pos + reg.length),?_⟩
    rw [bind_ok (uleb_small short fits placed)]
    exact bind_error (getReg_far fun small => unread ⟨short,small⟩)
  · exact ⟨_,bind_error (uleb_long short placed)⟩

theorem ruleWith_fails (indexed : FrameInstruction.Indexed reg)
    (placed : s.data.drop pos = reg.bytes ++ rest) {w' : World}
    (run : operand w.rules ((w.grow s reg.unsigned).goto s (pos + reg.length)) = .error (.failure .undefined) w') :
    ruleWith s rule operand (w.goto s pos) = .error (.failure .undefined) w' := by
  obtain ⟨short,small⟩ := indexed
  unfold ruleWith
  rw [bind_ok (uleb_small short (by omega) placed),bind_ok (getReg_goto small),bind_ok (get_run _)]
  exact bind_error run

variable {n : Leb}

theorem unsignedOffset_goto (short : Short 32 n) (placed : s.data.drop pos = n.bytes ++ rest) (rules : StackFrameRules) :
    unsignedOffset rules (w.goto s pos) = .ok (word (n.unsigned * rules.dataAlignment)) (w.goto s (pos + n.length)) := by
  unfold unsignedOffset
  rw [bind_ok (uleb_goto short placed),← scaled_word rules (show ((n.unsigned % 2 ^ 32 : Nat) : Int) % 2 ^ 32 = n.unsigned % 2 ^ 32 by omega)]
  rfl

theorem signedOffset_goto (short : Short 32 n) (placed : s.data.drop pos = n.bytes ++ rest) (rules : StackFrameRules) :
    signedOffset rules (w.goto s pos) = .ok (word (n.signed * rules.dataAlignment)) (w.goto s (pos + n.length)) := by
  obtain ⟨value,run,same⟩ := sleb_goto (w := w) short placed
  unfold signedOffset
  rw [bind_ok run,← scaled_word rules same]
  rfl

theorem negativeOffset_goto (short : Short 32 n) (placed : s.data.drop pos = n.bytes ++ rest) (rules : StackFrameRules) :
    negativeOffset rules (w.goto s pos) = .ok (word (-n.signed * rules.dataAlignment)) (w.goto s (pos + n.length)) := by
  obtain ⟨value,run,same⟩ := sleb_goto (w := w) short placed
  unfold negativeOffset
  rw [bind_ok run,← scaled_word rules (show (-value) % 2 ^ 32 = (-n.signed) % 2 ^ 32 by omega)]
  rfl

theorem plainOperand_goto (short : Short 32 n) (placed : s.data.drop pos = n.bytes ++ rest) (rules : StackFrameRules) :
    plainOperand rules (w.goto s pos) = .ok (word n.unsigned) (w.goto s (pos + n.length)) := by
  unfold plainOperand
  rw [bind_ok (uleb_goto short placed),toI4_word]
  rfl

/-- The two ways in which a rule with an operand is not read. -/
theorem ruleWith_unread (fits : reg.unsigned < 2 ^ 32)
    (unread : ¬(FrameInstruction.Indexed reg ∧ Short 32 n)) (placed : s.data.drop pos = reg.bytes ++ (n.bytes ++ rest))
    (fails : ∀ (w : World) (pos : Nat), ¬Short 32 n → s.data.drop pos = n.bytes ++ rest → ∃ w', operand w.rules (w.goto s pos) = .error (.failure .undefined) w') :
    ∃ w', ruleWith s rule operand (w.goto s pos) = .error (.failure .undefined) w' := by
  by_cases indexed : FrameInstruction.Indexed reg
  · have later := drop_next placed
    rw [Leb.bytes_length] at later
    obtain ⟨w',run⟩ := fails (w.grow s reg.unsigned) (pos + reg.length) (fun short => unread ⟨indexed,short⟩) later
    exact ⟨w',ruleWith_fails indexed placed run⟩
  · exact ruleWith_far fits indexed placed

theorem Block.encoded_filled (block : Block) : block.encoded ≠ [] := by
  intro empty
  have length := congrArg List.length empty
  simp [Block.encoded,Leb.length] at length

/-- A rule with a block -/
theorem ruleExpression_goto {block : Block} (indexed : FrameInstruction.Indexed reg) (short : Short 32 block.size)
    (fits : block.bytes.length < 2 ^ 31) (small : s.data.length < 2 ^ 64) (placed : s.data.drop pos = reg.bytes ++ (block.encoded ++ rest)) :
    ruleExpression s rule (w.goto s pos) = .ok ()
      ((w.assign s reg.unsigned fun _ => ⟨rule,block.bytes.length,pos + reg.length + block.size.length⟩).goto s
        (pos + reg.length + block.encoded.length)) := by
  obtain ⟨regShort,regSmall⟩ := indexed
  have sizeAt := drop_next placed
  have inside := drop_inside sizeAt block.encoded_filled
  rw [Block.encoded,List.append_assoc,Leb.bytes_length] at sizeAt
  have same := block.sized
  simp only [Block.encoded,List.length_append,Leb.bytes_length] at inside ⊢
  unfold ruleExpression
  rw [bind_ok (uleb_small regShort (by omega) placed),bind_ok (getReg_goto regSmall),bind_ok (uleb_small short (by omega) sizeAt),
    bind_ok getPos_goto,same,toI4_small fits,
    bind_ok (show setReg reg.unsigned _ _ = .ok () ((w.assign s reg.unsigned fun _ =>
      ⟨rule,block.bytes.length,pos + reg.length + block.size.length⟩).goto s (pos + reg.length + block.size.length)) from rfl)]
  rw [skip_goto (by omega) small,Nat.add_assoc (pos + reg.length)]

theorem restoreReg_goto {reg : Nat} (small : reg < 2 ^ 30) : restoreReg s reg (w.goto s pos) = .ok () ((w.restored s reg).goto s pos) := by
  unfold restoreReg
  rw [bind_ok (getReg_goto small),bind_ok (getCieReg_goto small)]
  rfl

theorem advance_goto (delta : Nat) : advanceLocation delta (w.goto s pos) = .ok () ((w.advanced delta).goto s pos) := rfl

theorem execOpcode_packed {op : Nat} (packed : 64 ≤ op) : execOpcode s text funcAddr op = execPacked s op := by
  unfold execOpcode
  split <;> first | omega | rfl

theorem execPacked_advance (n : Fin 64) : execPacked s (0x40 + n.val) = advanceLocation n.val := by
  unfold execPacked
  rw [show (0x40 + n.val) / 64 = 1 by omega,show (0x40 + n.val) % 64 = n.val by omega]
  rfl

theorem execPacked_offset (n : Fin 64) : execPacked s (0x80 + n.val) = (do
    let old ← getReg s n.val
    let w ← get
    let offset ← unsignedOffset w.rules
    setReg n.val { old with rule := .offset, offset := offset }) := by
  unfold execPacked
  rw [show (0x80 + n.val) / 64 = 2 by omega,show (0x80 + n.val) % 64 = n.val by omega]
  rfl

theorem execPacked_restore (n : Fin 64) : execPacked s (0xc0 + n.val) = restoreReg s n.val := by
  unfold execPacked
  rw [show (0xc0 + n.val) / 64 = 3 by omega,show (0xc0 + n.val) % 64 = n.val by omega]
  rfl

theorem FrameInstruction.opcode_small (i : FrameInstruction) : i.opcode < 256 := by
  cases i <;> simp only [FrameInstruction.opcode] <;> omega

/-- The opcode is read first. -/
theorem exec_opcode (text : Option Nat) (funcAddr : Nat) (w : World) (placed : s.data.drop pos = i.bytes s.bigEndian ++ rest) :
    execStackFrameInstruction s text funcAddr (w.goto s pos) = execOpcode s text funcAddr i.opcode (w.goto s (pos + 1)) ∧
      s.data.drop (pos + 1) = i.operands s.bigEndian ++ rest := by
  have next : s.data.drop (pos + 1) = i.operands s.bigEndian ++ rest := drop_opcode placed
  refine ⟨?_,next⟩
  unfold execStackFrameInstruction
  refine bind_ok (liftRead_goto ?_)
  rw [placed,next]
  exact readU1_byte i.opcode_small

/-- An instruction is read to its end, and done. -/
theorem exec_bytes (text : Option Nat) (funcAddr : Nat) (readable : i.Readable) (fits : i.Fits)
    (nested : i = .restoreState → w.regsStack ≠ [])
    (small : s.data.length < 2 ^ 64) (placed : s.data.drop pos = i.bytes s.bigEndian ++ rest) :
    execStackFrameInstruction s text funcAddr (w.goto s pos) = .ok () ((applied s pos w i).goto s (pos + (i.bytes s.bigEndian).length)) := by
  obtain ⟨opcode,placed⟩ := exec_opcode text funcAddr w placed
  rw [opcode]
  have total : pos + (i.bytes s.bigEndian).length = pos + 1 + (i.operands s.bigEndian).length := by
    simp only [FrameInstruction.bytes,List.length_cons]
    omega
  rw [total]
  have second {reg n : Leb} (placed : s.data.drop (pos + 1) = (reg.bytes ++ n.bytes) ++ rest) :
      s.data.drop (pos + 1) = reg.bytes ++ (n.bytes ++ rest) ∧ s.data.drop (pos + 1 + reg.length) = n.bytes ++ rest := by
    rw [List.append_assoc] at placed
    have next := drop_next placed
    rw [Leb.bytes_length] at next
    exact ⟨placed,next⟩
  cases i with
  | nop | rememberState => rfl
  | advanceLoc delta =>
    simp only [FrameInstruction.opcode]
    rw [execOpcode_packed (by omega),execPacked_advance]
    rfl
  | advanceLoc1 delta =>
    have next := drop_next placed
    refine (bind_ok (liftRead_goto (n := pos + 1 + 1) ?_)).trans (advance_goto delta.toNat)
    rw [placed,show s.data.drop (pos + 1 + 1) = rest from next]
    rfl
  | advanceLoc2 delta =>
    have next := drop_next placed
    simp only [FrameInstruction.operands,bytesOf_length] at next ⊢
    refine (bind_ok (liftRead_goto ?_)).trans (advance_goto delta.toNat)
    rw [placed,next]
    exact dioReadUint_bytes (readSection s) delta.toNat_lt
  | advanceLoc4 delta =>
    have next := drop_next placed
    simp only [FrameInstruction.operands,bytesOf_length] at next ⊢
    refine (bind_ok (liftRead_goto ?_)).trans (advance_goto delta.toNat)
    rw [placed,next]
    exact dioReadUint_bytes (readSection s) delta.toNat_lt
  | offset reg n =>
    simp only [FrameInstruction.opcode,FrameInstruction.operands,Leb.bytes_length]
    rw [execOpcode_packed (by omega),execPacked_offset,bind_ok (getReg_goto (by omega)),bind_ok (get_run _),
      bind_ok (unsignedOffset_goto readable placed _)]
    rfl
  | offsetExtended reg n | valOffset reg n =>
    obtain ⟨first,later⟩ := second placed
    simp only [FrameInstruction.operands,List.length_append,Leb.bytes_length,← Nat.add_assoc]
    exact ruleWith_goto readable.1 first (unsignedOffset_goto readable.2 later _)
  | offsetExtendedSf reg n | valOffsetSf reg n =>
    obtain ⟨first,later⟩ := second placed
    simp only [FrameInstruction.operands,List.length_append,Leb.bytes_length,← Nat.add_assoc]
    exact ruleWith_goto readable.1 first (signedOffset_goto readable.2 later _)
  | negativeOffsetExtended reg n =>
    obtain ⟨first,later⟩ := second placed
    simp only [FrameInstruction.operands,List.length_append,Leb.bytes_length,← Nat.add_assoc]
    exact ruleWith_goto readable.1 first (negativeOffset_goto readable.2 later _)
  | register reg source =>
    obtain ⟨first,later⟩ := second placed
    simp only [FrameInstruction.operands,List.length_append,Leb.bytes_length,← Nat.add_assoc]
    exact ruleWith_goto readable.1 first (plainOperand_goto readable.2 later _)
  | expression reg block | valExpression reg block =>
    simp only [FrameInstruction.operands,List.append_assoc] at placed
    simp only [FrameInstruction.operands,List.length_append,Leb.bytes_length,← Nat.add_assoc]
    exact ruleExpression_goto readable.1 readable.2 fits.2 small placed
  | undefined reg | sameValue reg =>
    obtain ⟨short,below⟩ := readable
    simp only [FrameInstruction.operands,Leb.bytes_length]
    exact (bind_ok (uleb_small short fits placed)).trans ((bind_ok (getReg_goto below)).trans rfl)
  | restore reg =>
    simp only [FrameInstruction.opcode]
    rw [execOpcode_packed (by omega),execPacked_restore]
    exact restoreReg_goto (by omega)
  | restoreExtended reg =>
    obtain ⟨short,below⟩ := readable
    simp only [FrameInstruction.operands,Leb.bytes_length]
    exact (bind_ok (uleb_small short fits placed)).trans (restoreReg_goto below)
  | restoreState =>
    have filled := nested rfl
    show restoreState s (w.goto s (pos + 1)) = _
    cases stack : w.regsStack with
    | nil => exact absurd stack filled
    | cons top regsStack => simp [restoreState,World.goto,applied,World.popped,stack,FrameInstruction.operands]
  | defCfa reg n =>
    obtain ⟨first,later⟩ := second placed
    simp only [FrameInstruction.operands,List.length_append,Leb.bytes_length,← Nat.add_assoc]
    refine (bind_ok (uleb_small readable.1 fits first)).trans ((bind_ok (uleb_goto readable.2 later)).trans ?_)
    rw [toI4_word]
    rfl
  | defCfaSf reg n =>
    obtain ⟨first,later⟩ := second placed
    simp only [FrameInstruction.operands,List.length_append,Leb.bytes_length,← Nat.add_assoc]
    refine (bind_ok (uleb_small readable.1 fits first)).trans ?_
    rw [bind_ok (get_run _),bind_ok (signedOffset_goto readable.2 later _)]
    rfl
  | defCfaRegister reg =>
    simp only [FrameInstruction.operands,Leb.bytes_length]
    exact (bind_ok (uleb_small readable fits placed)).trans rfl
  | defCfaOffset n =>
    simp only [FrameInstruction.operands,Leb.bytes_length]
    refine (bind_ok (uleb_goto readable placed)).trans ?_
    rw [toI4_word]
    rfl
  | defCfaOffsetSf n =>
    simp only [FrameInstruction.operands,Leb.bytes_length]
    exact (bind_ok (get_run _)).trans ((bind_ok (signedOffset_goto readable placed _)).trans rfl)
  | defCfaExpression block =>
    have inside := drop_inside placed block.encoded_filled
    have sized := block.sized
    simp only [FrameInstruction.Fits] at fits
    simp only [FrameInstruction.operands,Block.encoded,List.append_assoc,List.length_append,Leb.bytes_length] at placed inside ⊢
    refine (bind_ok (uleb_small readable (by omega) placed)).trans ((bind_ok getPos_goto).trans ?_)
    rw [sized,toI4_small fits,bind_ok (show modifyFrame _ _ = .ok () ((w.setCfa fun regs => { regs with
      cfaRule := .expression, cfaOffset := block.bytes.length, cfaExpression := pos + 1 + block.size.length }).goto s
        (pos + 1 + block.size.length)) from rfl),skip_goto (by omega) small,Nat.add_assoc (pos + 1)]
    rfl
  | argsSize n =>
    simp only [FrameInstruction.operands,Leb.bytes_length]
    exact (bind_ok (uleb_goto readable placed)).trans rfl

theorem ruleExpression_unread {block : Block} (fits : reg.unsigned < 2 ^ 32)
    (unread : ¬(FrameInstruction.Indexed reg ∧ Short 32 block.size)) (placed : s.data.drop pos = reg.bytes ++ (block.encoded ++ rest)) :
    ∃ w', ruleExpression s rule (w.goto s pos) = .error (.failure .undefined) w' := by
  have sizeAt := drop_next placed
  rw [Block.encoded,List.append_assoc,Leb.bytes_length] at sizeAt
  unfold ruleExpression
  by_cases short : Short 32 reg
  · rw [bind_ok (uleb_small short fits placed)]
    by_cases below : reg.unsigned < 2 ^ 30
    · rw [bind_ok (getReg_goto below)]
      exact ⟨_,bind_error (uleb_long (fun size => unread ⟨⟨short,below⟩,size⟩) sizeAt)⟩
    · exact ⟨_,bind_error (getReg_far below)⟩
  · exact ⟨_,bind_error (uleb_long short placed)⟩

theorem getReg_unread {α : Type} {next : Nat → Lookup α} (fits : reg.unsigned < 2 ^ 32) (unread : ¬FrameInstruction.Indexed reg)
    (placed : s.data.drop pos = reg.bytes ++ rest) (far : ∀ n w, ¬n < 2 ^ 30 → ∃ w', next n w = .error (.failure .undefined) w') :
    ∃ w', (uleb >>= next) (w.goto s pos) = .error (.failure .undefined) w' := by
  by_cases short : Short 32 reg
  · rw [bind_ok (uleb_small short fits placed)]
    exact far _ _ fun below => unread ⟨short,below⟩
  · exact ⟨_,bind_error (uleb_long short placed)⟩

/-- An instruction that cannot be read is undefined. -/
theorem exec_unread (text : Option Nat) (funcAddr : Nat) (w : World) (unread : ¬i.Readable) (fits : i.Fits)
    (placed : s.data.drop pos = i.bytes s.bigEndian ++ rest) :
    ∃ w', execStackFrameInstruction s text funcAddr (w.goto s pos) = .error (.failure .undefined) w' := by
  obtain ⟨opcode,placed⟩ := exec_opcode text funcAddr w placed
  rw [opcode]
  cases i with
  | nop | advanceLoc | advanceLoc1 | advanceLoc2 | advanceLoc4 | restore | rememberState | restoreState => exact absurd trivial unread
  | offset reg n =>
    simp only [FrameInstruction.opcode]
    rw [execOpcode_packed (by omega),execPacked_offset,bind_ok (getReg_goto (by omega)),bind_ok (get_run _)]
    exact ⟨_,bind_error (bind_error (uleb_long unread placed))⟩
  | offsetExtended reg n | valOffset reg n =>
    simp only [FrameInstruction.operands,List.append_assoc] at placed
    exact ruleWith_unread fits unread placed fun w pos long placed => ⟨_,bind_error (uleb_long long placed)⟩
  | offsetExtendedSf reg n | valOffsetSf reg n | negativeOffsetExtended reg n =>
    simp only [FrameInstruction.operands,List.append_assoc] at placed
    exact ruleWith_unread fits unread placed fun w pos long placed => ⟨_,bind_error (sleb_long long placed)⟩
  | register reg source =>
    simp only [FrameInstruction.operands,List.append_assoc] at placed
    exact ruleWith_unread fits.1 unread placed fun w pos long placed => ⟨_,bind_error (uleb_long long placed)⟩
  | expression reg block | valExpression reg block =>
    simp only [FrameInstruction.operands,List.append_assoc] at placed
    exact ruleExpression_unread fits.1 unread placed
  | undefined reg | sameValue reg => exact getReg_unread fits unread placed fun n w far => ⟨_,bind_error (getReg_far far)⟩
  | restoreExtended reg => exact getReg_unread fits unread placed fun n w far => ⟨_,bind_error (getReg_far far)⟩
  | defCfa reg n =>
    simp only [FrameInstruction.operands,List.append_assoc] at placed
    by_cases short : Short 32 reg
    · have later := drop_next placed
      rw [Leb.bytes_length] at later
      exact ⟨_,(bind_ok (uleb_small short fits placed)).trans (bind_error (uleb_long (fun n => unread ⟨short,n⟩) later))⟩
    · exact ⟨_,bind_error (uleb_long short placed)⟩
  | defCfaSf reg n =>
    simp only [FrameInstruction.operands,List.append_assoc] at placed
    by_cases short : Short 32 reg
    · have later := drop_next placed
      rw [Leb.bytes_length] at later
      exact ⟨_,(bind_ok (uleb_small short fits placed)).trans ((bind_ok (get_run _)).trans
        (bind_error (bind_error (sleb_long (fun n => unread ⟨short,n⟩) later))))⟩
    · exact ⟨_,bind_error (uleb_long short placed)⟩
  | defCfaRegister reg => exact ⟨_,bind_error (uleb_long unread placed)⟩
  | defCfaOffset n | argsSize n => exact ⟨_,bind_error (uleb_long unread placed)⟩
  | defCfaOffsetSf n => exact ⟨_,(bind_ok (get_run _)).trans (bind_error (bind_error (sleb_long unread placed)))⟩
  | defCfaExpression block =>
    simp only [FrameInstruction.operands,Block.encoded,List.append_assoc] at placed
    exact ⟨_,bind_error (uleb_long unread placed)⟩

end Reading

section Following

variable {s : FrameSection} {w : World} {m m' : TableState} {pos reg : Nat} {rest : List UInt8}

/-- What a rule of the code says -/
def shownRule (s : FrameSection) (rules : RegisterRules) : RegisterRule :=
  match rules.rule with
  | .none => .undefined
  | .offset => .offset rules.offset
  | .sameValue => .sameValue
  | .register => .register (rules.offset % 2 ^ 32).toNat
  | .expression => .expression ((s.data.drop rules.expression).take rules.offset.toNat)
  | .valOffset => .valOffset rules.offset
  | .valExpression => .valExpression ((s.data.drop rules.expression).take rules.offset.toNat)

/-- The switch of `generate_commands` has two cases. -/
def shownCfa (s : FrameSection) (regs : StackFrameRegisters) : CfaRule :=
  match regs.cfaRule with
  | .offset => .registerOffset regs.cfaRegister regs.cfaOffset
  | .expression => .expression ((s.data.drop regs.cfaExpression).take regs.cfaOffset.toNat)
  | _ => .none

def shownRow (s : FrameSection) (rar : Nat) (regs : StackFrameRegisters) : Row :=
  ⟨shownCfa s regs,fun n => shownRule s (ruleAt s.machine rar regs.regs n)⟩

/-- What the instructions take from the header of a CIE -/
structure Factors where
  codeAlignment : Nat
  dataAlignment : Int
  returnAddressRegister : Nat
  deriving DecidableEq, Repr

def World.factors (w : World) : Factors := ⟨w.rules.codeAlignment,w.rules.dataAlignment,w.rules.returnAddressRegister⟩

def setting (s : FrameSection) (factors : Factors) : Setting :=
  ⟨factors.codeAlignment,factors.dataAlignment,fun n => shownRule s (implied s.machine factors.returnAddressRegister n)⟩

/-- The rules that a restored register gets -/
def World.initial (s : FrameSection) (w : World) (n : Nat) : RegisterRule := shownRule s (w.cieRule s n)

/-- The rules of the code are those of a table. -/
structure Follows (s : FrameSection) (w : World) (m : TableState) : Prop where
  row : shownRow s w.rules.returnAddressRegister w.frameRegs = m.row
  stack : w.regsStack.map (shownRow s w.rules.returnAddressRegister) = m.stack

@[simp] theorem copy_shown (rar : Nat) (regs : StackFrameRegisters) : shownRow s rar (copyRegisterRules s.machine rar regs) = shownRow s rar regs := by
  simp only [shownRow,copyRegisterRules,ruleAt_copy]
  rfl

theorem Follows.assign (follows : Follows s w m) {f : RegisterRules → RegisterRules} {rule : RegisterRule}
    (shown : shownRule s (f (w.frameRule s reg)) = rule) : Follows s (w.assign s reg f) (m.setRule reg rule) := by
  refine ⟨?_,follows.stack⟩
  have row := follows.row
  simp only [TableState.setRule,← row,shownRow,World.assign,World.grow]
  congr 1
  funext n
  rw [ruleAt_set (grown_length _ reg),ruleAt_grown]
  by_cases same : n = reg
  · rw [if_pos same,if_pos same,shown]
  · rw [if_neg same,if_neg same]

theorem Follows.restored (follows : Follows s w m) (reg : Nat) : Follows s (w.restored s reg) (m.setRule reg (w.initial s reg)) := by
  have assigned : Follows s (w.assign s reg fun _ => w.cieRule s reg) (m.setRule reg (w.initial s reg)) := follows.assign rfl
  exact ⟨assigned.row,assigned.stack⟩

theorem Follows.setCfa (follows : Follows s w m) {f : StackFrameRegisters → StackFrameRegisters} {cfa : CfaRule}
    (regs : (f w.frameRegs).regs = w.frameRegs.regs) (shown : shownCfa s (f w.frameRegs) = cfa) : Follows s (w.setCfa f) (m.setCfa cfa) := by
  refine ⟨?_,follows.stack⟩
  have row := follows.row
  simp only [TableState.setCfa,← row,shownRow,World.setCfa,shown,regs]

theorem Follows.cfa (follows : Follows s w m) : shownCfa s w.frameRegs = m.row.cfa := by rw [← follows.row,shownRow]

theorem shownCfa_offset {regs : StackFrameRegisters} {n : Int} (shown : shownCfa s regs = .registerOffset reg n) :
    regs.cfaRule = .offset ∧ regs.cfaRegister = reg ∧ regs.cfaOffset = n := by
  unfold shownCfa at shown
  split at shown
  · next rule =>
    cases shown
    exact ⟨rule,rfl,rfl⟩
  · cases shown
  · cases shown

theorem word_register {n : Nat} (small : n < 2 ^ 32) : (word n % 2 ^ 32).toNat = n := by
  unfold word toI4
  split <;> omega

theorem take_block {block : Block} (placed : s.data.drop pos = block.encoded ++ rest) :
    (s.data.drop (pos + block.size.length)).take block.bytes.length = block.bytes := by
  rw [Block.encoded,List.append_assoc] at placed
  have next := drop_next placed
  rw [Leb.bytes_length] at next
  rw [next,List.take_left]

/-- A step of the code is a step of the table. -/
theorem follows_applied (follows : Follows s w m) (fits : i.Fits)
    (placed : s.data.drop pos = i.bytes s.bigEndian ++ rest) (valid : step (setting s w.factors) (w.initial s) m i = some m') :
    Follows s (applied s pos w i) m' := by
  have operands : s.data.drop (pos + 1) = i.operands s.bigEndian ++ rest := drop_opcode placed
  cases i with
  | nop | argsSize n | advanceLoc delta | advanceLoc1 delta | advanceLoc2 delta | advanceLoc4 delta =>
    cases valid
    exact ⟨follows.row,follows.stack⟩
  | offset reg n | offsetExtended reg n | offsetExtendedSf reg n | valOffset reg n | valOffsetSf reg n | negativeOffsetExtended reg n
    | undefined reg | sameValue reg =>
    cases valid
    simp only [applied]
    refine follows.assign ?_
    rfl
  | register reg source =>
    cases valid
    simp only [applied]
    refine follows.assign ?_
    simp only [shownRule,word_register fits.2]
  | expression reg block | valExpression reg block =>
    cases valid
    simp only [FrameInstruction.operands,List.append_assoc] at operands
    have later := drop_next operands
    rw [Leb.bytes_length] at later
    simp only [applied]
    refine follows.assign ?_
    simp only [shownRule,Int.toNat_natCast,take_block later]
  | restore reg | restoreExtended reg =>
    cases valid
    exact follows.restored _
  | rememberState =>
    cases valid
    refine ⟨follows.row,?_⟩
    simp only [applied,List.map_cons,copy_shown,follows.row,follows.stack]
  | restoreState =>
    have stack := follows.stack
    simp only [step] at valid
    split at valid
    · cases valid
    · next row stack' same =>
      cases valid
      rw [same] at stack
      simp only [applied,World.popped]
      cases saved : w.regsStack with
      | nil =>
        rw [saved] at stack
        cases stack
      | cons top others =>
        rw [saved] at stack
        injection stack with first later
        exact ⟨by simpa using first,later⟩
  | defCfa reg n | defCfaSf reg n =>
    cases valid
    simp only [applied]
    refine follows.setCfa ?_ ?_
    · rfl
    · rfl
  | defCfaRegister reg =>
    have cfa := follows.cfa
    simp only [step] at valid
    split at valid
    · next same =>
      cases valid
      rw [same] at cfa
      simp only [applied]
      refine follows.setCfa ?_ ?_
      · rfl
      · simp only [shownCfa,(shownCfa_offset cfa).2.2]
    · cases valid
  | defCfaOffset n | defCfaOffsetSf n =>
    have cfa := follows.cfa
    simp only [step] at valid
    split at valid
    · next same =>
      cases valid
      rw [same] at cfa
      simp only [applied]
      refine follows.setCfa ?_ ?_
      · rfl
      · simp only [shownCfa,(shownCfa_offset cfa).2.1,setting,World.factors]
    · cases valid
  | defCfaExpression block =>
    cases valid
    simp only [FrameInstruction.operands] at operands
    simp only [applied]
    refine follows.setCfa ?_ ?_
    · rfl
    · simp only [shownCfa,Int.toNat_natCast,take_block operands]

end Following

end Tcf.Frames
