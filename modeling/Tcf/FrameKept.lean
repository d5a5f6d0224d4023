import Tcf.FrameInfo

/-! What the instructions of call frame information leave as it is. -/
namespace Tcf.Frames

open Dwarf

section Keeping

variable {α β γ : Type}

/-- The world behind a call, also when it raises an exception. -/
def leftWorld : EStateM.Result Stop World α → World
  | .ok _ w => w
  | .error _ w => w

/-- A call leaves a part of the world as it was. -/
def Keeps (part : World → γ) (call : Lookup α) : Prop := ∀ w, part (leftWorld (call w)) = part w

variable {part : World → γ} {call : Lookup α} {next : α → Lookup β}

theorem bind_ok {w w' : World} {a : α} (run : call w = .ok a w') : (call >>= next) w = next a w' := by
  simp only [bind,EStateM.bind,run]

theorem bind_error {w w' : World} {stop : Stop} (run : call w = .error stop w') :
    (call >>= next) w = .error stop w' := by
  simp only [bind,EStateM.bind,run]

@[simp] theorem keeps_pure (a : α) : Keeps part (pure a : Lookup α) := fun _ => rfl

@[simp] theorem keeps_exception (stop : Stop) : Keeps part (exception stop : Lookup α) := fun _ => rfl

@[simp] theorem keeps_invalid (message : String) : Keeps part (invalid message : Lookup α) := fun _ => rfl

@[simp] theorem keeps_get : Keeps part (get : Lookup World) := fun _ => rfl

@[simp] theorem keeps_bind {call : Lookup α} {next : α → Lookup β} (first : Keeps part call) (later : ∀ a, Keeps part (next a)) :
    Keeps part (call >>= next) := by
  intro w
  cases run : call w with
  | ok a w' =>
    rw [bind_ok run,later a w']
    have kept := first w
    rwa [run] at kept
  | error stop w' =>
    rw [bind_error run]
    have kept := first w
    rwa [run] at kept

@[simp] theorem keeps_map {call : Lookup α} {f : α → β} (first : Keeps part call) : Keeps part (f <$> call) := by
  rw [← bind_pure_comp]
  exact keeps_bind first fun _ => keeps_pure _

@[simp] theorem keeps_ite {c : Prop} [Decidable c] {yes no : Lookup α} (first : Keeps part yes) (second : Keeps part no) :
    Keeps part (if c then yes else no) := by
  split
  · exact first
  · exact second

theorem keeps_modify {f : World → World} (same : ∀ w, part (f w) = part w) : Keeps part (modify f : Lookup Unit) := same

variable {δ : Type} {w w' : World}

theorem Keeps.of {part : World → γ} (kept : Keeps part call) (f : γ → δ) : Keeps (fun w => f (part w)) call :=
  fun w => congrArg f (kept w)

theorem Keeps.ok {part : World → γ} (kept : Keeps part call) {a : α} (run : call w = .ok a w') : part w' = part w := by
  have same := kept w
  rwa [run] at same

theorem Keeps.error {part : World → γ} (kept : Keeps part call) {stop : Stop} (run : call w = .error stop w') :
    part w' = part w := by
  have same := kept w
  rwa [run] at same

/-- What comes before a result is a result. -/
theorem bind_inv {b : β} (run : (call >>= next) w = .ok b w') :
    ∃ a w1, call w = .ok a w1 ∧ next a w1 = .ok b w' := by
  cases first : call w with
  | ok a w1 =>
    rw [bind_ok first] at run
    exact ⟨a,w1,rfl,run⟩
  | error stop w1 =>
    rw [bind_error first] at run
    cases run

/-- A call that is not the last does not raise an exception in a call that comes back. -/
theorem bind_raised {stop : Stop} (run : (call >>= next) w = .error stop w') :
    call w = .error stop w' ∨ ∃ a w1, call w = .ok a w1 ∧ next a w1 = .error stop w' := by
  cases first : call w with
  | ok a w1 =>
    rw [bind_ok first] at run
    exact .inr ⟨a,w1,rfl,run⟩
  | error stop' w1 =>
    rw [bind_error first] at run
    cases run
    exact .inl rfl

end Keeping

/-- A part of the world that has nothing to do with the place, the frame and the stack. -/
class Steady {γ : Type} (part : World → γ) : Prop where
  dio : ∀ w dio, part { w with dio := dio } = part w
  location : ∀ w location, part { w with rules.location := location } = part w
  frameRegs : ∀ w frameRegs, part { w with frameRegs := frameRegs } = part w
  regsStack : ∀ w regsStack, part { w with regsStack := regsStack } = part w

/-- A part that the growth of the registers of the CIE does not change. -/
class SteadyCie {γ : Type} (s : FrameSection) (part : World → γ) : Prop where
  grown : ∀ w reg, part { w with cieRegs.regs := grown s.machine w.rules.returnAddressRegister w.cieRegs.regs reg } = part w

instance : Steady World.index := ⟨fun _ _ => rfl,fun _ _ => rfl,fun _ _ => rfl,fun _ _ => rfl⟩

instance (s : FrameSection) : SteadyCie s World.index := ⟨fun _ _ => rfl⟩

section Instructions

variable {α γ : Type} {part : World → γ} (s : FrameSection)

@[simp] theorem trap_keeps {body caught : Lookup Unit} (first : Keeps part body) (second : Keeps part caught) : Keeps part (trap body caught) := by
  intro w
  have kept := first w
  unfold trap
  cases run : body w with
  | ok a w' =>
    rw [run] at kept
    exact kept
  | error stop w' =>
    rw [run] at kept
    dsimp only
    split
    · exact (second w').trans kept
    · exact kept

@[simp] theorem readIndirect_keeps (size v : Nat) (sections : List MemorySection) : Keeps part (readIndirect s size v sections) := by
  induction sections with
  | nil => simp [readIndirect]
  | cons sec later ih =>
    unfold readIndirect
    refine keeps_ite ?_ ih
    split
    · simp
    · dsimp only
      split <;> simp

@[simp] theorem getCieReg_keeps [SteadyCie s part] (reg : Nat) : Keeps part (getCieReg s reg) := by
  intro w
  unfold getCieReg
  split
  · exact SteadyCie.grown w reg
  · rfl

variable [Steady part]

@[simp] theorem liftRead_keeps (read : Read α) : Keeps part (liftRead read) := by
  intro w
  unfold liftRead
  split
  · exact Steady.dio w _
  · rfl

@[simp] theorem getPos_keeps : Keeps part getPos := liftRead_keeps _

@[simp] theorem uleb_keeps : Keeps part uleb := liftRead_keeps _

@[simp] theorem sleb_keeps : Keeps part sleb := liftRead_keeps _

@[simp] theorem setPos_keeps (pos : Nat) : Keeps part (setPos s pos) := by
  intro w
  unfold setPos
  split
  · rfl
  · exact Steady.dio w _

@[simp] theorem skip_keeps (bytes : Int) : Keeps part (skip s bytes) := by simp [skip]

@[simp] theorem enterSection_keeps (offset : Nat) : Keeps part (enterSection s offset) := by
  intro w
  unfold enterSection
  split
  · exact Steady.dio w _
  · rfl

@[simp] theorem getReg_keeps (reg : Nat) : Keeps part (getReg s reg) := by
  intro w
  unfold getReg
  split
  · exact Steady.frameRegs w _
  · rfl

@[simp] theorem setReg_keeps (reg : Nat) (rules : RegisterRules) : Keeps part (setReg reg rules) := keeps_modify fun w => Steady.frameRegs w _

@[simp] theorem modifyFrame_keeps (f : StackFrameRegisters → StackFrameRegisters) : Keeps part (modifyFrame f) := keeps_modify fun w => Steady.frameRegs w _

@[simp] theorem advanceLocation_keeps (delta : Nat) : Keeps part (advanceLocation delta) := keeps_modify fun w => Steady.location w _

@[simp] theorem rememberState_keeps : Keeps part (rememberState s) := keeps_modify fun w => Steady.regsStack w _

@[simp] theorem restoreState_keeps : Keeps part (restoreState s) := by
  intro w
  unfold restoreState
  split
  · rfl
  · next top regsStack _ =>
    let frameRegs := copyRegisterRules s.machine w.rules.returnAddressRegister top
    exact (Steady.regsStack { w with frameRegs := frameRegs } regsStack).trans (Steady.frameRegs w frameRegs)

@[simp] theorem readAddressX_keeps (size : Nat) : Keeps part (readAddressX s size) := by
  unfold readAddressX
  refine keeps_bind (by simp) fun pos => keeps_ite (keeps_bind (by simp) fun value => ?_) (by simp)
  split <;> simp

@[simp] theorem alignPos_keeps (addressSize pos : Nat) : Keeps part (alignPos s addressSize pos) := keeps_ite (by simp) (by simp)

@[simp] theorem pointerBase_keeps (rules : StackFrameRules) (encoding : Nat) (text : Option Nat) (known : Bool) (funcAddr pos : Nat) :
    Keeps part (pointerBase s rules encoding text known funcAddr pos) := by
  unfold pointerBase
  split <;> simp

@[simp] theorem pointerValue_keeps (encoding : Nat) : Keeps part (pointerValue s encoding) := by
  unfold pointerValue
  split <;> simp

@[simp] theorem readFrameDataPointer_keeps (encoding : Nat) (text : Option Nat) (known : Bool) (funcAddr : Nat) :
    Keeps part (readFrameDataPointer s encoding text known funcAddr) := by
  unfold readFrameDataPointer
  refine keeps_bind keeps_get fun w => ?_
  refine keeps_ite (keeps_pure _) ?_
  refine keeps_bind (pointerBase_keeps _ _ _ _ _ _ _) fun base => ?_
  refine keeps_bind (pointerValue_keeps _ _) fun value => ?_
  exact keeps_ite (keeps_bind (readIndirect_keeps _ _ _ _) fun v => keeps_pure _) (keeps_pure _)

@[simp] theorem ruleWith_keeps (rule : Rule) {operand : StackFrameRules → Lookup Int} (kept : ∀ rules, Keeps part (operand rules)) :
    Keeps part (ruleWith s rule operand) := by
  unfold ruleWith
  exact keeps_bind (by simp) fun reg => keeps_bind (by simp) fun old => keeps_bind keeps_get fun w => keeps_bind (kept _) fun offset => by simp

@[simp] theorem unsignedOffset_keeps (rules : StackFrameRules) : Keeps part (unsignedOffset rules) := by simp [unsignedOffset]

@[simp] theorem signedOffset_keeps (rules : StackFrameRules) : Keeps part (signedOffset rules) := by simp [signedOffset]

@[simp] theorem negativeOffset_keeps (rules : StackFrameRules) : Keeps part (negativeOffset rules) := by simp [negativeOffset]

@[simp] theorem plainOperand_keeps (rules : StackFrameRules) : Keeps part (plainOperand rules) := by simp [plainOperand]

@[simp] theorem ruleExpression_keeps (rule : Rule) : Keeps part (ruleExpression s rule) := by
  unfold ruleExpression
  exact keeps_bind (by simp) fun reg => keeps_bind (by simp) fun old => keeps_bind (by simp) fun size => keeps_bind (by simp) fun pos => by simp

@[simp] theorem restoreReg_keeps [SteadyCie s part] (reg : Nat) : Keeps part (restoreReg s reg) := by simp [restoreReg]

@[simp] theorem execPacked_keeps [SteadyCie s part] (op : Nat) : Keeps part (execPacked s op) := by
  unfold execPacked
  split
  case h_2 => exact keeps_bind (by simp) fun old => keeps_bind keeps_get fun w => keeps_bind (by simp) fun offset => by simp
  all_goals simp

@[simp] theorem execOpcode_keeps [SteadyCie s part] (text : Option Nat) (funcAddr op : Nat) : Keeps part (execOpcode s text funcAddr op) := by
  unfold execOpcode
  split
  case h_2 => exact keeps_bind keeps_get fun w => keeps_bind (by simp) fun _ => keeps_modify fun w => Steady.location w _
  case h_8 => exact keeps_bind (by simp) fun reg => keeps_bind (by simp) fun old => by simp
  case h_9 => exact keeps_bind (by simp) fun reg => keeps_bind (by simp) fun old => by simp
  case h_16 => exact keeps_bind (by simp) fun size => keeps_bind (by simp) fun pos => keeps_bind (by simp) fun _ => by simp
  case h_19 => exact keeps_bind (by simp) fun reg => keeps_bind keeps_get fun w => keeps_bind (by simp) fun offset => by simp
  all_goals simp

@[simp] theorem execStackFrameInstruction_keeps [SteadyCie s part] (text : Option Nat) (funcAddr : Nat) : Keeps part (execStackFrameInstruction s text funcAddr) := by
  simp [execStackFrameInstruction]

@[simp] theorem execTo_keeps [SteadyCie s part] (text : Option Nat) (addr range ip fdeEnd rounds location0 : Nat) :
    Keeps part (execTo s text addr range ip fdeEnd rounds location0) := by
  induction rounds generalizing location0 with
  | zero => simp [execTo]
  | succ rounds ih =>
    unfold execTo
    refine keeps_bind (by simp) fun pos => keeps_ite ?_ ?_
    · exact keeps_bind (keeps_modify fun w => Steady.location w _) fun _ => by simp
    · exact keeps_bind (by simp) fun _ => keeps_bind keeps_get fun w => keeps_ite (by simp) (ih _)

@[simp] theorem execFde_keeps [SteadyCie s part] (fuel : Nat) (text : Option Nat) (addr range ip fdeEnd : Nat) :
    Keeps part (execFde s fuel text addr range ip fdeEnd) := by
  unfold execFde
  refine keeps_bind (keeps_modify fun w => ?_) fun _ => by simp
  let frameRegs := copyRegisterRules s.machine w.rules.returnAddressRegister w.cieRegs
  have stack : part _ = _ := Steady.regsStack { w with frameRegs := frameRegs, rules.location := addr } []
  have location : part _ = _ := Steady.location { w with frameRegs := frameRegs } addr
  exact stack.trans (location.trans (Steady.frameRegs w frameRegs))

end Instructions

end Tcf.Frames
