import Tcf.Base.EarlyReturn
import Tcf.RunControl

/-! Stepping: what `update_step_machine_state` makes of a stop of the context, and how often
`update_step_machine_state_inlined` lets it repeat a step. -/
namespace Tcf.RunControl

def STACK_NO_FRAME : Int := -1
def STACK_TOP_FRAME : Int := -2
def RC_STEP_MAX_STACK_FRAMES : Nat := 10000
def SYM_CLASS_FUNCTION : Int := 3
def ERR_CACHE_MISS : Int := 0x20000 + 27
def ERR_NOT_ACTIVE : Int := 0x20000 + 28

inductive Reason where
  | userRequest
  | step
  | active
  deriving DecidableEq, Repr

/-- The fields of a code area that stepping looks at. -/
structure CodeArea where
  directory : Option (List UInt8)
  file : Option (List UInt8)
  startLine : Int
  startAddress : Nat
  endAddress : Nat
  deriving DecidableEq, Repr

structure StackFrame where
  fp : Nat
  inlined : Int
  funcId : Option (List UInt8)
  area : Option CodeArea
  deriving DecidableEq, Repr

/-- What the symbols module says of a symbol; `none` is an error. -/
structure Symbol where
  name : Option (Option (List UInt8))
  symClass : Option Int
  size : Option Nat
  address : Option Nat
  deriving DecidableEq, Repr

/-- The answers of other modules while the context is stopped. -/
structure World where
  errorCode : Int → Int
  topFrame : Except Int Int
  prevFrame : Int → Except Int Int
  frameInfo : Int → Except Int StackFrame
  pcOf : Int → Except Int Nat
  symbolByAddr : Int → Nat → Option Symbol
  addressToLine : Nat → Nat → Except Int (List CodeArea)
  pltSection : Nat → Except Int Bool
  eventpoint : Nat → Address

/-- A context and its step operation. -/
structure Machine where
  exited : Bool
  pendingIntercept : Bool
  stopped : Bool
  intercepted : Bool
  pc : Nat
  pcError : Int
  frameLevel : Int
  mode : Int
  cnt : Int
  lineCnt : Int
  repeatCnt : Int
  rangeStart : Nat
  rangeEnd : Nat
  frameFp : Nat
  bpAddr : Nat
  bpInfo : Option Address
  funcId : Option (List UInt8)
  funcIdOut : Option (List UInt8)
  inlined : Int
  setFrameLevel : Bool
  codeArea : Option CodeArea
  done : Option Reason
  continueMode : Int
  deriving DecidableEq, Repr

abbrev Step (α : Type) := EarlyReturn Machine α

/-- The address after the byte at an address. -/
def following (addr : Nat) : Nat := (addr + 1) % 2^64

namespace Machine

/-- `cancel_step_mode`. -/
def cancelled (m : Machine) : Machine :=
  { m with
    mode := RM_RESUME, cnt := 0, lineCnt := 0, repeatCnt := 0, rangeStart := 0, rangeEnd := 0, frameFp := 0,
    bpAddr := 0, bpInfo := none, funcId := none, funcIdOut := none, inlined := 0, setFrameLevel := false,
    codeArea := none, continueMode := RM_RESUME }

/-- Stale data are cleared when a step begins. -/
def fresh (m : Machine) : Machine :=
  if m.cnt = 0 then
    { m with
      codeArea := none, funcId := none, funcIdOut := none, inlined := 0, frameFp := 0, setFrameLevel := false }
  else m

def Outside (m : Machine) : Prop := m.pc < m.rangeStart ∨ m.rangeEnd ≤ m.pc

instance (m : Machine) : Decidable m.Outside := inferInstanceAs (Decidable (_ ∨ _))

/-- The frame where the step begins, or the one it steps out to. -/
def enter (m : Machine) (info : StackFrame) : Machine :=
  { m with
    funcId := info.funcId.or m.funcId, codeArea := m.codeArea.or info.area, inlined := info.inlined,
    frameFp := info.fp, setFrameLevel := true }

def range (m : Machine) (rangeStart rangeEnd : Nat) : Machine := { m with rangeStart, rangeEnd }

def finish (m : Machine) (reason : Reason) : Machine := { m with done := some reason }

def continueIn (m : Machine) (mode : Int) : Machine := { m with continueMode := mode }

/-- The step leaves an inlined function. -/
def leave (m : Machine) : Machine := { m with inlined := if 0 < m.inlined then m.inlined - 1 else m.inlined }

end Machine

/-- `do_reverse` -/
def reversed (mode : Int) : Bool :=
  mode ∈ [RM_REVERSE_STEP_OVER,RM_REVERSE_STEP_INTO,RM_REVERSE_STEP_OVER_LINE,RM_REVERSE_STEP_INTO_LINE,
    RM_REVERSE_STEP_OUT,RM_REVERSE_STEP_OVER_RANGE,RM_REVERSE_STEP_INTO_RANGE,RM_REVERSE_UNTIL_ACTIVE]

/-- Reverse steps over or into a line. -/
def ReverseLine (mode : Int) : Prop := mode = RM_REVERSE_STEP_INTO_LINE ∨ mode = RM_REVERSE_STEP_OVER_LINE

instance (mode : Int) : Decidable (ReverseLine mode) := inferInstanceAs (Decidable (_ ∨ _))

/-- Execution goes forwards: also at the end of a reverse line step. -/
def Forward (m : Machine) : Prop := reversed m.mode = false ∨ 1 < m.lineCnt

instance (m : Machine) : Decidable (Forward m) := inferInstanceAs (Decidable (_ ∨ _))

def bpMode (m : Machine) : Int := if Forward m then RM_RESUME else RM_REVERSE_RESUME

section Symbols

variable (w : World)

/-- The address and size of the function that a symbol at `ip` stands for. -/
def functionAt (ip : Nat) : Option (Nat × Nat) := do
  let sym ← w.symbolByAddr STACK_NO_FRAME ip
  let symClass ← sym.symClass
  guard (symClass = SYM_CLASS_FUNCTION)
  let size ← sym.size
  guard (size ≠ 0)
  let address ← sym.address
  pure (address,size)

def isFunctionPrologue (ip : Nat) (area : CodeArea) : Step Bool :=
  if area.startAddress ≤ ip ∧ ip < area.endAddress then
    pure (match functionAt w ip with
      | none => false
      | some (addr,_) => decide (area.startAddress ≤ addr ∧ addr < area.endAddress))
  else .stuck

/-- "__i686.get_pc_thunk.bx" -/
def thunkName : List UInt8 :=
  [95,95,105,54,56,54,46,103,101,116,95,112,99,95,116,104,117,110,107,46,98,120]

/-- The range of a function that source level stepping passes over. -/
def isHiddenFunction (ip : Nat) : Option (Nat × Nat) := do
  let sym ← w.symbolByAddr STACK_NO_FRAME ip
  let name ← sym.name
  let text ← name
  guard (text = thunkName)
  let addr ← sym.address
  pure (match sym.size with
    | none | some 0 => (ip,following ip)
    | some size => (addr,(addr + size) % 2^64))

def isWithinFunctionEpilogue (ip : Nat) : Bool :=
  match functionAt w ip with
  | none => false
  | some (addr,size) =>
    match w.addressToLine ((addr + size + (2^64 - 1)) % 2^64) ((addr + size) % 2^64) with
    | .error _ => false
    | .ok areas =>
      match areas.getLast? with
      | none => false
      | some area => decide (area.startAddress < ip ∧ ip < area.endAddress)

/-- The frame is of another function than the range, which debug information of epilogues may
make it by mistake. -/
def anomaly (n : Int) (m : Machine) : Bool :=
  match w.symbolByAddr n m.pc, w.symbolByAddr n m.rangeStart with
  | some now, some org =>
    match now.address, org.address with
    | some nowAddr, some orgAddr => decide (nowAddr ≠ orgAddr)
    | _, _ => false
  | _, _ => false

/-- Texts at two pointers; `strcmp` of NULL is undefined. -/
def sameText : Option (List UInt8) → Option (List UInt8) → Step Bool
  | none, none => pure true
  | none, some _ => pure false
  | some x, some y => pure (decide (x = y))
  | some _, none => .stuck

def isSameLine (x y : CodeArea) : Step Bool :=
  if x.startLine ≠ y.startLine then pure false
  else do
    let directory ← sameText x.directory y.directory
    if directory = true then sameText x.file y.file else pure false

end Symbols

section Frames

variable (w : World)

/-- The loop over callers: where the frame of the step will go on, or 0. -/
def findCaller (m : Machine) : Nat → Int → Step Nat
  | 0, _ => pure 0
  | frames + 1, n =>
    match w.prevFrame n with
    | .error error => if w.errorCode error = ERR_CACHE_MISS then .failed error m else pure 0
    | .ok n => do
      let info ← EarlyReturn.ask (w.frameInfo n) m
      if m.frameFp = info.fp then EarlyReturn.ask (w.pcOf n) m else findCaller m frames n

/-- Steps that start in the current frame. -/
def beginInFrame (m : Machine) (n : Int) : Step (Machine × Nat) := do
  let info ← EarlyReturn.ask (w.frameInfo (n + m.frameLevel)) m
  pure (m.enter info,0)

/-- The frame is not the one of the step: it goes on where that one is returned to. -/
def runToCaller (m : Machine) (n : Int) : Step (Machine × Nat) := do
  let bp ← findCaller w m RC_STEP_MAX_STACK_FRAMES n
  pure (m,bp)

def stepOverFrame (m : Machine) (n : Int) : Step (Machine × Nat) :=
  if m.cnt = 0 then beginInFrame w m n
  else if m.Outside then do
    let info ← EarlyReturn.ask (w.frameInfo n) m
    if m.frameFp ≠ info.fp then
      if m.bpInfo.isSome then .returned (m.continueIn (bpMode m))
      else if reversed m.mode && isWithinFunctionEpilogue w m.pc then .returned (m.continueIn RM_REVERSE_STEP_INTO)
      else runToCaller w m n
    else if reversed m.mode && anomaly w n m then .returned (m.continueIn RM_REVERSE_STEP_INTO)
    else pure (m,0)
  else pure (m,0)

/-- The frame that a step out returns to, and where it goes on if no line is known there. -/
def enterCaller (m : Machine) (n : Int) : Step (Machine × Option Nat) := do
  let p ← EarlyReturn.ask (w.prevFrame (n + m.frameLevel)) m
  let info ← EarlyReturn.ask (w.frameInfo (n + m.frameLevel)) m
  let m := { m with funcIdOut := info.funcId.or m.funcIdOut }
  let info ← EarlyReturn.ask (w.frameInfo p) m
  let m := m.enter info
  if info.area = none then do
    let ip ← EarlyReturn.ask (w.pcOf p) m
    pure (m,some ip)
  else pure (m,none)

def beginStepOut (m : Machine) (n : Int) : Step (Machine × Option Nat) :=
  if m.cnt = 0 then enterCaller w m n else pure (m,none)

def stepOutFrame (m : Machine) (n : Int) : Step (Machine × Nat) := do
  let (m,ip) ← beginStepOut w m n
  match ip with
  | some ip => pure (m,ip)
  | none => do
    let info ← EarlyReturn.ask (w.frameInfo n) m
    if m.frameFp ≠ info.fp then
      if m.bpInfo.isSome then .returned (m.continueIn (bpMode m)) else runToCaller w m n
    else pure (m,0)

def overModes : List Int :=
  [RM_STEP_OVER,RM_STEP_OVER_RANGE,RM_STEP_OVER_LINE,RM_REVERSE_STEP_OVER,RM_REVERSE_STEP_OVER_RANGE,
    RM_REVERSE_STEP_OVER_LINE,RM_SKIP_PROLOGUE]

/-- The first switch over the mode, with the address to run to, or 0. -/
def frameSwitch (m : Machine) (n : Int) : Step (Machine × Nat) :=
  if m.mode = RM_STEP_INTO_LINE ∨ m.mode = RM_REVERSE_STEP_INTO_LINE then
    if m.cnt = 0 then beginInFrame w m n else pure (m,0)
  else if m.mode ∈ overModes then stepOverFrame w m n
  else if m.mode = RM_STEP_OUT ∨ m.mode = RM_REVERSE_STEP_OUT then stepOutFrame w m n
  else pure (m,0)

/-- Running to the address where the frame of the step goes on. -/
def runTo (m : Machine) (bp : Nat) : Step Machine :=
  if bp ≠ 0 then
    let bp := if Forward m then bp else bp - 1
    let m := m.continueIn (bpMode m)
    .returned (if m.bpInfo = none ∨ m.bpAddr ≠ bp then { m with bpInfo := some (w.eventpoint bp), bpAddr := bp } else m)
  else pure { m with bpInfo := none }

end Frames

section Update

variable (b : Build) (t : Target) (ctx : Address) (w : World)

/-- `context_can_resume(ctx, ext->step_continue_mode = mode)`, and the return where it can. -/
def tryMode (m : Machine) (mode : Int) : Step Machine :=
  if t.canResume ctx mode = true then .returned (m.continueIn mode) else pure (m.continueIn mode)

/-- Equality of two things that may be unknown. -/
def alike [DecidableEq α] : Option α → Option α → Bool
  | some x, some y => decide (x = y)
  | none, none => true
  | _, _ => false

/-- The step is in an inlined function of its frame. -/
def stepInlined (m : Machine) (info tgt : StackFrame) : Step Machine :=
  let sameLine := alike (tgt.area.map CodeArea.startLine) (m.codeArea.map CodeArea.startLine)
  let sameFunc := alike tgt.funcId m.funcId
  if m.mode = RM_STEP_INTO_LINE ∨ m.mode = RM_REVERSE_STEP_INTO_LINE then
    if m.inlined < info.inlined then
      .returned ((if sameLine then { m with inlined := m.inlined + 1 } else m).finish .step)
    else if sameFunc = false then .returned (m.leave.finish .step)
    else pure m
  else if m.mode = RM_STEP_OVER_LINE ∨ m.mode = RM_REVERSE_STEP_OVER_LINE then
    if sameFunc = false then .returned (m.leave.finish .step)
    else if m.inlined < info.inlined ∧ sameLine = false then .returned (m.finish .step)
    else pure m
  else if m.mode = RM_STEP_OUT ∨ m.mode = RM_REVERSE_STEP_OUT then
    if m.inlined < info.inlined ∧ m.inlined = info.inlined - 1 ∧ m.funcIdOut ≠ none ∧ info.funcId ≠ m.funcIdOut then
      .returned (m.finish .step)
    else if sameFunc = false then .returned (m.leave.finish .step)
    else if m.inlined < info.inlined ∧ sameLine = false then .returned (m.finish .step)
    else if m.inlined < info.inlined then
      if Forward m then do
        let m ← tryMode t ctx m RM_STEP_OVER
        .returned (m.continueIn RM_STEP_INTO)
      else do
        let m ← tryMode t ctx m RM_REVERSE_STEP_OVER
        .returned (m.continueIn RM_REVERSE_STEP_INTO)
    else pure m
  else pure m

def inlinedFrame (m : Machine) : Step Machine := do
  let info ← EarlyReturn.ask (w.frameInfo STACK_TOP_FRAME) m
  if m.frameFp = info.fp ∧ m.inlined ≤ info.inlined then
    if m.inlined < info.inlined then do
      let tgt ← EarlyReturn.ask (w.frameInfo (info.inlined - m.inlined)) m
      stepInlined t ctx m info tgt
    else stepInlined t ctx m info info
  else pure m

/-- Stepping by stack frames, under `EN_STEP_OVER`. -/
def stepByFrames (m : Machine) : Step Machine :=
  if b.stepOver = true then do
    let n ← EarlyReturn.ask w.topFrame m
    let (m,bp) ← frameSwitch w m n
    let m ← runTo w m bp
    inlinedFrame t ctx w m
  else pure m

/-- The context, its PC, and the assertions before a step is looked at. -/
def checkContext (m : Machine) : Step Machine :=
  if t.hasState ctx = false ∨ m.exited = true ∨ m.pendingIntercept = true then .returned m.cancelled
  else if m.pcError ≠ 0 then
    if m.stopped = true ∧ w.errorCode m.pcError = ERR_NOT_ACTIVE then do
      let m ← tryMode t ctx m (if reversed m.mode then RM_REVERSE_UNTIL_ACTIVE else RM_UNTIL_ACTIVE)
      .failed m.pcError m
    else .failed m.pcError m
  else if m.stopped = true ∧ m.intercepted = false ∧ 0 < m.repeatCnt ∧ m.done = none then pure m.fresh
  else .stuck

/-- The line of the PC, unless the frame has told it. -/
def loadLine (m : Machine) : Step Machine :=
  if m.codeArea = none then do
    let areas ← EarlyReturn.ask (w.addressToLine m.pc (following m.pc)) m
    pure { m with codeArea := areas.head? }
  else pure m

/-- A line step begins. -/
def beginLine (m : Machine) : Step Machine := do
  let m ← loadLine w m
  match m.codeArea with
  | some area => pure (m.range area.startAddress area.endAddress)
  | none => pure (m.range m.pc (following m.pc))

/-- The step is over where it has come to another line that is no prologue; backwards, where that
line begins. -/
def leaveLine (m : Machine) (area : CodeArea) (sameLine : Bool) : Step Machine :=
  if sameLine = true then pure m
  else do
    let prologue ← isFunctionPrologue w m.pc area
    if prologue = true then pure m
    else if ¬ReverseLine m.mode ∨ (m.lineCnt = 0 ∧ m.pc = area.startAddress) ∨ 2 ≤ m.lineCnt then
      .returned (m.finish .step)
    else pure { m with lineCnt := m.lineCnt + 1 }

def nextLine (m : Machine) (old area : CodeArea) : Step Machine := do
  let m := { m with codeArea := some area }
  let sameLine ← isSameLine area old
  if sameLine = true ∧ ReverseLine m.mode ∧ 0 < m.lineCnt ∧ m.pc = area.startAddress then .returned (m.finish .step)
  else do
    let m ← leaveLine w m area sameLine
    pure (m.range (if ReverseLine m.mode ∧ 0 < m.lineCnt then following area.startAddress else area.startAddress)
      area.endAddress)

def stepLine (m : Machine) : Step Machine :=
  if m.cnt = 0 then beginLine w m
  else if m.Outside then
    match m.codeArea with
    | none => .returned (m.finish .step)
    | some old =>
      match isHiddenFunction w m.pc with
      | some (addr0,addr1) => pure (m.range addr0 addr1)
      | none => do
        let areas ← EarlyReturn.ask (w.addressToLine m.pc (following m.pc)) m
        match areas.head? with
        | some area => nextLine w m old area
        | none => do
          let plt ← EarlyReturn.ask (w.pltSection m.pc) m
          if plt = true then pure (m.range m.pc (following m.pc))
          else .returned ({ m with codeArea := none }.finish .step)
  else pure m

def skipPrologue (m : Machine) : Step Machine := do
  let areas ← EarlyReturn.ask (w.addressToLine m.pc (following m.pc)) m
  match areas.getLast? with
  | none => .returned (m.finish .userRequest)
  | some area => do
    let prologue ← isFunctionPrologue w m.pc area
    if prologue = true then pure m else .returned (m.finish .userRequest)

def stepRange (m : Machine) : Step Machine :=
  if 0 < m.cnt ∧ m.Outside then .returned (m.finish .step) else pure m

def instructionModes : List Int := [RM_STEP_INTO,RM_STEP_OVER,RM_REVERSE_STEP_INTO,RM_REVERSE_STEP_OVER]

def rangeModes : List Int :=
  [RM_STEP_INTO_RANGE,RM_STEP_OVER_RANGE,RM_REVERSE_STEP_INTO_RANGE,RM_REVERSE_STEP_OVER_RANGE]

def lineModes : List Int :=
  [RM_STEP_INTO_LINE,RM_STEP_OVER_LINE,RM_REVERSE_STEP_INTO_LINE,RM_REVERSE_STEP_OVER_LINE]

/-- A step of one instruction is a step out of a range of one byte. -/
def stepInstruction (m : Machine) : Step Machine :=
  stepRange (if m.cnt = 0 then m.range m.pc (following m.pc) else m)

/-- The second switch over the mode. -/
def modeSwitch (m : Machine) : Step Machine :=
  if m.mode = RM_RESUME ∨ m.mode = RM_REVERSE_RESUME then .returned (m.cancelled.continueIn m.mode)
  else if m.mode = RM_UNTIL_ACTIVE ∨ m.mode = RM_REVERSE_UNTIL_ACTIVE then .returned (m.finish .active)
  else if m.mode ∈ instructionModes then stepInstruction m
  else if m.mode ∈ rangeModes then stepRange m
  else if b.stepLine = true ∧ m.mode ∈ lineModes then stepLine w m
  else if b.stepLine = true ∧ b.stepOver = true ∧ m.mode = RM_SKIP_PROLOGUE then skipPrologue w m
  else if m.mode = RM_STEP_OUT ∨ m.mode = RM_REVERSE_STEP_OUT then .returned (m.finish .step)
  else .failed ERR_UNSUPPORTED m

/-- A line is stepped as a range. -/
def lineFallback : List (Int × Int) :=
  [(RM_STEP_INTO_LINE,RM_STEP_INTO_RANGE),(RM_STEP_OVER_LINE,RM_STEP_OVER_RANGE),
    (RM_REVERSE_STEP_INTO_LINE,RM_REVERSE_STEP_INTO_RANGE),(RM_REVERSE_STEP_OVER_LINE,RM_REVERSE_STEP_OVER_RANGE)]

/-- Calls are stepped into. -/
def overFallback : List (Int × Int) :=
  [(RM_STEP_OVER,RM_STEP_INTO),(RM_STEP_OVER_RANGE,RM_STEP_INTO_RANGE),(RM_REVERSE_STEP_OVER,RM_REVERSE_STEP_INTO),
    (RM_REVERSE_STEP_OVER_RANGE,RM_REVERSE_STEP_INTO_RANGE),(RM_SKIP_PROLOGUE,RM_STEP_INTO)]

/-- A range is stepped by instructions. -/
def rangeFallback : List (Int × Int) :=
  [(RM_STEP_INTO_RANGE,RM_STEP_INTO),(RM_REVERSE_STEP_INTO_RANGE,RM_REVERSE_STEP_INTO)]

def tryFallback (table : List (Int × Int)) (m : Machine) : Step Machine :=
  match table.lookup m.continueMode with
  | some mode => tryMode t ctx m mode
  | none => pure m

/-- The mode asked for, or the forward one that ends a reverse line step. -/
def tryStepMode (m : Machine) : Step Machine :=
  if 1 < m.lineCnt then
    pure (if m.mode = RM_REVERSE_STEP_INTO_LINE then m.continueIn RM_STEP_INTO_LINE
      else if m.mode = RM_REVERSE_STEP_OVER_LINE then m.continueIn RM_STEP_OVER_LINE else m)
  else if m.lineCnt = 0 then tryMode t ctx m m.mode
  else pure (m.continueIn m.mode)

/-- How the context goes on with its step. -/
def selectContinueMode (m : Machine) : Step Machine := do
  let m ← tryStepMode t ctx m
  let m ← tryFallback t ctx lineFallback m
  let m ← tryFallback t ctx overFallback m
  let m ← tryFallback t ctx rangeFallback m
  .failed ERR_UNSUPPORTED m

def updateStepMachineState (m : Machine) : Step Machine := do
  let m ← checkContext t ctx w m
  let m ← stepByFrames b t ctx w m
  let m ← modeSwitch b w m
  selectContinueMode t ctx m

/-- The loop over repeated steps. A round that reports an end takes one from the count. -/
def updateRounds : Nat → Machine → Step Machine
  | 0, _ => .stuck
  | rounds + 1, m =>
    match updateStepMachineState b t ctx w m with
    | .returned m =>
      if m.done = none then pure m
      else if 0 < m.repeatCnt - 1 then
        updateRounds rounds { m with repeatCnt := m.repeatCnt - 1, cnt := 0, lineCnt := 0, done := none }
      else pure { m with repeatCnt := m.repeatCnt - 1, pendingIntercept := true }
    | other => other

/-- The frame that clients are shown at the end of a step. -/
def showFrame (m : Machine) : Step Machine :=
  if m.pendingIntercept = true ∧ m.setFrameLevel = true then do
    let info ← EarlyReturn.ask (w.frameInfo STACK_TOP_FRAME) m
    pure (if m.frameFp ≠ info.fp then { m with frameLevel := info.inlined }
      else if m.inlined ≤ info.inlined then { m with frameLevel := info.inlined - m.inlined } else m)
  else pure m

def updateStepMachineStateInlined (m : Machine) : Step Machine := do
  let m ← updateRounds b t ctx w (m.repeatCnt.toNat + 1) m
  let m ← showFrame w m
  .returned m

end Update

/-- `event_context_stopped`: the count of stops of a step is an `int`. -/
def eventContextStopped (m : Machine) (pc : UInt64) : Step Machine :=
  let m := { m with stopped := true, pc := pc.toNat, pcError := 0 }
  if m.mode ≠ RM_RESUME then
    if m.cnt < 2^31 - 1 then pure { m with cnt := m.cnt + 1 } else .stuck
  else pure { m with done := none }

end Tcf.RunControl
