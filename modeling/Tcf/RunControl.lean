import Tcf.Base.Process
import Mathlib.Logic.Function.Basic
import Mathlib.Data.Nat.Bitwise
import Mathlib.Algebra.Order.Ring.Int

/-! Resuming contexts on request of a client: the check of the mode, the step operation that is
started, and its cancellation when the request fails. -/
namespace Tcf.RunControl

abbrev Address := Nat

/-! Resume modes. -/

def RM_RESUME : Int := 0
def RM_STEP_OVER : Int := 1
def RM_STEP_INTO : Int := 2
def RM_STEP_OVER_LINE : Int := 3
def RM_STEP_INTO_LINE : Int := 4
def RM_STEP_OUT : Int := 5
def RM_REVERSE_RESUME : Int := 6
def RM_REVERSE_STEP_OVER : Int := 7
def RM_REVERSE_STEP_INTO : Int := 8
def RM_REVERSE_STEP_OVER_LINE : Int := 9
def RM_REVERSE_STEP_INTO_LINE : Int := 10
def RM_REVERSE_STEP_OUT : Int := 11
def RM_STEP_OVER_RANGE : Int := 12
def RM_STEP_INTO_RANGE : Int := 13
def RM_REVERSE_STEP_OVER_RANGE : Int := 14
def RM_REVERSE_STEP_INTO_RANGE : Int := 15
def RM_UNTIL_ACTIVE : Int := 16
def RM_REVERSE_UNTIL_ACTIVE : Int := 17
def RM_DETACH : Int := 18
def RM_TERMINATE : Int := 19
def RM_SKIP_PROLOGUE : Int := 20
def RM_UNDEF : Int := 21

def ERR_ALREADY_EXITED : Int := 0x20000 + 11
def ERR_ALREADY_RUNNING : Int := 0x20000 + 12
def ERR_INV_CONTEXT : Int := 0x20000 + 16
def ERR_UNSUPPORTED : Int := 0x20000 + 23
def EINVAL : Int := 22

/-- `EN_STEP_OVER`, `EN_STEP_LINE`, and what the compiler makes of `1 << n`, which the language
defines where the result is an `int`. -/
structure Build where
  stepOver : Bool
  stepLine : Bool
  shl : Int → Nat
  defined : ∀ n : Nat, n < 31 → shl n = 2^n

/-- What the context module knows of the target. Children are of lower rank than their parent. -/
structure Target where
  id2ctx : List UInt8 → Option Address
  root : List Address
  children : Address → List Address
  rank : Address → Nat
  descend : ∀ p, ∀ x ∈ children p, rank x < rank p
  interceptGroup : Address → Address
  hasState : Address → Bool
  canResume : Address → Int → Bool

/-- The step operation of a context; pointers are `none` for NULL. -/
structure StepOperation where
  mode : Int
  channel : Option Address
  cnt : Int
  lineCnt : Int
  repeatCnt : Int
  rangeStart : Nat
  rangeEnd : Nat
  frameFp : Nat
  bpAddr : Nat
  bpInfo : Option Address
  funcId : Option Address
  funcIdOut : Option Address
  inlined : Int
  setFrameLevel : Int
  codeArea : Option Address
  done : Option Address
  continueMode : Int
  deriving DecidableEq, Repr

/-- The fields of a context, and of `ContextExtensionRC`, that resuming has to do with. -/
structure Context where
  exited : Bool
  pendingIntercept : Bool
  intercepted : Bool
  reverseRun : Bool
  safeSingleStep : Bool
  skipPrologue : Bool
  bpIds : List (List UInt8)
  step : StepOperation
  stepError : Option Address
  deriving DecidableEq, Repr

/-- Calls of other modules, and events that are sent. -/
inductive Effect where
  | channelLock (c : Address)
  | channelUnlock (c : Address)
  | destroyEventpoint (bp : Address)
  | released (ctx : Address)
  | resumed (ctxs : List Address)
  | postRunSafeEvents
  deriving DecidableEq, Repr

structure State where
  ctx : Address → Context
  runCtrlLockCnt : Nat
  runSafeEventsPosted : Nat
  effects : List Effect

def State.update (s : State) (x : Address) (f : Context → Context) : State :=
  { s with ctx := Function.update s.ctx x (f (s.ctx x)) }

def State.call (s : State) (effects : List Effect) : State := { s with effects := s.effects ++ effects }

section Resume

variable (b : Build) (t : Target)

/-- The mask of a mode. -/
def bit (mode : Int) : Nat := 2^mode.toNat

/-- The modes that the target has by itself. -/
def targetModes (ctx : Address) : Nat :=
  (List.range 21).foldl (fun modes md =>
    if (md : Int) = RM_DETACH ∨ (md : Int) = RM_TERMINATE ∨ t.canResume ctx md = false then modes
    else modes ||| bit md) 0

/-- Modes made of single steps, forwards or backwards. -/
def stepModes (modes : Nat) (into intoRange instr overRange out intoLine overLine : Int) : Nat :=
  if modes &&& bit into ≠ 0 then
    let modes := modes ||| bit intoRange
    let modes := if b.stepOver then modes ||| bit instr ||| bit overRange ||| bit out else modes
    let modes := if b.stepLine then modes ||| bit intoLine else modes
    if b.stepOver && b.stepLine then modes ||| bit overLine else modes
  else modes

def getResumeModes (ctx : Address) : Nat :=
  let modes := targetModes t ctx
  if t.hasState ctx then
    let modes := stepModes b modes RM_STEP_INTO RM_STEP_INTO_RANGE RM_STEP_OVER RM_STEP_OVER_RANGE RM_STEP_OUT
      RM_STEP_INTO_LINE RM_STEP_OVER_LINE
    stepModes b modes RM_REVERSE_STEP_INTO RM_REVERSE_STEP_INTO_RANGE RM_REVERSE_STEP_OVER RM_REVERSE_STEP_OVER_RANGE
      RM_REVERSE_STEP_OUT RM_REVERSE_STEP_INTO_LINE RM_REVERSE_STEP_OVER_LINE
  else modes &&& (bit RM_RESUME ||| bit RM_REVERSE_RESUME)

/-- What `cancel_step_mode` leaves. -/
def StepOperation.cancelled (step : StepOperation) : StepOperation :=
  ⟨RM_RESUME,none,0,0,0,0,0,0,0,none,none,none,0,0,none,step.done,RM_RESUME⟩

def cancelStepMode (s : State) (ctx : Address) : State :=
  let step := (s.ctx ctx).step
  (s.call ((step.channel.toList.map .channelUnlock) ++ (step.bpInfo.toList.map .destroyEventpoint))).update ctx
    fun x => { x with step := step.cancelled }

/-- Nobody waits for the end of these. -/
def stepClient (c : Address) (mode : Int) : Option Address :=
  if mode = RM_RESUME ∨ mode = RM_REVERSE_RESUME ∨ mode = RM_TERMINATE ∨ mode = RM_DETACH then none else some c

def startStepMode (s : State) (ctx c : Address) (mode cnt : Int) (rangeStart rangeEnd : Nat) : Code State := do
  let s := (cancelStepMode s ctx).update ctx ({ · with stepError := none })
  require ((s.ctx ctx).step.channel = none)
  let channel := stepClient c mode
  let s := s.call (channel.toList.map .channelLock)
  let step := (s.ctx ctx).step
  let step := { step with channel, mode, rangeStart, rangeEnd, done := none, repeatCnt := cnt }
  pure (s.update ctx ({ · with step }))

def notifyContextReleased (s : State) (ctx : Address) : Code State := do
  require ((s.ctx ctx).intercepted = true)
  pure ((s.update ctx ({ · with intercepted := false, skipPrologue := false, bpIds := [] })).call [.released ctx])

/-- A round of the loop of `send_event_context_resumed`. -/
def releaseMember (grp : Address) (st : State × List Address) (ctx : Address) : Code (State × List Address) :=
  if (st.1.ctx ctx).intercepted = true ∧ t.interceptGroup ctx = grp then do
    require ((st.1.ctx ctx).pendingIntercept = false)
    require ((st.1.ctx ctx).safeSingleStep = false)
    let s ← notifyContextReleased st.1 ctx
    pure (s,st.2 ++ [ctx])
  else pure st

def sendEventContextResumed (s : State) (grp : Address) : Code State := do
  let (s,resumed) ← t.root.foldlM (releaseMember t grp) (s,[])
  pure (if resumed = [] then s else s.call [.resumed resumed])

def postRunSafeEvents (s : State) : State :=
  if s.runCtrlLockCnt = 0 ∧ s.runSafeEventsPosted < 4 then
    { s with runSafeEventsPosted := s.runSafeEventsPosted + 1 }.call [.postRunSafeEvents]
  else s

def resumeContextTree : Nat → State → Address → Code State
  | 0, _, _ => .error .stuck
  | depth + 1, s, ctx =>
    if t.hasState ctx = false then
      (t.children ctx).foldlM (fun s x => if (s.ctx x).exited = false then resumeContextTree depth s x else pure s) s
    else if (s.ctx ctx).intercepted = true then do
      let s ← sendEventContextResumed t s (t.interceptGroup ctx)
      require ((s.ctx ctx).intercepted = false)
      pure (postRunSafeEvents s)
    else pure s

def reverseModes : List Int :=
  [RM_REVERSE_RESUME,RM_REVERSE_STEP_OVER,RM_REVERSE_STEP_INTO,RM_REVERSE_STEP_OVER_LINE,RM_REVERSE_STEP_INTO_LINE,
    RM_REVERSE_STEP_OUT,RM_REVERSE_STEP_OVER_RANGE,RM_REVERSE_STEP_INTO_RANGE,RM_REVERSE_UNTIL_ACTIVE]

/-- The error that the checks of `continue_debug_context` find, or 0. -/
def resumeError (s : State) (ctx : Address) (count : Int) : Int :=
  if (s.ctx ctx).exited = true then ERR_ALREADY_EXITED
  else if t.hasState ctx = true ∧ (s.ctx ctx).intercepted = false then ERR_ALREADY_RUNNING
  else if count < 1 then EINVAL
  else 0

/-- The step operation is started before the checks. -/
def beginStep (s : State) (ctx c : Address) (mode count : Int) (rangeStart rangeEnd : Nat) : Code State :=
  if t.hasState ctx = true then startStepMode s ctx c mode count rangeStart rangeEnd else pure s

/-- Returns `errno` when the result is -1, and 0 otherwise. -/
def continueDebugContext (s : State) (ctx c : Address) (mode count : Int) (rangeStart rangeEnd : Nat) :
    Code (Int × State) := do
  let s := s.update (t.interceptGroup ctx) ({ · with reverseRun := decide (mode ∈ reverseModes) })
  let s ← beginStep t s ctx c mode count rangeStart rangeEnd
  let err := resumeError t s ctx count
  if err ≠ 0 then pure (err,cancelStepMode s ctx)
  else do
    let s ← resumeContextTree t (t.rank ctx + 1) s ctx
    require ((s.ctx ctx).intercepted = false)
    pure (0,s)

/-- Members of the parameters, as `resume_params_callback` reads them. -/
inductive Param where
  | rangeStart (n : Nat)
  | rangeEnd (n : Nat)
  | other
  deriving DecidableEq, Repr

structure ResumeParams where
  rangeStart : Nat := 0
  rangeEnd : Nat := 0
  error : Int := 0

def resumeParamsCallback (args : ResumeParams) : Param → ResumeParams
  | .rangeStart n => { args with rangeStart := n % 2^64 }
  | .rangeEnd n => { args with rangeEnd := n % 2^64 }
  | .other => { args with error := ERR_UNSUPPORTED }

/-- `(int)` of a `long` -/
def toInt (n : Int) : Int := Int.bmod n (2^32)

/-- The arguments of a command, with the numbers as they are sent. -/
structure Request where
  id : List UInt8
  mode : Int
  count : Int
  params : List Param

/-- The first check that fails, or the context. -/
def resumeTarget (r : Request) : Except Int Address :=
  let args := r.params.foldl resumeParamsCallback {}
  if args.error ≠ 0 then .error args.error
  else match t.id2ctx r.id with
    | none => .error ERR_INV_CONTEXT
    | some ctx =>
      if toInt r.mode ≥ RM_UNDEF ∨ getResumeModes b t ctx &&& b.shl (toInt r.mode) = 0 then .error EINVAL
      else .ok ctx

/-- Returns the error of the reply. -/
def commandResume (s : State) (c : Address) (r : Request) : Code (Int × State) :=
  let args := r.params.foldl resumeParamsCallback {}
  match resumeTarget b t r with
  | .error err => pure (err,s)
  | .ok ctx => continueDebugContext t s ctx c (toInt r.mode) (toInt r.count) args.rangeStart args.rangeEnd

end Resume

end Tcf.RunControl
