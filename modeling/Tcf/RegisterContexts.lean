import Tcf.RegisterLists
import Tcf.StackTraceOrder

/-! Contexts with registers and stack traces, as the commands of the registers service find them. -/
namespace Tcf.RegisterLists

open StackTrace (RegisterDefinition StackFrame Stack)

/-- An error number, which is never 0. -/
abbrev Errno := {err : Int // 0 < err}

def STACK_TOP_FRAME : Int := -1

/-- The frames of a context between calls of `create_stack_trace` without cache misses, and `frame_max`. -/
structure Trace where
  stack : Stack
  frameMax : Nat
  hits : stack.missed = false

structure State (κ : Type) where
  regs : κ → Nat → UInt8
  traces : κ → Trace

/-- A pointer into the frames of a context. `frame_max` was other in each block that they were in. -/
structure FramePtr (κ : Type) where
  ctx : κ
  frameMax : Nat
  index : Nat

/-- Contexts as a system has them. `symbols` is what traces of their stacks go by. `accessError` is that of an access to some
bytes of the registers: all of the registers may be lost, or bytes that the system does not give. -/
structure Contexts (κ δ : Type) where
  id2register : Text → Except Errno (Register κ δ)
  exited : κ → Bool
  stopped : κ → Bool
  hasState : κ → Bool
  regAccess : κ → UInt32
  definition : δ → RegisterDefinition
  symbols : κ → StackTrace.Target
  accessError : κ → Nat → Nat → Option Errno
  size_lt : ∀ regDef, (definition regDef).size < 2 ^ 16
  accessError_part : ∀ {ctx i n j m}, i ≤ j → j + m ≤ i + n → accessError ctx i n = none → accessError ctx j m = none

section Registers

variable {κ δ : Type} (c : Contexts κ δ)

/-- `context_read_reg` -/
def contextReadReg (ctx : κ) (regDef : RegisterDefinition) (offs size : Nat) (s : State κ) : Except Int (List UInt8) :=
  match c.accessError ctx (regDef.offset + offs) size with
  | some err => .error err
  | none => .ok ((List.range size).map fun i => s.regs ctx (regDef.offset + offs + i))

/-- `read_reg_bytes` -/
def readRegBytes (ctx : κ) (isTopFrame : Bool) (regs : Option StackTrace.RegisterData) (regDef : RegisterDefinition)
    (offs size : Nat) (s : State κ) : Except Int (List UInt8) :=
  if isTopFrame then contextReadReg c ctx regDef offs size s
  else
    match regs with
    | none => .error ERR_INV_CONTEXT
    | some known =>
      match (List.range size).mapM fun i => known (regDef.offset + offs + i) with
      | none => .error ERR_INV_CONTEXT
      | some value => if regDef.size < (UInt32.ofNat offs + UInt32.ofNat size).toNat then .error ERR_INV_DATA_SIZE else .ok value

variable [DecidableEq κ]

/-- Bytes of the registers of a context are written. -/
def State.write (s : State κ) (ctx : κ) (pos : Nat) (data : List UInt8) : State κ :=
  { s with regs := fun other i =>
      if other = ctx ∧ pos ≤ i ∧ i < pos + data.length then data.getD (i - pos) 0 else s.regs other i }

/-- `context_write_reg` -/
def contextWriteReg (ctx : κ) (regDef : RegisterDefinition) (offs : Nat) (data : List UInt8) (s : State κ) : Option Int × State κ :=
  match c.accessError ctx (regDef.offset + offs) data.length with
  | some err => (some err,s)
  | none => (none,s.write ctx (regDef.offset + offs) data)

end Registers

section Frames

variable {κ δ : Type} (c : Contexts κ δ)

/-- What a trace of the stack of a context goes by: registers of the top frame are read from the context. -/
def tracing (ctx : κ) (s : State κ) : StackTrace.Target :=
  { c.symbols ctx with contextReadReg := fun d => (contextReadReg c ctx d 0 d.size s).toOption }

/-- `add_frame` makes a new block when the frames fill the old one. -/
def frameMaxAfter (frameMax : Nat) (added : List Nat) : Nat :=
  added.foldl (fun frameMax frameCnt => if frameCnt ≥ frameMax then frameMax + 32 else frameMax) frameMax

/-- `create_stack_trace` -/
def Trace.extend (trace : Trace) (ctx : κ) (s : State κ) (maxFrames : Nat) : Trace where
  stack := (StackTrace.createStackTrace (tracing c ctx s) .none maxFrames trace.stack).1
  frameMax := frameMaxAfter trace.frameMax (List.range' trace.stack.frames.length
    ((StackTrace.createStackTrace (tracing c ctx s) .none maxFrames trace.stack).1.frames.length - trace.stack.frames.length))
  hits := (StackTrace.createStackTrace_traced trace.hits maxFrames).2.2

variable [DecidableEq κ]

def State.traced (s : State κ) (ctx : κ) (maxFrames : Nat) : State κ :=
  { s with traces := fun other => if other = ctx then (s.traces ctx).extend c ctx s maxFrames else s.traces other }

/-- `get_frame_info` for a frame with a number. -/
def getFrameInfo (ctx : κ) (frame : Int) (s : State κ) : Except Int (FramePtr κ) × State κ :=
  if c.hasState ctx = false then (.error ERR_INV_CONTEXT,s)
  else if c.stopped ctx = false then (.error ERR_IS_RUNNING,s)
  else
    let s := s.traced c ctx (frame + 1).toNat
    let trace := s.traces ctx
    if frame < 0 ∨ frame ≥ trace.stack.frames.length then (.error ERR_INV_CONTEXT,s)
    else (.ok ⟨ctx,trace.frameMax,frame.toNat⟩,s)

/-- Bytes of a frame. 0 is no error number: it stands for the use of a block that is no longer there. -/
def readFrame (info : FramePtr κ) (regDef : RegisterDefinition) (offs size : Nat) (s : State κ) : Except Int (List UInt8) :=
  if (s.traces info.ctx).frameMax ≠ info.frameMax then .error 0
  else
    match (s.traces info.ctx).stack.frames[info.index]? with
    | none => .error 0
    | some frame => readRegBytes c info.ctx frame.isTopFrame frame.regs regDef offs size s

def Contexts.world : World κ δ (FramePtr κ) (State κ) where
  id2register id := match c.id2register id with
    | .error err => .error err
    | .ok reg => .ok reg
  exited := c.exited
  stopped := c.stopped
  hasState := c.hasState
  regAccess := c.regAccess
  regSize d := (c.definition d).size
  isTopFrame _ frame := frame = 0 ∨ frame = STACK_TOP_FRAME
  getFrameInfo := getFrameInfo c
  contextReadReg ctx d := contextReadReg c ctx (c.definition d)
  readRegBytes info d := readFrame c info (c.definition d)
  contextWriteReg ctx d := contextWriteReg c ctx (c.definition d)
  regSize_lt := c.size_lt

end Frames

end Tcf.RegisterLists
