import Tcf.Base.ByteNumbers
import Mathlib.Data.List.Basic

/-! Stack tracing of a stopped context: frames are walked with symbols, or crawled without them, and a trace that met a cache miss
is continued by the next call. -/
namespace Tcf.StackTrace

open ByteNumbers

abbrev Address := UInt64

/-- Where a register is in the data of a frame. -/
structure RegisterDefinition where
  offset : Nat
  size : Nat
  bigEndian : Bool
  dwarfId : Int
  deriving DecidableEq, Repr

/-- Bytes of registers, where they are known. -/
abbrev RegisterData := Nat → Option UInt8

/-- A `CodeArea` and a symbol ID are copied as they are, and an expression is only evaluated. -/
abbrev CodeArea := Nat
abbrev SymbolId := Nat
abbrev Expression := Nat

structure StackFrame where
  frame : Nat
  isTopFrame : Bool
  isWalked : Bool
  hasRegData : Bool
  inlined : Nat
  area : Option CodeArea
  funcId : Option SymbolId
  fp : Address
  regs : Option RegisterData

structure InlinedSubroutine where
  area : CodeArea
  funcId : SymbolId

structure StackTracingInfo where
  fp : Expression
  regs : List (Option RegisterDefinition × Expression)
  subs : List InlinedSubroutine

/-- What `crawl_stack_frame` makes of a frame and its next one. -/
structure Crawled where
  fp : Address
  hasRegData : Bool
  regs : Option RegisterData

/-- The context and its symbols, as they are without cache misses; none is an error. An evaluated expression is its stack. -/
structure Target where
  defs : List RegisterDefinition
  pc : Option RegisterDefinition
  contextReadReg : RegisterDefinition → Option (List UInt8)
  tracingInfo : Address → Option (Option StackTracingInfo)
  evaluate : Expression → StackFrame → Option (List Address)
  crawl : StackFrame → Option Crawled

/-- Accesses that miss during one call, by the number of their frame. What a crawl does that met a miss is up to it. -/
structure Misses where
  pc : Bool
  info : Nat → Bool
  fp : Nat → Bool
  copy : RegisterDefinition → Bool
  saved : Nat → Nat → Bool
  crawl : Nat → Option (Option Crawled)
  compare : RegisterDefinition → Bool

def Misses.none : Misses := ⟨false,fun _ => false,fun _ => false,fun _ => false,fun _ _ => false,fun _ => .none,fun _ => false⟩

/-- `missed` is `cache_miss_count() > 0`. -/
structure Stack where
  complete : Bool
  frames : List StackFrame
  missed : Bool

def StackFrame.zero : StackFrame := ⟨0,false,false,false,0,none,none,0,none⟩

def Stack.empty : Stack := ⟨false,[],false⟩

def Stack.miss (s : Stack) (missed : Bool) : Stack := { s with missed := s.missed || missed }

def Stack.setFrame (s : Stack) (i : Nat) (frame : StackFrame) : Stack := { s with frames := s.frames.set i frame }

section Registers

/-- The flag is that the access missed. -/
def readRegBytes (t : Target) (misses : Bool) (frame : StackFrame) (def_ : RegisterDefinition) : Option (List UInt8) × Bool :=
  if frame.isTopFrame then if misses then (none,true) else (t.contextReadReg def_,false)
  else (frame.regs.bind fun data => (List.range def_.size).mapM fun i => data (def_.offset + i),false)

def readRegValue (t : Target) (misses : Bool) (frame : StackFrame) (def_ : Option RegisterDefinition) : Option Address × Bool :=
  match def_ with
  | none => (none,false)
  | some def_ =>
    if def_.size > 8 then (none,false)
    else
      let (bytes,missed) := readRegBytes t misses frame def_
      (bytes.map fun bytes => UInt64.ofNat (valueOf def_.bigEndian bytes),missed)

/-- Only for frames below the top one. -/
def writeRegBytes (frame : StackFrame) (def_ : RegisterDefinition) (bytes : List UInt8) : StackFrame :=
  { frame with
    regs := some fun i => if def_.offset ≤ i ∧ i < def_.offset + def_.size then bytes[i - def_.offset]?
      else frame.regs.bind fun data => data i }

def writeRegValue (frame : StackFrame) (def_ : Option RegisterDefinition) (value : Address) : Option StackFrame :=
  match def_ with
  | none => none
  | some def_ =>
    if def_.size > 8 then none
    else some { writeRegBytes frame def_ (bytesOf def_.bigEndian def_.size value.toNat) with hasRegData := true }

end Registers

def addFrame (s : Stack) (frame : StackFrame) : Stack :=
  { s with frames := s.frames ++ [{ frame with frame := s.frames.length }] }

def freeFrame (frame : StackFrame) : StackFrame := { frame with area := none, funcId := none, regs := none }

/-- Registers of the frame above an inlined one, with the flag of a miss. -/
def copyRegs (t : Target) (m : Misses) (prev : StackFrame) : List RegisterDefinition → StackFrame → StackFrame × Bool
  | [], down => (down,false)
  | def_ :: rest, down =>
    if def_.dwarfId < 0 then copyRegs t m prev rest down
    else
      let (bytes,missed) := readRegBytes t (m.copy def_) prev def_
      let (down,later) := copyRegs t m prev rest (match bytes with
        | some bytes => { writeRegBytes down def_ bytes with hasRegData := true }
        | none => down)
      (down,missed || later)

/-- The loop that appends inlined frames; `subs` are those not yet done, the last one first. -/
def inlineFrames (t : Target) (m : Misses) (fp : Address) : List InlinedSubroutine → Stack → Stack
  | [], s => s
  | sub :: rest, s =>
    match s.frames[s.frames.length - 1]? with
    | none => s
    | some prev =>
      let (down,missed) := copyRegs t m prev t.defs { StackFrame.zero with fp }
      let down := { down with isWalked := true, inlined := rest.length, area := some sub.area }
      let s := (s.setFrame (s.frames.length - 1) { prev with funcId := some sub.funcId }).miss missed
      inlineFrames t m fp rest (addFrame s down)

/-- The loop over saved registers: none is an exception. A register whose expression cannot be evaluated is ignored. -/
def saveRegs (t : Target) (misses : Nat → Bool) (frame : StackFrame) :
    List (Option RegisterDefinition × Expression) → Nat → StackFrame → Option StackFrame × StackFrame × Bool
  | [], _, down => (some down,down,false)
  | (reg,e) :: rest, i, down =>
    if misses i then
      let (result,down,_) := saveRegs t misses frame rest (i + 1) down
      (result,down,true)
    else match t.evaluate e frame with
      | some [v] => match writeRegValue down reg v with
        | none => (none,down,false)
        | some down => saveRegs t misses frame rest (i + 1) down
      | _ => saveRegs t misses frame rest (i + 1) down

/-- `get_next_stack_frame` once it has tracing info, with the next frame and that it returns 0. -/
def walkFrame (t : Target) (m : Misses) (s : Stack) (i : Nat) (frame : StackFrame) (info : StackTracingInfo) :
    Stack × StackFrame × Bool :=
  if m.fp i then ((s.miss true).setFrame i { frame with fp := 0 },.zero,false)
  else match t.evaluate info.fp frame with
    | some [fp] =>
      let s := if info.subs = [] then s.setFrame i { frame with fp }
        else inlineFrames t m fp info.subs.reverse (s.setFrame i { frame with fp, inlined := info.subs.length })
      match s.frames[i]? with
      | none => (s,.zero,false)
      | some frame =>
        match saveRegs t (m.saved i) frame info.regs 0 .zero with
        | (some down,_,missed) => ((s.miss missed).setFrame i { frame with isWalked := true },down,true)
        | (none,down,missed) => ((s.miss missed).setFrame i { frame with fp := 0 },freeFrame down,false)
    | _ => (s.setFrame i { frame with fp := 0 },.zero,false)

def getNextStackFrame (t : Target) (m : Misses) (s : Stack) (i : Nat) (frame : StackFrame) : Stack × StackFrame × Bool :=
  match readRegValue t m.pc frame t.pc with
  | (none,missed) => (s.miss missed,.zero,!frame.isTopFrame)
  | (some ip,_) =>
    if m.info i then (s.miss true,.zero,false)
    else match t.tracingInfo (if frame.isTopFrame then ip else ip - 1) with
      | none => (s,.zero,false)
      | some none => (s,.zero,true)
      | some (some info) => walkFrame t m s i frame info

/-- Whether all registers are the same, with the flag of a miss. -/
def sameRegs (t : Target) (m : Misses) (frame down : StackFrame) : List RegisterDefinition → Bool × Bool
  | [] => (true,false)
  | def_ :: rest =>
    let (f0,missed) := readRegBytes t (m.compare def_) frame def_
    let (f1,_) := readRegBytes t false down def_
    if f0 ≠ f1 then (false,missed)
    else
      let (equ,later) := sameRegs t m frame down rest
      (equ,missed || later)

/-- The rest of the loop in `trace_stack`, with whether it goes on. -/
def appendFrame (t : Target) (m : Misses) (s : Stack) (frame down : StackFrame) : Stack × Bool :=
  if down.hasRegData = false then ({ s with complete := true },false)
  else if 1 < s.frames.length ∧ s.frames[s.frames.length - 2]?.map StackFrame.fp = some frame.fp then
    let (equ,missed) := sameRegs t m frame down t.defs
    let s := s.miss missed
    if equ then ({ s with complete := true },false) else (addFrame s down,true)
  else (addFrame s down,true)

/-- `crawl_stack_frame`, with the flag of a miss. -/
def crawlStackFrame (t : Target) (m : Misses) (i : Nat) (frame : StackFrame) : Option Crawled × Bool :=
  match m.crawl i with
  | some outcome => (outcome,true)
  | none => (t.crawl frame,false)

/-- One turn of the loop in `trace_stack`. -/
def traceFrame (t : Target) (m : Misses) (s : Stack) : Stack × Bool :=
  let i := s.frames.length - 1
  match s.frames[i]? with
  | none => (s,false)
  | some frame =>
    let (s,down,ok) := getNextStackFrame t m s i frame
    if ok = false ∧ s.missed then (s,false)
    else match s.frames[i]? with
      | none => (s,false)
      | some frame =>
        if frame.isWalked then appendFrame t m s frame down
        else
          let (crawled,missed) := crawlStackFrame t m i frame
          let s := s.miss missed
          match crawled with
          | none => if s.missed then (s,false) else ({ s with complete := true },false)
          | some c =>
            let frame := { frame with fp := c.fp }
            appendFrame t m (s.setFrame i frame) frame { StackFrame.zero with regs := c.regs, hasRegData := c.hasRegData }

/-- The loop, for a number of turns. -/
def traceFrames (t : Target) (m : Misses) (maxFrames : Nat) : Nat → Stack → Stack
  | 0, s => s
  | n + 1, s =>
    if s.frames.length < maxFrames then
      match traceFrame t m s with
      | (s,true) => traceFrames t m maxFrames n s
      | (s,false) => s
    else s

/-- A turn that goes on adds a frame, so there are enough turns. -/
def traceStack (t : Target) (m : Misses) (maxFrames : Nat) (s : Stack) : Stack :=
  traceFrames t m maxFrames maxFrames (if s.frames = [] then addFrame s { StackFrame.zero with isTopFrame := true } else s)

/-- The flag is that it does not return NULL. -/
def createStackTrace (t : Target) (m : Misses) (maxFrames : Nat) (s : Stack) : Stack × Bool :=
  let s := { s with missed := false }
  if s.complete = false ∧ s.frames.length < maxFrames + 1 then
    let s := traceStack t m (maxFrames + 1) s
    (s,!s.missed)
  else (s,true)

/-- Calls one after another. -/
def retries (t : Target) (maxFrames : Nat) (s : Stack) (calls : List Misses) : Stack :=
  calls.foldl (fun s m => (createStackTrace t m maxFrames s).1) s

end Tcf.StackTrace
