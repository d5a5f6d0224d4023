import Mathlib.Algebra.Order.Ring.Int
import Mathlib.Logic.Function.Basic
import Tcf.JsonStruct

/-! Attributes of breakpoints: lists of names and JSON texts, and the fields that are read from them. -/
namespace Tcf.BreakpointAttrs

open Json Framing

abbrev Text := List UInt8

/-- `BreakpointAttribute`. The value is a JSON text. -/
structure Attr where
  name : Text
  value : Text
  deriving DecidableEq, Repr

/-- The attributes that have fields in `BreakpointInfo`. -/
inductive Field where
  | id
  | type
  | location
  | accessMode
  | size
  | condition
  | contextIds
  | contextNames
  | contextQuery
  | stopGroup
  | temporary
  | skipPrologue
  | lineOffset
  | file
  | line
  | column
  | ignoreCount
  | enabled
  deriving DecidableEq, Repr

def Field.name : Field → Text
  | .id => literal "ID"
  | .type => literal "BreakpointType"
  | .location => literal "Location"
  | .accessMode => literal "AccessMode"
  | .size => literal "Size"
  | .condition => literal "Condition"
  | .contextIds => literal "ContextIds"
  | .contextNames => literal "ContextNames"
  | .contextQuery => literal "ContextQuery"
  | .stopGroup => literal "StopGroup"
  | .temporary => literal "Temporary"
  | .skipPrologue => literal "SkipPrologue"
  | .lineOffset => literal "LineOffset"
  | .file => literal "File"
  | .line => literal "Line"
  | .column => literal "Column"
  | .ignoreCount => literal "IgnoreCount"
  | .enabled => literal "Enabled"

/-- In the order in which a name is compared with theirs. -/
def allFields : List Field :=
  [.id,.type,.location,.accessMode,.size,.condition,.contextIds,.contextNames,.contextQuery,.stopGroup,.temporary,.skipPrologue,.lineOffset,
    .file,.line,.column,.ignoreCount,.enabled]

def fieldOf (name : Text) : Option Field := allFields.find? fun f => f.name = name

/-- What a field holds: strings are memory up to their NUL and may be NULL. The offset comes with `line_offs_check`. -/
inductive Value where
  | string (memory : Option Text)
  | strings (array : Option (List Text))
  | number (n : BitVec 32)
  | offset (limit : BitVec 32) (check : Bool)
  | flag (b : Bool)
  deriving DecidableEq, Repr

/-- The field of a breakpoint without the attribute. -/
def Field.zero : Field → Value
  | .id => .string (some [])
  | .type | .location | .condition | .contextQuery | .file => .string none
  | .contextIds | .contextNames | .stopGroup => .strings none
  | .accessMode | .size | .line | .column | .ignoreCount => .number 0
  | .lineOffset => .offset 0 false
  | .temporary | .skipPrologue | .enabled => .flag false

def readString (inp : Input) : Code (Value × Input) := do
  let read ← jsonReadAllocString inp
  pure (.string read.1,read.2)

def readStrings (inp : Input) : Code (Value × Input) := do
  let read ← jsonReadAllocStringArray inp
  pure (.strings read.1,read.2)

def readInt (inp : Input) : Code (Value × Input) := do
  let read ← jsonReadInt inp
  pure (.number read.1,read.2)

def readFlag (inp : Input) : Code (Value × Input) := do
  let read ← jsonReadBoolean inp
  pure (.flag read.1,read.2)

/-- An ID has 256 bytes. -/
def readId (inp : Input) : Code (Text × Input) := do
  let read ← jsonReadString inp (List.replicate 256 0)
  pure (upToNul read.1.1,read.2)

def Field.read : Field → Input → Code (Value × Input)
  | .id, inp => do
    let read ← readId inp
    pure (.string (some read.1),read.2)
  | .type, inp | .location, inp | .condition, inp | .contextQuery, inp | .file, inp => readString inp
  | .contextIds, inp | .contextNames, inp | .stopGroup, inp => readStrings inp
  | .accessMode, inp | .size, inp | .line, inp | .column, inp => readInt inp
  | .lineOffset, inp => do
    let read ← jsonReadInt inp
    pure (.offset read.1 true,read.2)
  | .ignoreCount, inp => do
    let read ← jsonReadUlong inp
    pure (.number (BitVec.ofNat 32 read.1),read.2)
  | .temporary, inp | .skipPrologue, inp | .enabled, inp => readFlag inp

/-- The old string is freed, or the old ID is written over, before all of the new one is read. -/
def Field.spoils : Field → Bool
  | .id | .type | .location | .condition | .contextIds | .contextNames | .contextQuery | .stopGroup | .file => true
  | _ => false

/-- A byte array input stream on a value. -/
def valueInput (value : Text) : Input := value.map .byte ++ [.eos]

/-- `json_test_char(inp, MARKER_EOS)` -/
def testEos (inp : Input) : Code Unit := do
  let read ← readToken inp
  if read.1 = .eos then pure () else .error .exception

/-- How a call ends: an assertion that does not hold ends everything. -/
inductive Outcome where
  | returns
  | raises
  | aborts
  deriving DecidableEq, Repr

/-- Each field, or `none` when it was spoiled. -/
abbrev Fields := Field → Option Value

/-- The field is read from the text of its attribute. -/
def parse (f : Field) (value : Text) (fields : Fields) : Fields × Outcome :=
  match f.read (valueInput value) with
  | .error _ => (if f.spoils then Function.update fields f none else fields,.raises)
  | .ok read => (Function.update fields f (some read.1),match testEos read.2 with
    | .error _ => .raises
    | .ok _ => .returns)

/-- The first attribute of a name, and the others. -/
def takeNamed (name : Text) : List Attr → Option (Attr × List Attr)
  | [] => none
  | a :: rest => if a.name = name then some (a,rest) else (takeNamed name rest).map fun found => (found.1,a :: found.2)

/-- Variables of `set_breakpoint_attributes`; `attrs` are those of the breakpoint. -/
structure Applying where
  fields : Fields
  attrs : List Attr
  old : List Attr
  diff : Nat

/-- An attribute that is new or has changed. -/
def applyChanged (a : Attr) (s : Applying) : Applying × Outcome :=
  match fieldOf a.name with
  | none => ({ s with attrs := s.attrs ++ [a], diff := s.diff + 1 },.returns)
  | some f =>
    let parsed := parse f a.value s.fields
    ({ s with fields := parsed.1, attrs := s.attrs ++ [a], diff := s.diff + 1 },parsed.2)

/-- One round of the first loop. -/
def applyNew (a : Attr) (s : Applying) : Applying × Outcome :=
  match takeNamed a.name s.old with
  | none => applyChanged a s
  | some found =>
    if found.1.value = a.value then ({ s with attrs := s.attrs ++ [found.1], old := found.2 },.returns)
    else applyChanged a { s with old := found.2 }

def applyAll : List Attr → Applying → Applying × Outcome
  | [], s => (s,.returns)
  | a :: new, s =>
    let step := applyNew a s
    if step.2 = .returns then applyAll new step.1 else step

/-- The second loop. -/
def resetOld (s : Applying) (a : Attr) : Applying :=
  match fieldOf a.name with
  | none => { s with diff := s.diff + 1 }
  | some f => { s with fields := Function.update s.fields f (some f.zero), diff := s.diff + 1 }

/-- `linkedUnder` is the ID by whose hash a breakpoint is linked, if it is. NULL is a client as well. -/
structure BreakpointInfo where
  linkedUnder : Option Text
  fields : Fields
  attrs : List Attr
  clients : List (Option Nat)
  attrsChanged : Bool

/-- The breakpoint, how the call ends, and the number of differences. -/
def setBreakpointAttributes (bp : BreakpointInfo) (new : List Attr) : BreakpointInfo × Outcome × Nat :=
  let applied := applyAll new ⟨bp.fields,[],bp.attrs,0⟩
  if applied.2 = .returns then
    let s := applied.1.old.foldl resetOld applied.1
    ({ bp with fields := s.fields, attrs := s.attrs },.returns,s.diff)
  else ({ bp with fields := applied.1.fields, attrs := applied.1.attrs },applied.2,0)

/-- The first attribute of a name gets a value, or there is a new one. -/
def setBreakpointAttribute (name value : Text) : List Attr → List Attr
  | [] => [⟨name,value⟩]
  | a :: rest => if a.name = name then ⟨a.name,value⟩ :: rest else a :: setBreakpointAttribute name value rest

/-- `send_event_context_added`, `send_event_context_changed` and `replant_breakpoint`. -/
inductive Event where
  | added (attrs : List Attr)
  | changed (attrs : List Attr)
  | replant (place : Nat)
  deriving DecidableEq, Repr

structure State where
  breakpoints : List BreakpointInfo
  events : List Event

/-- `bp->id` -/
def BreakpointInfo.id (bp : BreakpointInfo) : Option Text :=
  match bp.fields .id with
  | some (.string id) => id
  | _ => none

section Table

variable (hash : Text → Nat)

/-- `find_breakpoint` for the hash `hash`, by the place of the breakpoint. -/
def State.find (s : State) (id : Text) : Option Nat :=
  s.breakpoints.findIdx? fun bp => bp.linkedUnder.map hash = some (hash id) ∧ bp.id = some id

def readIdAttribute (attrs : List Attr) : Code Text :=
  match attrs.find? fun a => a.name = Field.id.name with
  | none => .error .exception
  | some a => do
    let read ← readId (valueInput a.value)
    testEos read.2
    pure read.1

/-- A breakpoint that was allocated. -/
def newBreakpoint (id : Text) : BreakpointInfo := ⟨some id,fun f => some f.zero,[],[],false⟩

def State.put (s : State) (place : Nat) (bp : BreakpointInfo) : State := { s with breakpoints := s.breakpoints.set place bp }

/-- An event about a breakpoint that has to have an ID. -/
def State.send (s : State) (bp : BreakpointInfo) (event : Event) : State × Outcome :=
  if bp.id = some [] then (s,.aborts) else ({ s with events := s.events ++ [event] },.returns)

/-- The rest of `add_breakpoint`: the reference of the channel, and the events. -/
def State.addRef (s : State) (place : Nat) (bp : BreakpointInfo) (c : Option Nat) (chng : Bool) : State × Outcome :=
  let added := bp.clients = []
  let refAdded := c ∉ bp.clients
  let bp := if refAdded then { bp with clients := bp.clients ++ [c] } else bp
  let s := s.put place bp
  let s := if chng ∨ added ∨ refAdded then { s with events := s.events ++ [.replant place] } else s
  if added then s.send bp (.added bp.attrs)
  else if chng then s.send bp (.changed bp.attrs)
  else (s,.returns)

def State.addBreakpoint (s : State) (c : Option Nat) (attrs : List Attr) : State × Outcome :=
  match readIdAttribute attrs with
  | .error _ => (s,.raises)
  | .ok id => match s.find hash id with
    | none =>
      let set := setBreakpointAttributes (newBreakpoint id) attrs
      let s := { s with breakpoints := s.breakpoints ++ [set.1] }
      if set.2.1 = .returns then s.addRef (s.breakpoints.length - 1) set.1 c false else (s,set.2.1)
    | some place => match s.breakpoints[place]? with
      | none => (s,.aborts)
      | some bp =>
        let set := setBreakpointAttributes bp attrs
        if set.2.1 = .returns then
          let chng : Bool := set.2.2 ≠ 0
          s.addRef place { set.1 with attrsChanged := set.1.attrsChanged ∨ chng } c chng
        else (s.put place set.1,set.2.1)

/-- `change_breakpoint_attributes` for the breakpoint at a place. -/
def State.changeBreakpointAttributes (s : State) (place : Nat) (attrs : List Attr) : State × Outcome :=
  match s.breakpoints[place]? with
  | none => (s,.returns)
  | some bp =>
    let set := setBreakpointAttributes bp attrs
    let s := s.put place set.1
    if set.2.1 ≠ .returns then (s,set.2.1)
    else if set.1.clients = [] then (s,.aborts)
    else if set.2.2 = 0 then (s,.returns)
    else
      let bp := { set.1 with attrsChanged := true }
      let s := s.put place bp
      let s := { s with events := s.events ++ [.replant place] }
      if bp.id = some [] then (s,.returns) else s.send bp (.changed bp.attrs)

/-- `command_enable_array_cb` and `command_disable_array_cb`, for an ID that was read. -/
def State.enable (s : State) (on : Bool) (id : Text) : State × Outcome :=
  match s.find hash id with
  | none => (s,.returns)
  | some place => match s.breakpoints[place]? with
    | none => (s,.returns)
    | some bp =>
      if bp.clients = [] ∨ bp.fields .enabled = some (.flag on) then (s,.returns)
      else
        let bp := { bp with
          fields := Function.update bp.fields .enabled (some (.flag on))
          attrs := setBreakpointAttribute Field.enabled.name (literal (if on then "true" else "false")) bp.attrs }
        let s : State := { s.put place bp with events := s.events ++ [.replant place] }
        s.send bp (.changed bp.attrs)

end Table

end Tcf.BreakpointAttrs
