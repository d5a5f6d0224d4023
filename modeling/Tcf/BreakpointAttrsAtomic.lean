import Tcf.BreakpointAttrs

/-! When a call that raises an exception leaves breakpoints, their attributes and fields, and events as they were. -/
namespace Tcf.BreakpointAttrs

open Json Framing

section Parse

/-- The field that an attribute stands for, if its value is well typed. -/
def decode (f : Field) (value : Text) : Code Value := do
  let read ← f.read (valueInput value)
  testEos read.2
  pure read.1

def WellTyped (a : Attr) : Prop := ∀ f, fieldOf a.name = some f → ∃ x, decode f a.value = .ok x

theorem parse_cases (f : Field) (value : Text) (fields : Fields) :
    (∃ x, decode f value = .ok x ∧ parse f value fields = (Function.update fields f (some x),.returns)) ∨
    ((¬∃ x, decode f value = .ok x) ∧ (parse f value fields).2 = .raises) := by
  simp only [decode,parse]
  cases f.read (valueInput value) with
  | error stop =>
    right
    constructor
    · rintro ⟨x,run⟩
      cases run
    · rfl
  | ok read =>
    simp only [Code.ok_bind]
    cases testEos read.2 with
    | error stop =>
      right
      constructor
      · rintro ⟨x,run⟩
        cases run
      · rfl
    | ok _ => exact .inl ⟨read.1,rfl,rfl⟩

theorem applyChanged_cases (a : Attr) (s : Applying) :
    (WellTyped a ∧ (applyChanged a s).2 = .returns) ∨ (¬WellTyped a ∧ (applyChanged a s).2 = .raises) := by
  cases known : fieldOf a.name with
  | none =>
    left
    simp [WellTyped,applyChanged,known]
  | some f =>
    simp only [WellTyped,applyChanged,known,Option.some.injEq,forall_eq']
    rcases parse_cases f a.value s.fields with ⟨x,typed,run⟩ | ⟨wrong,run⟩
    · left
      exact ⟨⟨x,typed⟩,by rw [run]⟩
    · exact .inr ⟨wrong,run⟩

@[simp] theorem applyChanged_attrs (a : Attr) (s : Applying) : (applyChanged a s).1.attrs = s.attrs ++ [a] := by
  simp only [applyChanged]
  cases fieldOf a.name <;> rfl

@[simp] theorem applyChanged_old (a : Attr) (s : Applying) : (applyChanged a s).1.old = s.old := by
  simp only [applyChanged]
  cases fieldOf a.name <;> rfl

end Parse

section Apply

variable {a : Attr} {s : Applying} {old new : List Attr}

/-- The old attributes that are left when one of a name was taken. -/
def others (name : Text) (old : List Attr) : List Attr := old.eraseP fun a => a.name = name

/-- The first old attribute of the name is the same. -/
def Kept (a : Attr) (old : List Attr) : Prop := old.find? (fun b => b.name = a.name) = some a

theorem takeNamed_eq (name : Text) (old : List Attr) :
    takeNamed name old = (old.find? fun a => a.name = name).map fun a => (a,others name old) := by
  induction old with
  | nil => rfl
  | cons b rest ih =>
    simp only [takeNamed,others,List.find?_cons,List.eraseP_cons]
    by_cases same : b.name = name
    · simp [same]
    · simp [same,ih,others,Function.comp_def]

/-- One round keeps an old attribute, or parses the new one. -/
theorem applyNew_cases (a : Attr) (s : Applying) :
    (Kept a s.old ∧ applyNew a s = ({ s with attrs := s.attrs ++ [a], old := others a.name s.old },.returns)) ∨
    (¬Kept a s.old ∧ applyNew a s = applyChanged a { s with old := others a.name s.old }) := by
  simp only [applyNew,takeNamed_eq,Kept]
  cases found : s.old.find? (fun b => b.name = a.name) with
  | none =>
    right
    have gone : others a.name s.old = s.old := List.eraseP_of_forall_not fun b mem => by simpa using List.find?_eq_none.mp found b mem
    simp [gone]
  | some b =>
    have name : b.name = a.name := by simpa using List.find?_some found
    by_cases same : b.value = a.value
    · obtain rfl : b = a := by
        cases a
        cases b
        simp_all
      left
      simp
    · right
      have differs : b ≠ a := fun equal => same (by rw [equal])
      simp [same,differs]

@[simp] theorem applyNew_attrs (a : Attr) (s : Applying) : (applyNew a s).1.attrs = s.attrs ++ [a] := by
  rcases applyNew_cases a s with ⟨-,run⟩ | ⟨-,run⟩ <;> simp [run]

@[simp] theorem applyNew_old (a : Attr) (s : Applying) : (applyNew a s).1.old = others a.name s.old := by
  rcases applyNew_cases a s with ⟨-,run⟩ | ⟨-,run⟩ <;> simp [run]

/-- Attributes that are not kept are well typed. -/
def Clean : List Attr → List Attr → Prop
  | _, [] => True
  | old, a :: new => (Kept a old ∨ WellTyped a) ∧ Clean (others a.name old) new

theorem applyNew_returns (a : Attr) (s : Applying) :
    ((Kept a s.old ∨ WellTyped a) ∧ (applyNew a s).2 = .returns) ∨
    (¬(Kept a s.old ∨ WellTyped a) ∧ (applyNew a s).2 = .raises) := by
  rcases applyNew_cases a s with ⟨kept,run⟩ | ⟨other,run⟩
  · left
    exact ⟨.inl kept,by rw [run]⟩
  · rw [run]
    rcases applyChanged_cases a { s with old := others a.name s.old } with ⟨typed,returns⟩ | ⟨wrong,raises⟩
    · exact .inl ⟨.inr typed,returns⟩
    · exact .inr ⟨fun either => either.elim other wrong,raises⟩

theorem applyAll_cases (new : List Attr) (s : Applying) :
    (Clean s.old new ∧ (applyAll new s).2 = .returns) ∨ (¬Clean s.old new ∧ (applyAll new s).2 = .raises) := by
  induction new generalizing s with
  | nil => exact .inl ⟨trivial,rfl⟩
  | cons a new ih =>
    simp only [applyAll,Clean]
    rcases applyNew_returns a s with ⟨fine,returns⟩ | ⟨wrong,raises⟩
    · rw [if_pos returns]
      have later := ih (applyNew a s).1
      rw [applyNew_old] at later
      rcases later with ⟨clean,run⟩ | ⟨dirty,run⟩
      · exact .inl ⟨⟨fine,clean⟩,run⟩
      · exact .inr ⟨fun both => dirty both.2,run⟩
    · have stops : ¬(applyNew a s).2 = .returns := by simp [raises]
      rw [if_neg stops]
      exact .inr ⟨fun both => wrong both.1,raises⟩

theorem applyAll_prefix (new : List Attr) (s : Applying) : ∃ more, (applyAll new s).1.attrs = s.attrs ++ more := by
  induction new generalizing s with
  | nil => exact ⟨[],by simp [applyAll]⟩
  | cons a new ih =>
    simp only [applyAll]
    by_cases returns : (applyNew a s).2 = .returns
    · obtain ⟨more,run⟩ := ih (applyNew a s).1
      rw [if_pos returns]
      exact ⟨a :: more,by simp [run]⟩
    · rw [if_neg returns]
      exact ⟨[a],by simp⟩

/-- Where an exception is raised, the list is not the old one: its last attribute would have been kept. -/
theorem applyAll_differs (raises : (applyAll new s).2 = .raises) : (applyAll new s).1.attrs ≠ s.attrs ++ s.old := by
  induction new generalizing s with
  | nil => cases raises
  | cons a new ih =>
    intro same
    have first : ∃ rest, s.old = a :: rest := by
      have begins : ∃ later, (applyAll (a :: new) s).1.attrs = s.attrs ++ a :: later := by
        simp only [applyAll]
        split
        · obtain ⟨later,run⟩ := applyAll_prefix new (applyNew a s).1
          exact ⟨later,by simp [run]⟩
        · exact ⟨[],by simp⟩
      obtain ⟨later,begins⟩ := begins
      rw [begins] at same
      exact ⟨later,(List.append_cancel_left same).symm⟩
    obtain ⟨rest,old⟩ := first
    have kept : Kept a s.old := by simp [Kept,old]
    have left : others a.name s.old = rest := by simp [others,old]
    rcases applyNew_returns a s with ⟨-,returns⟩ | ⟨wrong,-⟩
    · simp only [applyAll,if_pos returns] at raises same
      refine ih raises ?_
      rw [same,applyNew_attrs,applyNew_old,left,old]
      simp
    · exact wrong (.inl kept)

theorem setBreakpointAttributes_cases (bp : BreakpointInfo) (new : List Attr) :
    (Clean bp.attrs new ∧ (setBreakpointAttributes bp new).2.1 = .returns) ∨
    (¬Clean bp.attrs new ∧ (setBreakpointAttributes bp new).2.1 = .raises ∧ (setBreakpointAttributes bp new).1.attrs ≠ bp.attrs) := by
  rcases applyAll_cases new ⟨bp.fields,[],bp.attrs,0⟩ with ⟨clean,run⟩ | ⟨dirty,run⟩
  · left
    simp [setBreakpointAttributes,clean,run]
  · right
    have differs := applyAll_differs run
    simp only [List.nil_append] at differs
    simp [setBreakpointAttributes,dirty,run,differs]

end Apply

section Calls

variable (hash : Text → Nat) (s : State)

/-- `create_breakpoint` adds for the channel NULL. -/
inductive Call where
  | add (c : Option Nat) (attrs : List Attr)
  | change (place : Nat) (attrs : List Attr)

def Call.run : Call → State × Outcome
  | .add c attrs => s.addBreakpoint hash c attrs
  | .change place attrs => s.changeBreakpointAttributes place attrs

/-- A call that raises an exception changes nothing and sends nothing. -/
def Call.Atomic (call : Call) : Prop := (call.run hash s).2 = .raises → (call.run hash s).1 = s

def State.attrsAt (place : Option Nat) : List Attr := ((place.bind fun i => s.breakpoints[i]?).map BreakpointInfo.attrs).getD []

/-- The ID cannot be read, or all values that are parsed after it are well typed. -/
def Call.Readable : Call → Prop
  | .add _ attrs => ∀ id, readIdAttribute attrs = .ok id → Clean (s.attrsAt (s.find hash id)) attrs
  | .change place attrs => ∀ bp, s.breakpoints[place]? = some bp → Clean bp.attrs attrs

variable {hash s} {bp : BreakpointInfo} {place : Nat} {id : Text}

theorem State.send_not_raises (event : Event) : (s.send bp event).2 ≠ .raises := by
  unfold State.send
  split <;> simp

theorem State.addRef_not_raises {c : Option Nat} {chng : Bool} : (s.addRef place bp c chng).2 ≠ .raises := by
  simp only [State.addRef]
  split
  · exact State.send_not_raises _
  · split
    · exact State.send_not_raises _
    · simp

theorem State.find_some (found : s.find hash id = some place) : ∃ bp, s.breakpoints[place]? = some bp ∧
    bp.linkedUnder.map hash = some (hash id) ∧ bp.id = some id := by
  obtain ⟨inside,this,-⟩ := List.findIdx?_eq_some_iff_getElem.mp found
  exact ⟨s.breakpoints[place],List.getElem?_eq_getElem inside,by simpa using this⟩

/-- A breakpoint with another list of attributes makes a state another one. -/
theorem State.put_ne {new : BreakpointInfo} (here : s.breakpoints[place]? = some bp) (differs : new.attrs ≠ bp.attrs) :
    s.put place new ≠ s := by
  intro same
  have after : (s.put place new).breakpoints[place]? = some new := by
    obtain ⟨inside,-⟩ := List.getElem?_eq_some_iff.mp here
    simp [State.put,inside]
  rw [same,here,Option.some.injEq] at after
  exact differs (by rw [after])

theorem addBreakpoint_atomic (c : Option Nat) (attrs : List Attr) :
    (Call.add c attrs).Atomic hash s ↔ (Call.add c attrs).Readable hash s := by
  simp only [Call.Atomic,Call.Readable,Call.run,State.addBreakpoint]
  cases readIdAttribute attrs with
  | error stop => simp
  | ok id =>
    simp only [Except.ok.injEq,forall_eq']
    cases found : s.find hash id with
    | none =>
      rcases setBreakpointAttributes_cases (newBreakpoint id) attrs with ⟨clean,returns⟩ | ⟨dirty,raises,-⟩
      · have done := @State.addRef_not_raises { s with breakpoints := s.breakpoints ++ [(setBreakpointAttributes (newBreakpoint id) attrs).1] }
        simp only [returns,if_true]
        exact ⟨fun _ => clean,fun _ raised => absurd raised (done)⟩
      · simp only [raises,reduceCtorEq,if_false,true_imp_iff]
        constructor
        · intro same
          have longer := congrArg (fun s => s.breakpoints.length) same
          simp at longer
        · intro clean
          exact absurd clean dirty
    | some place =>
      obtain ⟨bp,here,-⟩ := State.find_some found
      have attrsAt : s.attrsAt (some place) = bp.attrs := by simp [State.attrsAt,here]
      simp only [here,attrsAt]
      rcases setBreakpointAttributes_cases bp attrs with ⟨clean,returns⟩ | ⟨dirty,raises,differs⟩
      · simp only [returns,if_true]
        exact ⟨fun _ => clean,fun _ raised => absurd raised State.addRef_not_raises⟩
      · simp only [raises,reduceCtorEq,if_false,true_imp_iff]
        exact ⟨fun same => absurd same (State.put_ne here differs),fun clean => absurd clean dirty⟩

theorem changeBreakpointAttributes_atomic (place : Nat) (attrs : List Attr) :
    (Call.change place attrs).Atomic hash s ↔ (Call.change place attrs).Readable hash s := by
  simp only [Call.Atomic,Call.Readable,Call.run,State.changeBreakpointAttributes]
  cases here : s.breakpoints[place]? with
  | none => simp
  | some bp =>
    simp only [Option.some.injEq,forall_eq']
    rcases setBreakpointAttributes_cases bp attrs with ⟨clean,returns⟩ | ⟨dirty,raises,differs⟩
    · have done : ∀ x : State × Outcome, x.2 ≠ .raises → (x.2 = .raises → x.1 = s) := fun x fine raised => absurd raised fine
      refine ⟨fun _ => clean,fun _ => done _ ?_⟩
      simp only [returns]
      repeat' split
      all_goals first | exact State.send_not_raises _ | simp
    · simp only [raises,ne_eq,reduceCtorEq,not_false_eq_true,if_true,true_imp_iff]
      exact ⟨fun same => absurd same (State.put_ne here differs),fun clean => absurd clean dirty⟩

/-- Which calls are atomic. -/
theorem atomic_iff (hash : Text → Nat) (s : State) (call : Call) : call.Atomic hash s ↔ call.Readable hash s := by
  cases call with
  | add c attrs => exact addBreakpoint_atomic c attrs
  | change place attrs => exact changeBreakpointAttributes_atomic place attrs

/-- A breakpoint for a line that is no number is left behind. -/
theorem failed_call_leaves_breakpoint : ¬∀ hash s (call : Call), call.Atomic hash s := by
  intro atomic
  have same := atomic (fun _ => 0) ⟨[],[]⟩ (.add none [⟨literal "ID",literal "\"a\""⟩,⟨literal "Line",literal "true"⟩]) (by decide)
  have nothing := congrArg (fun s => s.breakpoints.length) same
  revert nothing
  decide

end Calls

end Tcf.BreakpointAttrs
