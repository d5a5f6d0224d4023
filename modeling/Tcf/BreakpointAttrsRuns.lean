import Tcf.BreakpointAttrsMirror

/-! In runs of calls that change breakpoints, fields mirror attributes and breakpoints are found by their IDs. -/
namespace Tcf.BreakpointAttrs

open Json Framing

section Enabled

variable {f : Field} {fields : Fields} {attrs : List Attr}

theorem named_setBreakpointAttribute (value : Text) : named f (setBreakpointAttribute f.name value attrs) = some ⟨f.name,value⟩ := by
  induction attrs with
  | nil => simp [setBreakpointAttribute,named]
  | cons a rest ih =>
    by_cases here : a.name = f.name
    · simp [setBreakpointAttribute,named,here]
    · simp only [setBreakpointAttribute,here,if_false,named,List.find?_cons,decide_false] at ih ⊢
      exact ih

theorem named_setBreakpointAttribute_other {name : Text} (value : Text) (other : name ≠ f.name) :
    named f (setBreakpointAttribute name value attrs) = named f attrs := by
  induction attrs with
  | nil => simp [setBreakpointAttribute,named,other]
  | cons a rest ih =>
    by_cases here : a.name = name
    · simp [setBreakpointAttribute,named,here,other]
    · simp only [setBreakpointAttribute,if_neg here,named,List.find?_cons] at ih ⊢
      rw [ih]

theorem known_cons (a : Attr) (rest : List Attr) : known (a :: rest) = (fieldOf a.name).toList ++ known rest := by
  simp only [known,List.filterMap_cons]
  cases fieldOf a.name <;> rfl

theorem known_setBreakpointAttribute (value : Text) :
    known (setBreakpointAttribute f.name value attrs) = if f ∈ known attrs then known attrs else known attrs ++ [f] := by
  induction attrs with
  | nil => simp [setBreakpointAttribute,known,fieldOf_name]
  | cons a rest ih =>
    by_cases here : a.name = f.name
    · simp [setBreakpointAttribute,known_cons,here,fieldOf_name]
    · have differs : fieldOf a.name ≠ some f := fun same => here (fieldOf_iff.mp same)
      rw [setBreakpointAttribute,if_neg here,known_cons,ih,known_cons]
      by_cases mem : f ∈ known rest
      · rw [if_pos mem,if_pos (by simp [mem])]
      · rw [if_neg mem,if_neg (by simp [mem,differs]),List.append_assoc]

theorem NoRepeats.setBreakpointAttribute (once : NoRepeats attrs) (value : Text) :
    NoRepeats (setBreakpointAttribute f.name value attrs) := by
  rw [NoRepeats,known_setBreakpointAttribute]
  split
  · exact once
  · rename_i fresh
    simpa [List.nodup_append] using ⟨once,fun g mem same => fresh (same ▸ mem)⟩

theorem Mirrors.enable (mirrors : Mirrors fields attrs) (on : Bool) :
    Mirrors (Function.update fields .enabled (some (.flag on)))
      (setBreakpointAttribute Field.enabled.name (literal (if on then "true" else "false")) attrs) := by
  intro f
  by_cases here : f = .enabled
  · subst here
    rw [named_setBreakpointAttribute]
    refine ⟨.flag on,?_,by simp⟩
    cases on <;> decide
  · have other : Field.enabled.name ≠ f.name := by
      intro same
      have found := fieldOf_name .enabled
      rw [same,fieldOf_name,Option.some.injEq] at found
      exact here found
    have before := mirrors f
    rw [named_setBreakpointAttribute_other _ other]
    cases read : named f attrs with
    | none =>
      rw [read] at before
      exact (Function.update_of_ne here _ _).trans before
    | some a =>
      rw [read] at before
      obtain ⟨x,decoded,field⟩ := before
      exact ⟨x,decoded,(Function.update_of_ne here _ _).trans field⟩

end Enabled

section Ids

variable {attrs : List Attr}

/-- The ID that a list gives a breakpoint. -/
def idOf (attrs : List Attr) : Text := match readIdAttribute attrs with
  | .ok id => id
  | .error _ => []

theorem Mirrors.id {bp : BreakpointInfo} (mirrors : Mirrors bp.fields attrs) : bp.id = some (idOf attrs) := by
  have reads := mirrors .id
  simp only [idOf,readIdAttribute]
  change Reads _ _ (attrs.find? fun a => a.name = Field.id.name) at reads
  cases here : attrs.find? fun a => a.name = Field.id.name with
  | none =>
    rw [here] at reads
    simp only [Reads] at reads
    simp [BreakpointInfo.id,reads,Field.zero]
  | some a =>
    rw [here] at reads
    obtain ⟨x,decoded,field⟩ := reads
    simp only [decode,Field.read] at decoded
    cases run : readId (valueInput a.value) with
    | error stop =>
      rw [run] at decoded
      cases decoded
    | ok read =>
      simp only [run,Code.ok_bind,pure,Except.pure] at decoded ⊢
      cases ended : testEos read.2 with
      | error stop =>
        rw [ended] at decoded
        cases decoded
      | ok _ =>
        rw [ended] at decoded
        cases decoded
        simp [BreakpointInfo.id,field,Code.ok_bind]

end Ids

section Table

variable {hash : Text → Nat} {bps : List BreakpointInfo} {s : State} {place : Nat} {bp new : BreakpointInfo} {id : Text}

/-- Breakpoints are linked by the hash of the ID that they have, and no two have the same. -/
structure Keyed (hash : Text → Nat) (bps : List BreakpointInfo) : Prop where
  linked : ∀ bp ∈ bps, ∃ id, bp.id = some id ∧ bp.linkedUnder.map hash = some (hash id)
  distinct : ∀ (i j : Nat) (b c : BreakpointInfo), bps[i]? = some b → bps[j]? = some c → b.id = c.id → i = j

theorem Keyed.find (keyed : Keyed hash s.breakpoints) (here : s.breakpoints[place]? = some bp) (id_ : bp.id = some id) :
    s.find hash id = some place := by
  obtain ⟨inside,get⟩ := List.getElem?_eq_some_iff.mp here
  obtain ⟨id',same,linked⟩ := keyed.linked bp (List.mem_of_getElem? here)
  obtain rfl : id = id' := Option.some.inj (id_.symm.trans same)
  rw [State.find,List.findIdx?_eq_some_iff_getElem]
  refine ⟨inside,by simp [get,id_,linked],fun j before found => ?_⟩
  have there : s.breakpoints[j]? = some s.breakpoints[j] := List.getElem?_eq_getElem (before.trans inside)
  simp only [decide_eq_true_eq] at found
  have again := keyed.distinct j place _ _ there here (found.2.trans id_.symm)
  omega

theorem set_cases {i : Nat} (at_i : (bps.set place new)[i]? = some bp) : (i ≠ place ∧ bps[i]? = some bp) ∨ (i = place ∧ bp = new) := by
  rw [List.getElem?_set] at at_i
  by_cases here : place = i
  · rw [if_pos here] at at_i
    split at at_i
    · exact .inr ⟨here.symm,(Option.some.inj at_i).symm⟩
    · cases at_i
  · rw [if_neg here] at at_i
    exact .inl ⟨Ne.symm here,at_i⟩

theorem snoc_cases {i : Nat} (at_i : (bps ++ [new])[i]? = some bp) : bps[i]? = some bp ∨ (i = bps.length ∧ bp = new) := by
  rw [List.getElem?_append] at at_i
  split at at_i
  · exact .inl at_i
  · obtain ⟨inside,last⟩ := List.getElem?_eq_some_iff.mp at_i
    simp only [List.length_singleton,Nat.lt_one_iff] at inside
    right
    constructor
    · omega
    · simpa [inside] using last.symm

theorem Keyed.put (keyed : Keyed hash bps) (id_ : new.id = some id) (linked : new.linkedUnder.map hash = some (hash id))
    (alone : ∀ (j : Nat) (other : BreakpointInfo), bps[j]? = some other → other.id = some id → j = place) :
    Keyed hash (bps.set place new) where
  linked b mem := by
    rcases List.mem_or_eq_of_mem_set mem with old | rfl
    · exact keyed.linked b old
    · exact ⟨id,id_,linked⟩
  distinct i j b c at_i at_j same := by
    rcases set_cases at_i with ⟨other,old_i⟩ | ⟨rfl,rfl⟩
    · rcases set_cases at_j with ⟨-,old_j⟩ | ⟨rfl,rfl⟩
      · exact keyed.distinct i j b c old_i old_j same
      · exact absurd (alone i b old_i (same.trans id_)) other
    · rcases set_cases at_j with ⟨other,old_j⟩ | ⟨rfl,-⟩
      · exact absurd (alone j c old_j (same.symm.trans id_)) other
      · rfl

theorem Keyed.append (keyed : Keyed hash bps) (id_ : new.id = some id) (linked : new.linkedUnder.map hash = some (hash id))
    (fresh : ∀ other ∈ bps, other.id ≠ some id) : Keyed hash (bps ++ [new]) where
  linked b mem := by
    rcases List.mem_append.mp mem with old | last
    · exact keyed.linked b old
    · obtain rfl := List.mem_singleton.mp last
      exact ⟨id,id_,linked⟩
  distinct i j b c at_i at_j same := by
    rcases snoc_cases at_i with old_i | ⟨rfl,rfl⟩
    · rcases snoc_cases at_j with old_j | ⟨rfl,rfl⟩
      · exact keyed.distinct i j b c old_i old_j same
      · exact absurd (same.trans id_) (fresh b (List.mem_of_getElem? old_i))
    · rcases snoc_cases at_j with old_j | ⟨rfl,-⟩
      · exact absurd (same.symm.trans id_) (fresh c (List.mem_of_getElem? old_j))
      · rfl

end Table

section Runs

variable {hash : Text → Nat} {s : State} {place : Nat} {bp new : BreakpointInfo} {id : Text}

/-- Commands and calls that change breakpoints. -/
inductive Update where
  | call (c : Call)
  | enable (on : Bool) (id : Text)

def Update.run (hash : Text → Nat) (s : State) : Update → State × Outcome
  | .call c => c.run hash s
  | .enable on id => s.enable hash on id

def Update.attrs : Update → List Attr
  | .call (.add _ attrs) | .call (.change _ attrs) => attrs
  | .enable _ _ => []

/-- All that a client has to see to: values are of their types. -/
def Update.Typed (_ : State) (update : Update) : Prop := ∀ a ∈ update.attrs, WellTyped a

/-- The ID of a changed breakpoint has the hash that the breakpoint is linked by, and no other breakpoint has the ID. -/
def Update.KeepsLink (hash : Text → Nat) (s : State) : Update → Prop
  | .call (.change place attrs) => ∀ bp, s.breakpoints[place]? = some bp → bp.linkedUnder.map hash = some (hash (idOf attrs)) ∧
    ∀ (j : Nat) (other : BreakpointInfo), s.breakpoints[j]? = some other → other.id = some (idOf attrs) → j = place
  | _ => True

structure Update.Fine (hash : Text → Nat) (s : State) (update : Update) : Prop where
  typed : update.Typed s
  once : NoRepeats update.attrs
  link : update.KeepsLink hash s

/-- States after updates that are allowed, as long as no assertion fails. -/
inductive Reached (hash : Text → Nat) (allowed : State → Update → Prop) : State → Prop
  | start : Reached hash allowed ⟨[],[]⟩
  | step {s : State} (update : Update) (reached : Reached hash allowed s) (here : allowed s update)
    (lives : (update.run hash s).2 ≠ .aborts) : Reached hash allowed (update.run hash s).1

/-- Fields are what the attributes are decoded to, and a breakpoint is found by its ID. -/
def State.Mirrored (hash : Text → Nat) (s : State) : Prop := ∀ (place : Nat) (bp : BreakpointInfo), s.breakpoints[place]? = some bp →
  Mirrors bp.fields bp.attrs ∧ ∃ id, bp.id = some id ∧ s.find hash id = some place

structure Invariant (hash : Text → Nat) (bps : List BreakpointInfo) : Prop where
  mirrors : ∀ bp ∈ bps, Mirrors bp.fields bp.attrs
  once : ∀ bp ∈ bps, NoRepeats bp.attrs
  keyed : Keyed hash bps

theorem Invariant.mirrored (inv : Invariant hash s.breakpoints) : s.Mirrored hash := by
  intro place bp here
  have mem := List.mem_of_getElem? here
  obtain ⟨id,id_,-⟩ := inv.keyed.linked bp mem
  exact ⟨inv.mirrors bp mem,id,id_,inv.keyed.find here id_⟩

theorem Invariant.put {bps : List BreakpointInfo} (inv : Invariant hash bps) (mirrors : Mirrors new.fields new.attrs)
    (once : NoRepeats new.attrs) (id_ : new.id = some id) (linked : new.linkedUnder.map hash = some (hash id))
    (alone : ∀ (j : Nat) (other : BreakpointInfo), bps[j]? = some other → other.id = some id → j = place) :
    Invariant hash (bps.set place new) where
  mirrors b mem := by
    rcases List.mem_or_eq_of_mem_set mem with old | rfl
    · exact inv.mirrors b old
    · exact mirrors
  once b mem := by
    rcases List.mem_or_eq_of_mem_set mem with old | rfl
    · exact inv.once b old
    · exact once
  keyed := inv.keyed.put id_ linked alone

theorem Invariant.append {bps : List BreakpointInfo} (inv : Invariant hash bps) (mirrors : Mirrors new.fields new.attrs)
    (once : NoRepeats new.attrs) (id_ : new.id = some id) (linked : new.linkedUnder.map hash = some (hash id))
    (fresh : ∀ other ∈ bps, other.id ≠ some id) : Invariant hash (bps ++ [new]) where
  mirrors b mem := by
    rcases List.mem_append.mp mem with old | last
    · exact inv.mirrors b old
    · obtain rfl := List.mem_singleton.mp last
      exact mirrors
  once b mem := by
    rcases List.mem_append.mp mem with old | last
    · exact inv.once b old
    · obtain rfl := List.mem_singleton.mp last
      exact once
  keyed := inv.keyed.append id_ linked fresh

@[simp] theorem State.send_breakpoints (s : State) (bp : BreakpointInfo) (event : Event) :
    (s.send bp event).1.breakpoints = s.breakpoints := by
  unfold State.send
  split <;> rfl

/-- The breakpoint at its place gets a reference. -/
theorem State.addRef_breakpoints (s : State) (place : Nat) (bp : BreakpointInfo) (c : Option Nat) (chng : Bool) :
    ∃ clients, (s.addRef place bp c chng).1.breakpoints = s.breakpoints.set place { bp with clients := clients } := by
  refine ⟨if c ∉ bp.clients then bp.clients ++ [c] else bp.clients,?_⟩
  have one : (if c ∉ bp.clients then { bp with clients := bp.clients ++ [c] } else bp) =
      { bp with clients := if c ∉ bp.clients then bp.clients ++ [c] else bp.clients } := by
    split <;> rfl
  simp only [State.addRef,one]
  split
  · rw [State.send_breakpoints]
    split <;> rfl
  · split
    · rw [State.send_breakpoints]
      split <;> rfl
    · split <;> rfl

/-- A breakpoint that keeps its ID. -/
theorem Invariant.replace {bps : List BreakpointInfo} (inv : Invariant hash bps) (here : bps[place]? = some bp)
    (mirrors : Mirrors new.fields new.attrs) (once : NoRepeats new.attrs) (id_ : new.id = bp.id)
    (linked : new.linkedUnder = bp.linkedUnder) : Invariant hash (bps.set place new) := by
  obtain ⟨id,own,link⟩ := inv.keyed.linked bp (List.mem_of_getElem? here)
  refine inv.put mirrors once (id_.trans own) (by rw [linked,link]) fun j other there same => ?_
  exact inv.keyed.distinct j place other bp there here (same.trans own.symm)

@[simp] theorem setBreakpointAttributes_linkedUnder (bp : BreakpointInfo) (attrs : List Attr) :
    (setBreakpointAttributes bp attrs).1.linkedUnder = bp.linkedUnder := by
  simp only [setBreakpointAttributes]
  split <;> rfl

theorem addRef_invariant {c : Option Nat} {chng : Bool} (inv : Invariant hash (s.breakpoints.set place bp)) :
    Invariant hash (s.addRef place bp c chng).1.breakpoints := by
  obtain ⟨clients,run⟩ := s.addRef_breakpoints place bp c chng
  rw [run]
  by_cases inside : place < s.breakpoints.length
  · have here : (s.breakpoints.set place bp)[place]? = some bp := by simp [inside]
    have mem := List.mem_of_getElem? here
    have after := @Invariant.replace hash place bp { bp with clients := clients } _ inv here
      (inv.mirrors bp mem) (inv.once bp mem) rfl rfl
    rwa [List.set_set] at after
  · rw [List.set_eq_of_length_le (by omega)] at inv ⊢
    exact inv

theorem addBreakpoint_invariant {c : Option Nat} {attrs : List Attr} (inv : Invariant hash s.breakpoints)
    (typed : ∀ a ∈ attrs, WellTyped a) (once : NoRepeats attrs) : Invariant hash (s.addBreakpoint hash c attrs).1.breakpoints := by
  simp only [State.addBreakpoint]
  cases read : readIdAttribute attrs with
  | error stop => exact inv
  | ok id =>
    have own : idOf attrs = id := by simp [idOf,read]
    simp only
    cases found : s.find hash id with
    | none =>
      obtain ⟨returns,list,mirrors⟩ := @setBreakpointAttributes_mirrors attrs (newBreakpoint id) (fun f => rfl) .nil typed once
      have id_ := mirrors.id
      rw [own] at id_
      have fresh : ∀ other ∈ s.breakpoints, other.id ≠ some id := by
        intro other mem same
        obtain ⟨i,inside,get⟩ := List.mem_iff_getElem.mp mem
        have there : s.breakpoints[i]? = some other := by simp [inside,get]
        rw [inv.keyed.find there same] at found
        cases found
      have added : Invariant hash (s.breakpoints ++ [(setBreakpointAttributes (newBreakpoint id) attrs).1]) :=
        inv.append (by rwa [list]) (by rwa [list]) id_ (by simp [newBreakpoint]) fresh
      simp only [if_pos returns]
      refine addRef_invariant ?_
      simpa using added
    | some place =>
      obtain ⟨bp,here,-,before⟩ := State.find_some found
      have mem := List.mem_of_getElem? here
      obtain ⟨returns,list,mirrors⟩ := setBreakpointAttributes_mirrors (inv.mirrors bp mem) (inv.once bp mem) typed once
      have id_ := mirrors.id
      rw [own] at id_
      simp only [here,if_pos returns]
      refine addRef_invariant (inv.replace here ?_ ?_ (id_.trans before.symm) ?_)
      · simpa only [list] using mirrors
      · simpa only [list] using once
      · exact setBreakpointAttributes_linkedUnder bp attrs

theorem changeBreakpointAttributes_invariant {attrs : List Attr} (inv : Invariant hash s.breakpoints)
    (typed : ∀ a ∈ attrs, WellTyped a) (once : NoRepeats attrs) (link : (Update.call (.change place attrs)).KeepsLink hash s) :
    Invariant hash (s.changeBreakpointAttributes place attrs).1.breakpoints := by
  simp only [State.changeBreakpointAttributes]
  cases here : s.breakpoints[place]? with
  | none => exact inv
  | some bp =>
    have mem := List.mem_of_getElem? here
    obtain ⟨returns,list,mirrors⟩ := setBreakpointAttributes_mirrors (inv.mirrors bp mem) (inv.once bp mem) typed once
    obtain ⟨linked,alone⟩ := link bp here
    have put (changed : Bool) : Invariant hash (s.breakpoints.set place { (setBreakpointAttributes bp attrs).1 with attrsChanged := changed }) := by
      refine inv.put ?_ ?_ mirrors.id ?_ alone
      · simpa only [list] using mirrors
      · simpa only [list] using once
      · simpa only [setBreakpointAttributes_linkedUnder] using linked
    simp only [returns,ne_eq,not_true_eq_false,if_false]
    split
    · exact put _
    · split
      · exact put _
      · split
        · simpa [State.put] using put true
        · simpa [State.put] using put true

theorem enable_invariant {on : Bool} (inv : Invariant hash s.breakpoints) : Invariant hash (s.enable hash on id).1.breakpoints := by
  simp only [State.enable]
  cases s.find hash id with
  | none => exact inv
  | some place =>
    simp only
    cases here : s.breakpoints[place]? with
    | none => exact inv
    | some bp =>
      have mem := List.mem_of_getElem? here
      simp only
      split
      · exact inv
      · rw [State.send_breakpoints]
        exact inv.replace here ((inv.mirrors bp mem).enable on) ((inv.once bp mem).setBreakpointAttribute _) rfl rfl

theorem Update.invariant {update : Update} (inv : Invariant hash s.breakpoints) (fine : update.Fine hash s) :
    Invariant hash (update.run hash s).1.breakpoints := by
  cases update with
  | call c =>
    cases c with
    | add c attrs => exact addBreakpoint_invariant inv fine.typed fine.once
    | change place attrs => exact changeBreakpointAttributes_invariant inv fine.typed fine.once fine.link
  | enable on id => exact enable_invariant inv

theorem Reached.invariant (reached : Reached hash (fun s update => update.Fine hash s) s) : Invariant hash s.breakpoints := by
  induction reached with
  | start => exact ⟨by simp,by simp,⟨by simp,by simp⟩⟩
  | step update _ fine _ ih => exact update.invariant ih fine

/-- Fields mirror attributes in all states that are reached by lists without repetitions. -/
theorem fields_mirror_attributes {hash : Text → Nat} {s : State} (reached : Reached hash (fun s update => update.Fine hash s) s) :
    s.Mirrored hash := reached.invariant.mirrored

theorem WellTyped.of {a : Attr} {f : Field} (x : Value) (name : a.name = f.name) (value : decode f a.value = .ok x) : WellTyped a := by
  intro g here
  rw [name,fieldOf_name,Option.some.injEq] at here
  subst here
  exact ⟨x,value⟩

theorem one_breakpoint_mirrors :
    ((Update.call (.add none [⟨literal "ID",literal "\"a\""⟩,⟨literal "Line",literal "1"⟩])).run (fun _ => 0) ⟨[],[]⟩).1.Mirrored fun _ => 0 := by
  refine fields_mirror_attributes (.step _ .start ⟨?_,by decide +kernel,trivial⟩ (by decide +kernel))
  refine List.forall_mem_cons.mpr ⟨.of (.string (some (literal "a"))) (f := .id) rfl (by decide +kernel),List.forall_mem_cons.mpr ⟨?_,by simp⟩⟩
  exact .of (.number 1) (f := .line) rfl (by decide +kernel)

/-- A line that is there twice is forgotten by an update with the first one only. -/
theorem repeated_line_forgotten :
    ¬∀ (hash : Text → Nat) (s : State), Reached hash (fun s update => update.Typed s) s → s.Mirrored hash := by
  intro claim
  have id_ : WellTyped ⟨literal "ID",literal "\"a\""⟩ := .of (.string (some (literal "a"))) (f := .id) rfl (by decide +kernel)
  have one : WellTyped ⟨literal "Line",literal "1"⟩ := .of (.number 1) (f := .line) rfl (by decide +kernel)
  have two : WellTyped ⟨literal "Line",literal "2"⟩ := .of (.number 2) (f := .line) rfl (by decide +kernel)
  have first : Reached (fun _ => 0) (fun s update => update.Typed s) _ :=
    .step (.call (.add none [⟨literal "ID",literal "\"a\""⟩,⟨literal "Line",literal "1"⟩,⟨literal "Line",literal "2"⟩])) .start
      (by simpa [Update.Typed,Update.attrs] using ⟨id_,one,two⟩) (by decide +kernel)
  obtain ⟨s,second,read⟩ : ∃ s, Reached (fun _ => 0) (fun s update => update.Typed s) s ∧
      s.breakpoints[0]?.map (fun bp => (bp.fields .line,named .line bp.attrs)) =
        some (some (.number 0),some ⟨literal "Line",literal "1"⟩) :=
    ⟨_,.step (.call (.add none [⟨literal "ID",literal "\"a\""⟩,⟨literal "Line",literal "1"⟩])) first
      (by simpa [Update.Typed,Update.attrs] using ⟨id_,one⟩) (by decide +kernel),by decide +kernel⟩
  obtain ⟨bp,here,both⟩ := Option.map_eq_some_iff.mp read
  obtain ⟨field,attr⟩ := Prod.mk.inj both
  have reads := (claim _ s second 0 bp here).1 .line
  rw [attr] at reads
  obtain ⟨x,decoded,now⟩ := reads
  have value : decode .line (literal "1") = .ok (.number 1) := by decide +kernel
  rw [value] at decoded
  rw [field] at now
  cases decoded
  cases now

end Runs

end Tcf.BreakpointAttrs
