import Tcf.Base.Process
import Mathlib.Data.List.FinRange
import Mathlib.Logic.Function.Basic

/-! Hardware breakpoints of x86: a group of threads has four slots, and each thread a copy of them in its debug registers,
which is brought up to date when it resumes. -/
namespace Tcf.HardwareBreakpoints

abbrev Address := UInt64

abbrev maxHwBps : Nat := 4

abbrev Slot := Fin maxHwBps

/-- Values of `CTX_BP_ACCESS_*`. -/
def dataRead : Nat := 0x01
def dataWrite : Nat := 0x02
def instruction : Nat := 0x04
def virtual : Nat := 0x10

/-- `ENABLE_BP_ACCESS_INSTRUCTION` -/
def enableBpAccessInstruction : Bool := false

/-- A `ContextBreakpoint`; `name` tells one of them from another, and nothing in it changes while it is planted. -/
structure Breakpoint where
  name : Nat
  ctx : Nat
  address : Address
  length : Nat
  accessTypes : Nat
  deriving DecidableEq, Repr

/-- The extension of a breakpoint group. `bumps` counts changes of the generation, `changed` is its value when a slot was last
taken or freed; both are only for proofs. -/
structure Group where
  hwBps : Slot → Option Breakpoint
  hwIdx : Slot → Nat
  hwBpsGeneration : UInt32
  bumps : Nat
  changed : Slot → Nat

inductive Reg where
  | dr (no : Nat)
  | pc
  deriving DecidableEq, Repr

/-- An access to a register of a thread that fails. -/
structure Failure where
  thread : Nat
  write : Bool
  reg : Reg
  deriving DecidableEq, Repr

/-- A thread with its debug registers. `asOf` is `bumps` of the group when the registers were set, only for proofs. -/
structure Thread where
  id : Nat
  group : Nat
  stopped : Bool
  stoppedByCb : Option (List Breakpoint)
  dr : Slot → Address
  dr6 : Slot → Bool
  dr7 : BitVec 32
  hwBpsRegsGeneration : UInt32
  asOf : Nat

/-- `threads` are in the order of `context_root`. `planted` are breakpoints after a successful `cpu_bp_plant`, and `returned`
is that the last call did not return -1; both are only for proofs. -/
structure State where
  groups : Nat → Group
  threads : List Thread
  planted : List Breakpoint
  returned : Bool

def Group.initial : Group := ⟨fun _ => none,fun _ => 0,0,0,fun _ => 0⟩

def State.initial : State := ⟨fun _ => .initial,[],[],true⟩

def Fails (faults : List Failure) (write : Bool) (id : Nat) (reg : Reg) : Prop := ⟨id,write,reg⟩ ∈ faults

instance (faults : List Failure) (write : Bool) (id : Nat) (reg : Reg) : Decidable (Fails faults write id reg) :=
  inferInstanceAs (Decidable (_ ∈ faults))

def Breakpoint.onInstruction (bp : Breakpoint) : Bool := bp.accessTypes &&& instruction != 0

/-- The bits of DR7 for the access mode. -/
def accessBits (i : Slot) (idx : Nat) (accessTypes : Nat) : Option (BitVec 32) :=
  if accessTypes = instruction ||| virtual then some 0#32
  else if accessTypes = dataRead ||| virtual then
    some ((if idx = 0 then 1#32 <<< (i.val * 4 + 16) else 3#32 <<< (i.val * 4 + 16)) ||| 0x100#32)
  else if accessTypes = dataWrite ||| virtual then some (1#32 <<< (i.val * 4 + 16) ||| 0x100#32)
  else if accessTypes = dataRead ||| dataWrite ||| virtual then some (3#32 <<< (i.val * 4 + 16) ||| 0x100#32)
  else none

def lengthBits (i : Slot) (length : Nat) : Option (BitVec 32) :=
  if length = 1 then some 0#32
  else if length = 2 then some (1#32 <<< (i.val * 4 + 18))
  else if length = 4 then some (3#32 <<< (i.val * 4 + 18))
  else if length = 8 then some (2#32 <<< (i.val * 4 + 18))
  else none

/-- The loop of `set_debug_regs`, with DR7 for the end of it, or none where it returns -1. `ip` is none without `check_ip`. -/
def setSlots (faults : List Failure) (bps : Group) (ip : Option Address) :
    List Slot → Thread → BitVec 32 → Bool → Thread × Option (BitVec 32 × Bool)
  | [], t, dr7, stepOver => (t,some (dr7,stepOver))
  | i :: rest, t, dr7, stepOver =>
    match bps.hwBps i with
    | none => setSlots faults bps ip rest t dr7 stepOver
    | some bp =>
      if ip = some bp.address ∧ bp.onInstruction then setSlots faults bps ip rest t dr7 true
      else if Fails faults true t.id (.dr i.val) then (t,none)
      else
        let t := { t with dr := Function.update t.dr i bp.address }
        let dr7 := dr7 ||| 1#32 <<< (i.val * 2)
        match accessBits i (bps.hwIdx i) bp.accessTypes, lengthBits i bp.length with
        | some access, some length => setSlots faults bps ip rest t (dr7 ||| access ||| length) stepOver
        | _, _ => (t,none)

/-- The flag is `step_over_hw_bp`, or none for -1. -/
def setDebugRegs (faults : List Failure) (bps : Group) (ip : Option Address) (t : Thread) : Thread × Option Bool :=
  match setSlots faults bps ip (List.finRange maxHwBps) t 0#32 false with
  | (t,none) => (t,none)
  | (t,some (dr7,stepOver)) =>
    if Fails faults true t.id (.dr 7) then (t,none)
    else
      let generation := if stepOver then bps.hwBpsGeneration - 1 else bps.hwBpsGeneration
      ({ t with dr7, hwBpsRegsGeneration := generation, asOf := if stepOver then t.asOf else bps.bumps },some stepOver)

/-- The loop over `context_root`: the threads after it, and that no call returned -1. -/
def setStopped (faults : List Failure) (g : Nat) (bps : Group) : List Thread → List Thread × Bool
  | [] => ([],true)
  | t :: rest =>
    if t.stopped ∧ t.group = g then
      match setDebugRegs faults bps none t with
      | (t,none) => (t :: rest,false)
      | (t,some _) => ((setStopped faults g bps rest).map (t :: ·) id)
    else (setStopped faults g bps rest).map (t :: ·) id

def supportedLength (length : Nat) : Bool := length ≤ 8 ∧ (0x116).testBit length

/-- Slots for an access mode, where the mode is supported. -/
def slotsFor (accessTypes : Nat) : Option Nat :=
  if accessTypes = instruction ||| virtual then if enableBpAccessInstruction then some 1 else none
  else if accessTypes = dataRead ||| virtual then some 2
  else if accessTypes = dataWrite ||| virtual ∨ accessTypes = dataRead ||| dataWrite ||| virtual then some 1
  else none

/-- The loop that takes `n` free slots, with how many it took. -/
def place (bp : Breakpoint) (n : Nat) : List Slot → Nat → Group → Code (Group × Nat)
  | [], m, bps => pure (bps,m)
  | i :: rest, m, bps => do
    if m < n then
      require (bps.hwBps i ≠ some bp)
      if bps.hwBps i = none then
        place bp n rest (m + 1) { bps with hwBps := Function.update bps.hwBps i (some bp), hwIdx := Function.update bps.hwIdx i m }
      else place bp n rest m bps
    else pure (bps,m)

/-- Frees the slots of a breakpoint. -/
def unplace (bp : Breakpoint) (bps : Group) : Group :=
  { bps with hwBps := fun i => if bps.hwBps i = some bp then none else bps.hwBps i }

def State.setGroup (s : State) (g : Nat) (bps : Group) : State := { s with groups := Function.update s.groups g bps }

def State.setThread (s : State) (t : Thread) : State :=
  { s with threads := s.threads.map fun other => if other.id = t.id then t else other }

def unsupported (s : State) : State := { s with returned := false }

/-- `changed` of the slots that a breakpoint has. -/
def noteChanged (bp : Breakpoint) (bps : Group) : Group :=
  { bps with changed := fun i => if bps.hwBps i = some bp then bps.bumps else bps.changed i }

/-- The next generation. -/
def advance (bps : Group) : Group := { bps with hwBpsGeneration := bps.hwBpsGeneration + 1, bumps := bps.bumps + 1 }

/-- The end of `cpu_bp_plant`: the slots are in `bps`, and the stopped threads of the group are brought up to date. -/
def plantStopped (s : State) (bp : Breakpoint) (faults : List Failure) (bps : Group) : State :=
  match setStopped faults bp.ctx bps s.threads with
  | (threads,true) => { s.setGroup bp.ctx (noteChanged bp bps) with threads, planted := bp :: s.planted, returned := true }
  | (threads,false) => { s.setGroup bp.ctx (unplace bp bps) with threads, returned := false }

def plantSlots (s : State) (bp : Breakpoint) (faults : List Failure) (n : Nat) : Code State := do
  let (bps,m) ← place bp n (List.finRange maxHwBps) 0 (s.groups bp.ctx)
  if m = n then pure (plantStopped s bp faults (advance bps)) else pure (unsupported (s.setGroup bp.ctx (unplace bp bps)))

def cpuBpPlant (s : State) (bp : Breakpoint) (faults : List Failure) : Code State := do
  require (bp.accessTypes ≠ 0)
  if bp.accessTypes &&& virtual ≠ 0 ∧ supportedLength bp.length then
    match slotsFor bp.accessTypes with
    | none => pure (unsupported s)
    | some n => plantSlots s bp faults n
  else pure (unsupported s)

/-- The loop of `cpu_bp_remove`. -/
def free (bp : Breakpoint) : List Slot → Group → Group
  | [], bps => bps
  | i :: rest, bps =>
    free bp rest (if bps.hwBps i = some bp then
      { bps with hwBps := Function.update bps.hwBps i none, hwBpsGeneration := bps.hwBpsGeneration + 1,
                 bumps := bps.bumps + 1, changed := Function.update bps.changed i (bps.bumps + 1) }
      else bps)

def cpuBpRemove (s : State) (bp : Breakpoint) (faults : List Failure) : State :=
  let bps := free bp (List.finRange maxHwBps) (s.groups bp.ctx)
  let (threads,returned) := setStopped faults bp.ctx bps s.threads
  { s.setGroup bp.ctx bps with threads, planted := s.planted.filter (· ≠ bp), returned }

/-- `ip` is the program counter. A failure to read it is the first thing in `set_debug_regs`. -/
def cpuBpOnResume (s : State) (t : Thread) (ip : Address) (faults : List Failure) : Thread × Option Bool :=
  let bps := s.groups t.group
  if t.stoppedByCb ≠ none ∨ t.hwBpsRegsGeneration ≠ bps.hwBpsGeneration then
    if Fails faults false t.id .pc then (t,none) else setDebugRegs faults bps (some ip) t
  else (t,some false)

/-- The loop of `skip_read_only_breakpoint`: none where it returns 1, else `read_write_hit`. -/
def readWriteHit (bps : Group) (t : Thread) (bp : Breakpoint) : List Slot → Bool → Option Bool
  | [], hit => some hit
  | i :: rest, hit =>
    if bps.hwBps i ≠ some bp then readWriteHit bps t bp rest hit
    else if t.dr6 i = false then readWriteHit bps t bp rest hit
    else if bps.hwIdx i = 0 then none
    else readWriteHit bps t bp rest true

def skipReadOnlyBreakpoint (bps : Group) (t : Thread) (bp : Breakpoint) : Bool :=
  match readWriteHit bps t bp (List.finRange maxHwBps) false with
  | none => true
  | some false => true
  | some true => match t.stoppedByCb with
    | some reported => reported.contains bp
    | none => false

/-- The loop of `cpu_bp_on_suspend`. -/
def report (bps : Group) : List Slot → Thread → Thread
  | [], t => t
  | i :: rest, t =>
    if t.dr6 i then
      match bps.hwBps i with
      | none => report bps rest t
      | some bp =>
        if bp.accessTypes = dataRead ||| virtual ∧ skipReadOnlyBreakpoint bps t bp then report bps rest t
        else report bps rest { t with stoppedByCb := some (t.stoppedByCb.getD [] ++ [bp]) }
    else report bps rest t

/-- The thread after it, and that it did not return -1. -/
def cpuBpOnSuspend (s : State) (t : Thread) (exiting : Bool) (faults : List Failure) : Thread × Bool :=
  if exiting then (t,true)
  else if Fails faults false t.id (.dr 6) then (t,false)
  else if ∃ i, t.dr6 i = true then
    let t := report (s.groups t.group) (List.finRange maxHwBps) t
    if Fails faults true t.id (.dr 6) then (t,false) else ({ t with dr6 := fun _ => false },true)
  else (t,true)

/-- `starts` is that the thread runs after a successful `cpu_bp_on_resume`; `fired` are debug registers whose condition the
processor met. -/
inductive Event where
  | created (id group : Nat)
  | exited (id : Nat)
  | plant (bp : Breakpoint) (faults : List Failure)
  | remove (bp : Breakpoint) (faults : List Failure)
  | resume (id : Nat) (ip : Address) (faults : List Failure) (starts : Bool)
  | resumeError (id : Nat)
  | suspend (id : Nat) (fired : List Slot) (exiting : Bool) (faults : List Failure)

def State.find (s : State) (id : Nat) : Option Thread := s.threads.find? fun t => t.id = id

def Thread.created (id group : Nat) : Thread := ⟨id,group,false,none,fun _ => 0,fun _ => false,0,0,0⟩

def step (s : State) : Event → Code State
  | .created id group => pure { s with threads := Thread.created id group :: s.threads }
  | .exited id => pure { s with threads := s.threads.filter fun t => t.id ≠ id }
  | .plant bp faults => cpuBpPlant s bp faults
  | .remove bp faults => pure (cpuBpRemove s bp faults)
  | .resume id ip faults starts =>
    match s.find id with
    | none => .error .fault
    | some t =>
      match cpuBpOnResume s t ip faults with
      | (t,none) => pure { s.setThread t with returned := false }
      | (t,some _) =>
        let t := if starts then { t with stopped := false, stoppedByCb := none } else t
        pure { s.setThread t with returned := true }
  | .resumeError id =>
    match s.find id with
    | none => .error .fault
    | some t => pure (s.setThread { t with stoppedByCb := none })
  | .suspend id fired exiting faults =>
    match s.find id with
    | none => .error .fault
    | some t =>
      let t := { t with stopped := true, stoppedByCb := none, dr6 := fun i => t.dr6 i || fired.contains i }
      let (t,returned) := cpuBpOnSuspend s t exiting faults
      pure { s.setThread t with returned }

/-- A breakpoint is planted once at a time. -/
def Enabled (s : State) : Event → Prop
  | .created id _ => s.find id = none
  | .exited _ => True
  | .plant bp _ => bp.accessTypes ≠ 0 ∧ bp ∉ s.planted
  | .remove _ _ => True
  | .resume id _ _ _ | .resumeError id => ∃ t ∈ s.find id, t.stopped = true
  | .suspend id _ _ _ => ∃ t ∈ s.find id, t.stopped = false

instance (s : State) : ∀ e, Decidable (Enabled s e)
  | .created id _ => match h : s.find id with
    | none => isTrue h
    | some _ => isFalse (by simp [Enabled,h])
  | .exited _ => isTrue trivial
  | .plant bp _ => inferInstanceAs (Decidable (bp.accessTypes ≠ 0 ∧ bp ∉ s.planted))
  | .remove _ _ => isTrue trivial
  | .resume id _ _ _ => inferInstanceAs (Decidable (∃ t ∈ s.find id, t.stopped = true))
  | .resumeError id => inferInstanceAs (Decidable (∃ t ∈ s.find id, t.stopped = true))
  | .suspend id _ _ _ => inferInstanceAs (Decidable (∃ t ∈ s.find id, t.stopped = false))

def process : Process State Event := ⟨Enabled,inferInstance,step⟩

end Tcf.HardwareBreakpoints
