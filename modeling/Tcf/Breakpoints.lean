import Tcf.Base.Process
import Tcf.Base.Overlay
import Mathlib.Algebra.Order.Ring.Int

/-! Software breakpoints: break instructions planted in the memory of a process, and
the checks that hide them from clients that read and write that memory. -/
namespace Tcf.Breakpoints

open Overlay

/-- BREAK_INST of the machine, and the memory context (`ctx->mem`) of every context. -/
structure Target where
  breakInst : List UInt8
  fits : breakInst.length ≤ 16
  nonzero : ∃ byte ∈ breakInst, byte ≠ 0
  mem : Nat → Nat

/-- `stopped` stands for all threads of the process. -/
structure Context where
  exited : Bool
  exiting : Bool
  stopped : Bool
  deriving DecidableEq, Repr

inductive PlantError where
  | other (text : String)
  | unsupported
  | errno (code : Nat)
  deriving DecidableEq, Repr

/-- A reference of a breakpoint to the instruction. -/
structure InstructionRef where
  ctx : Nat
  cnt : Nat
  lineOffsError : Bool
  deriving DecidableEq, Repr

/-- `ctx`, `address`, `length` and `accessTypes` are the fields of `cb`. -/
structure BreakInstruction where
  ctx : Nat
  address : Nat
  length : Nat
  accessTypes : Nat
  virtualAddr : Bool
  hardware : Bool
  refs : List InstructionRef
  valid : Bool
  planted : Bool
  dirty : Bool
  unsupported : Bool
  steppingOverBp : Nat
  addressError : Option PlantError
  plantingError : Option PlantError
  savedCode : Nat → UInt8
  plantedCode : Nat → UInt8
  savedSize : Nat

/-- The bytes of every memory context, and all break instructions in the order of their list. -/
structure State where
  contexts : Nat → Context
  raw : Nat → Nat → UInt8
  instructions : List BreakInstruction
  plantedSwBpCnt : Nat

/-- How the operating system ends an access. A write that fails may have written some bytes. -/
inductive Access where
  | done
  | fails (code : Nat) (written : Nat)
  deriving DecidableEq, Repr

/-- `context_plant_breakpoint` and `context_unplant_breakpoint`: breakpoints planted without
changing memory. -/
inductive Kernel where
  | done
  | fails (error : PlantError)
  deriving DecidableEq, Repr

variable (w : Target)

def breakByte (i : Nat) : UInt8 := w.breakInst.getD i 0

/-- End of the block of directly mapped memory that an address is in. -/
def blockEnd (address : Nat) : Nat := address / 0x100000 * 0x100000 + 0x100000

/-- Planted in memory, not by other means. -/
def BreakInstruction.Software (bi : BreakInstruction) : Prop := bi.planted = true ∧ bi.savedSize ≠ 0

instance (bi : BreakInstruction) : Decidable bi.Software :=
  inferInstanceAs (Decidable (_ ∧ _))

/-- The part of an access that one pass of a check handles. -/
def pieceSize (instructions : List BreakInstruction) (address size : Nat) : Nat :=
  if ∃ bi ∈ instructions, bi.Software then min size (blockEnd address - address) else size

/-- The instruction is in the memory of the access, and in its range. -/
def Touches (bi : BreakInstruction) (mem address size : Nat) : Prop :=
  bi.Software ∧ bi.ctx = mem ∧ ¬bi.address + bi.savedSize ≤ address ∧ ¬bi.address ≥ address + size

instance (bi : BreakInstruction) (mem address size : Nat) : Decidable (Touches bi mem address size) :=
  inferInstanceAs (Decidable (_ ∧ _))

/-- The byte of the instruction at `i` is in the range of the access. -/
abbrev Within (bi : BreakInstruction) (address size i : Nat) : Prop :=
  ¬bi.address + i < address ∧ ¬bi.address + i ≥ address + size

/-- Saved bytes replace break bytes. `p` advances with the address, so a byte is in the
buffer at its distance from the start of the access. -/
def unpatch (start address size : Nat) (buf : Nat → UInt8) (bi : BreakInstruction) : Nat → UInt8 :=
  storeLoop (Within bi address size) bi.address start bi.savedCode bi.savedSize buf

/-- The loop of `check_breakpoints_on_memory_read`; a pass takes at least one byte. -/
def checkReadLoop (instructions : List BreakInstruction) (mem start : Nat) :
    Nat → Nat → Nat → (Nat → UInt8) → Nat → UInt8
  | 0, _, _, buf => buf
  | fuel + 1, address, size, buf =>
    if size = 0 then buf
    else
      let sz := pieceSize instructions address size
      let touched := instructions.filter fun bi => Touches bi mem address sz
      checkReadLoop instructions mem start fuel (address + sz) (size - sz)
        (touched.foldl (unpatch start address sz) buf)

def checkBreakpointsOnMemoryRead (s : State) (ctx address size : Nat) (buf : Nat → UInt8) : Nat → UInt8 :=
  checkReadLoop s.instructions (w.mem ctx) address size address size buf

/-- New bytes are saved, and break bytes written in their place. -/
def patch (start address size : Nat) (bi : BreakInstruction) (buf : Nat → UInt8) :
    BreakInstruction × (Nat → UInt8) :=
  let (savedCode,buf) := (List.range bi.savedSize).foldl
    (fun (saved,buf) i =>
      if Within bi address size i then
        (Function.update saved i (buf (bi.address + i - start)),
          Function.update buf (bi.address + i - start) (breakByte w i))
      else (saved,buf))
    (bi.savedCode,buf)
  ({ bi with savedCode },buf)

def patchAll (mem start address size : Nat) :
    List BreakInstruction → (Nat → UInt8) → Code (List BreakInstruction × (Nat → UInt8))
  | [], buf => pure ([],buf)
  | bi :: rest, buf =>
    if Touches bi mem address size then do
      require (w.breakInst.length = bi.savedSize)
      let (bi,buf) := patch w start address size bi buf
      let (rest,buf) ← patchAll mem start address size rest buf
      pure (bi :: rest,buf)
    else do
      let (rest,buf) ← patchAll mem start address size rest buf
      pure (bi :: rest,buf)

/-- The loop of `check_breakpoints_on_memory_write`. -/
def checkWriteLoop (mem start : Nat) :
    Nat → Nat → Nat → List BreakInstruction → (Nat → UInt8) → Code (List BreakInstruction × (Nat → UInt8))
  | 0, _, _, instructions, buf => pure (instructions,buf)
  | fuel + 1, address, size, instructions, buf =>
    if size = 0 then pure (instructions,buf)
    else do
      let sz := pieceSize instructions address size
      let (instructions,buf) ← patchAll w mem start address sz instructions buf
      checkWriteLoop mem start fuel (address + sz) (size - sz) instructions buf

def checkBreakpointsOnMemoryWrite (s : State) (ctx address size : Nat) (buf : Nat → UInt8) :
    Code (State × (Nat → UInt8)) := do
  let (instructions,buf) ← checkWriteLoop w (w.mem ctx) address size address size s.instructions buf
  pure ({ s with instructions },buf)

/-- Accesses past the end of memory fail with EFAULT. -/
def efault : Nat := 14

def accessError (address size : Nat) : Access → Option Nat
  | .done => if address + size < 2^64 then none else some efault
  | .fails code _ => if address + size < 2^64 then some code else some efault

/-- `planting` is `planting_instruction`: the check is left out. -/
def contextReadMem (planting : Bool) (s : State) (access : Access) (ctx address size : Nat)
    (buf : Nat → UInt8) : Code (Except Nat (Nat → UInt8)) := do
  require ((s.contexts ctx).exited = false)
  if size = 0 then pure (.ok buf)
  else
    match accessError address size access with
    | some code => pure (.error code)
    | none =>
      let buf := copyAt buf 0 (fun k => s.raw (w.mem ctx) (address + k)) size
      pure (.ok (if planting then buf else checkBreakpointsOnMemoryRead w s ctx address size buf))

/-- The bytes of one memory context change. -/
def State.store (s : State) (mem address : Nat) (buf : Nat → UInt8) (size : Nat) : State :=
  { s with raw := Function.update s.raw mem (copyAt (s.raw mem) address buf size) }

def contextWriteMem (planting : Bool) (s : State) (access : Access) (ctx address size : Nat)
    (buf : Nat → UInt8) : Code (State × Option Nat) := do
  require ((s.contexts ctx).exited = false)
  if size = 0 then pure (s,none)
  else if 2^64 ≤ address + size then pure (s,some efault)
  else
    let (s,buf) ← if planting then pure (s,buf) else checkBreakpointsOnMemoryWrite w s ctx address size buf
    match access with
    | .done => pure (s.store (w.mem ctx) address buf size,none)
    | .fails code written => pure (s.store (w.mem ctx) address buf (min written size),some code)

def ctxBpAccessInstruction : Nat := 4

/-- A reference that finds code where it asked for it. -/
def BreakInstruction.lineOffsOk (bi : BreakInstruction) : Bool :=
  bi.refs.any fun ref => ref.cnt > 0 && !ref.lineOffsError

/-- The error of the request before memory is touched. -/
def BreakInstruction.requestError (bi : BreakInstruction) (kernel : Kernel) : Option PlantError :=
  if bi.virtualAddr = true ∧ bi.accessTypes &&& ctxBpAccessInstruction ≠ 0 ∧ bi.lineOffsOk = false then
    some (.other "No code at requested breakpoint position")
  else
    match kernel with
    | .done => none
    | .fails error => some error

/-- A break instruction is written to memory, and the bytes it replaces are saved. -/
def plantCode (s : State) (bi : BreakInstruction) (read write : Access) :
    Code (State × BreakInstruction × Option PlantError) := do
  let size := w.breakInst.length
  let bi := { bi with savedSize := size, plantedCode := copyAt bi.plantedCode 0 (breakByte w) size }
  match ← contextReadMem w true s read bi.ctx bi.address size bi.savedCode with
  | .error code => pure (s,bi,some (.errno code))
  | .ok savedCode =>
    let bi := { bi with savedCode }
    let (s,failed) ← contextWriteMem w true s write bi.ctx bi.address size (breakByte w)
    pure (s,bi,failed.map .errno)

/-- The request goes to the processor first, and to memory when it is not supported there. -/
def requestPlant (s : State) (bi : BreakInstruction) (kernel : Kernel) (read write : Access) :
    Code (State × BreakInstruction × Option PlantError) :=
  let error := bi.requestError kernel
  let bi := { bi with savedSize := 0, unsupported := error == some .unsupported }
  if error = some .unsupported ∧ bi.virtualAddr = false ∧ bi.hardware = false then
    plantCode w s bi read write
  else if error = some .unsupported then
    pure (s,bi,some (.other "Unsupported set of breakpoint attributes"))
  else pure (s,bi,error)

def plantInstruction (s : State) (bi : BreakInstruction) (kernel : Kernel) (read write : Access) :
    Code (State × BreakInstruction) := do
  require (bi.steppingOverBp = 0)
  require (bi.planted = false)
  require (bi.dirty = false)
  require ((s.contexts bi.ctx).exited = false)
  require ((s.contexts bi.ctx).exiting = false)
  require (bi.valid = true)
  require (bi.addressError = none)
  require ((s.contexts bi.ctx).stopped = true)
  let (s,bi,error) ← requestPlant w s bi kernel read write
  let bi : BreakInstruction := { bi with plantingError := error, planted := error.isNone }
  pure ({ s with
    plantedSwBpCnt := if bi.planted = true ∧ bi.virtualAddr = false then s.plantedSwBpCnt + 1
      else s.plantedSwBpCnt },bi)

/-- The saved bytes are written back where the planted ones still are. `false` is a failure. -/
def restoreCode (s : State) (bi : BreakInstruction) (read write : Access) : Code (State × Bool) := do
  match ← contextReadMem w true s read bi.ctx bi.address bi.savedSize (fun _ => 0) with
  | .error _ => pure (s,false)
  | .ok buf =>
    if ∀ k < bi.savedSize, buf k = bi.plantedCode k then
      let (s,failed) ← contextWriteMem w true s write bi.ctx bi.address bi.savedSize bi.savedCode
      pure (s,failed.isNone)
    else pure (s,true)

def requestRemove (s : State) (bi : BreakInstruction) (kernel : Kernel) (read write : Access) :
    Code (State × Bool) :=
  if bi.savedSize ≠ 0 then
    if (s.contexts bi.ctx).exited = false then restoreCode w s bi read write else pure (s,true)
  else pure (s,kernel == .done)

def removeInstruction (s : State) (bi : BreakInstruction) (kernel : Kernel) (read write : Access) :
    Code (State × BreakInstruction × Bool) := do
  require (bi.planted = true)
  require (bi.plantingError = none)
  require (bi.addressError = none)
  require ((s.contexts bi.ctx).stopped = true)
  let (s,removed) ← requestRemove w s bi kernel read write
  if removed then
    pure ({ s with
      plantedSwBpCnt := if bi.virtualAddr = false then s.plantedSwBpCnt - 1 else s.plantedSwBpCnt },
      { bi with planted := false, dirty := false },true)
  else pure (s,bi,false)

/-- Where `add_instruction` would find the instruction already. -/
def SameInstruction (bi other : BreakInstruction) : Prop :=
  bi.ctx = other.ctx ∧ bi.address = other.address ∧ bi.length = other.length ∧
    bi.accessTypes = other.accessTypes ∧ bi.virtualAddr = other.virtualAddr

instance (bi other : BreakInstruction) : Decidable (SameInstruction bi other) :=
  inferInstanceAs (Decidable (_ ∧ _))

/-- A zeroed instruction. -/
def newInstruction (ctx : Nat) (virtualAddr : Bool) (address accessTypes length : Nat) : BreakInstruction where
  ctx := ctx
  address := address
  length := length
  accessTypes := accessTypes
  virtualAddr := virtualAddr
  hardware := false
  refs := []
  valid := false
  planted := false
  dirty := false
  unsupported := false
  steppingOverBp := 0
  addressError := none
  plantingError := none
  savedCode := fun _ => 0
  plantedCode := fun _ => 0
  savedSize := 0

/-- What `clone_breakpoints_on_process_fork` makes of one instruction of the parent. -/
def cloneInstruction (child : Nat) (bi : BreakInstruction) : BreakInstruction :=
  { newInstruction child bi.virtualAddr bi.address bi.accessTypes bi.length with
    savedCode := copyAt (fun _ => 0) 0 bi.savedCode bi.savedSize
    savedSize := bi.savedSize
    refs := bi.refs.map fun ref => { ref with ctx := child }
    valid := true
    planted := true }

/-- An instruction the clone copies. -/
def Copied (mem : Nat) (bi : BreakInstruction) : Prop := bi.Software ∧ bi.ctx = mem

instance (mem : Nat) (bi : BreakInstruction) : Decidable (Copied mem bi) :=
  inferInstanceAs (Decidable (_ ∧ _))

def cloneLoop (mem child : Nat) : List BreakInstruction → State → Code State
  | [], s => pure s
  | bi :: rest, s =>
    if Copied mem bi then do
      let ci := cloneInstruction child bi
      require (¬∃ other ∈ s.instructions, SameInstruction other ci)
      cloneLoop mem child rest { s with
        instructions := s.instructions ++ [ci]
        plantedSwBpCnt := if bi.virtualAddr = false then s.plantedSwBpCnt + 1 else s.plantedSwBpCnt }
    else cloneLoop mem child rest s

/-- Instructions added at the end of the list are the child's, so the loop passes them by. -/
def cloneBreakpointsOnProcessFork (s : State) (parent child : Nat) : Code State := do
  require (child = w.mem child)
  require (child ≠ w.mem parent)
  cloneLoop (w.mem parent) child s.instructions s

/-- How the system ends what one removal asks of it. -/
structure Answers where
  kernel : Kernel
  read : Access
  write : Access

/-- One instruction of the process is removed and freed, or stays in the list. -/
def unplantOne (ctx : Nat) (answers : Answers) (bi : BreakInstruction) (s : State) :
    Code (State × List BreakInstruction) :=
  if bi.ctx ≠ ctx then pure (s,[bi])
  else if bi.planted = true then do
    let (s,bi,removed) ← removeInstruction w s bi answers.kernel answers.read answers.write
    pure (s,if removed then [] else [bi])
  else pure (s,[])

def unplantLoop (ctx : Nat) : List Answers → List BreakInstruction → State → Code (State × List BreakInstruction)
  | _, [], s => pure (s,[])
  | [], _ :: _, _ => .error .stuck
  | answers :: more, bi :: rest, s => do
    let (s,kept) ← unplantOne w ctx answers bi s
    let (s,later) ← unplantLoop ctx more rest s
    pure (s,kept ++ later)

def unplantBreakpoints (s : State) (ctx : Nat) (answers : List Answers) : Code State := do
  let (s,instructions) ← unplantLoop w ctx answers s.instructions s
  pure { s with instructions }

inductive Event where
  | plant (i : Nat) (answers : Answers)
  | remove (i : Nat) (answers : Answers)
  | unplant (ctx : Nat) (answers : List Answers)
  | write (ctx address : Nat) (bytes : List UInt8)
  | change (ctx : Nat) (now : Context)

/-- Clients access memory that exists, and an exited process stays so. -/
def process : Process State Event where
  enabled s
    | .plant i _ => i < s.instructions.length
    | .remove i _ => i < s.instructions.length
    | .unplant _ answers => answers.length = s.instructions.length
    | .write ctx address bytes => (s.contexts ctx).exited = false ∧
        (s.contexts (w.mem ctx)).exited = false ∧ address + bytes.length < 2^64
    | .change ctx now => (s.contexts ctx).exited = true → now.exited = true
  decide s e := by cases e <;> infer_instance
  step s
    | .plant i answers =>
      match s.instructions[i]? with
      | none => .error .stuck
      | some bi => do
        let (s,bi) ← plantInstruction w s bi answers.kernel answers.read answers.write
        pure { s with instructions := s.instructions.set i bi }
    | .remove i answers =>
      match s.instructions[i]? with
      | none => .error .stuck
      | some bi => do
        let (s,bi,_) ← removeInstruction w s bi answers.kernel answers.read answers.write
        pure { s with instructions := s.instructions.set i bi }
    | .unplant ctx answers => unplantBreakpoints w s ctx answers
    | .write ctx address bytes => do
      let (s,_) ← contextWriteMem w false s .done ctx address bytes.length fun k => bytes.getD k 0
      pure s
    | .change ctx now => pure { s with contexts := Function.update s.contexts ctx now }

/-- What a client reads. -/
def clientRead (s : State) (ctx address size : Nat) : Code (Except Nat (List UInt8)) := do
  match ← contextReadMem w false s .done ctx address size fun _ => 0 with
  | .error code => pure (.error code)
  | .ok buf => pure (.ok ((List.range size).map buf))

end Tcf.Breakpoints
