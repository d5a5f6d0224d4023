import Mathlib.Algebra.Order.Ring.Int
import Mathlib.Data.List.Basic

/-! The commands of the registers service that read and write registers: one of them, or a list of places in them. -/
namespace Tcf.RegisterLists

abbrev Text := List UInt8

def REG_ACCESS_RD_RUNNING : UInt32 := 0x0001
def REG_ACCESS_WR_RUNNING : UInt32 := 0x0002

def ERR_OTHER : Int := 0x20000 + 1
def ERR_ALREADY_EXITED : Int := 0x20000 + 11
def ERR_IS_RUNNING : Int := 0x20000 + 14
def ERR_INV_DATA_SIZE : Int := 0x20000 + 15
def ERR_INV_CONTEXT : Int := 0x20000 + 16

structure Location where
  id : Text
  offs : UInt32
  size : UInt32
  deriving DecidableEq, Repr

/-- What `id2register` finds. -/
structure Register (κ δ : Type) where
  ctx : κ
  frame : Int
  regDef : δ
  deriving DecidableEq, Repr

/-- A location that has passed its checks. `frameInfo` is NULL for the registers of the top frame. -/
structure Checked (κ δ φ : Type) where
  id : Text
  ctx : κ
  frameInfo : Option φ
  regDef : δ
  offs : UInt32
  size : UInt32

/-- Contexts, register definitions, pointers to frames and the state of the target, as other modules have them. Sizes of
registers are those of a processor, or 16 bit numbers from a target. -/
structure World (κ δ φ σ : Type) where
  id2register : Text → Except Int (Register κ δ)
  exited : κ → Bool
  stopped : κ → Bool
  hasState : κ → Bool
  regAccess : κ → UInt32
  regSize : δ → Nat
  isTopFrame : κ → Int → Bool
  getFrameInfo : κ → Int → σ → Except Int φ × σ
  contextReadReg : κ → δ → Nat → Nat → σ → Except Int (List UInt8)
  readRegBytes : φ → δ → Nat → Nat → σ → Except Int (List UInt8)
  contextWriteReg : κ → δ → Nat → List UInt8 → σ → Option Int × σ
  regSize_lt : ∀ regDef, regSize regDef < 2 ^ 16

/-- A block of memory that is used: of a register, of the reply buffer, or of the data received. -/
inductive Access (δ : Type) where
  | register (regDef : δ) (offs size : Nat)
  | reply (pos size len : Nat)
  | data (pos size len : Nat)
  deriving DecidableEq, Repr

section Commands

variable {κ δ φ σ : Type} (w : World κ δ φ σ)

def isRunning (ctx : κ) : Bool := !w.stopped ctx && w.hasState ctx

/-- The ternary operator takes all of `reg_access & setm` for its condition. -/
def accessMask (setm : Bool) (ctx : κ) : UInt32 :=
  if w.regAccess ctx &&& (if setm then 1 else 0) ≠ 0 then REG_ACCESS_WR_RUNNING else REG_ACCESS_RD_RUNNING

/-- One round of `check_location_list`. -/
def checkLocation (setm : Bool) (loc : Location) (s : σ) : Except Int (Checked κ δ φ) × σ :=
  match w.id2register loc.id with
  | .error err => (.error err,s)
  | .ok reg =>
    let checked : Checked κ δ φ := ⟨loc.id,reg.ctx,none,reg.regDef,loc.offs,loc.size⟩
    if w.exited reg.ctx then (.error ERR_ALREADY_EXITED,s)
    else if accessMask w setm reg.ctx = 0 ∧ isRunning w reg.ctx = true then (.error ERR_IS_RUNNING,s)
    else if w.regSize reg.regDef < (loc.offs + loc.size).toNat then (.error ERR_INV_DATA_SIZE,s)
    else if reg.frame < 0 ∨ w.isTopFrame reg.ctx reg.frame = true then (.ok checked,s)
    else if setm then (.error ERR_INV_CONTEXT,s)
    else
      match w.getFrameInfo reg.ctx reg.frame s with
      | (.error err,s) => (.error err,s)
      | (.ok info,s) => (.ok { checked with frameInfo := some info },s)

def checkLocationList (setm : Bool) : List Location → σ → Except Int (List (Checked κ δ φ)) × σ
  | [], s => (.ok [],s)
  | loc :: rest, s =>
    match checkLocation w setm loc s with
    | (.error err,s) => (.error err,s)
    | (.ok checked,s) =>
      match checkLocationList setm rest s with
      | (.error err,s) => (.error err,s)
      | (.ok others,s) => (.ok (checked :: others),s)

def readChecked (l : Checked κ δ φ) (s : σ) : Except Int (List UInt8) :=
  match l.frameInfo with
  | none => w.contextReadReg l.ctx l.regDef l.offs.toNat l.size.toNat s
  | some info => w.readRegBytes info l.regDef l.offs.toNat l.size.toNat s

/-- The length of the reply buffer after it has grown. -/
def grown (pos len size : UInt32) : UInt32 := if len < pos + size then len + (0x100 + size) else len

/-- The loop of `command_getm_cache_client`: the blocks used, the values read before an error, and the error. -/
def getmLoop (s : σ) : UInt32 → UInt32 → List (Checked κ δ φ) → List (Access δ) × List UInt8 × Option Int
  | _, _, [] => ([],[],none)
  | pos, len, l :: rest =>
    let len := grown pos len l.size
    let used := [.reply pos.toNat l.size.toNat len.toNat,.register l.regDef l.offs.toNat l.size.toNat]
    match readChecked w l s with
    | .error err => (used,[],some err)
    | .ok value =>
      let (others,values,err) := getmLoop s (pos + l.size) len rest
      (used ++ others,value ++ values,err)

/-- The reply buffer is there before it is used. -/
def replyLen (len : UInt32) : UInt32 := if len = 0 then 0x100 else len

/-- `Registers.getm`, with a reply buffer of some length from the commands before. -/
def getm (len : UInt32) (locs : List Location) (s : σ) : List (Access δ) × List UInt8 × Option Int :=
  match checkLocationList w false locs s with
  | (.error err,_) => ([],[],some err)
  | (.ok checked,s) => getmLoop w s 0 (replyLen len) checked

/-- The loop of `command_setm_cache_client`: the blocks used, the error, the state after it and the events. -/
def setmLoop (data : List UInt8) : UInt32 → List (Checked κ δ φ) → σ → List (Access δ) × Option Int × σ × List Text
  | _, [], s => ([],none,s,[])
  | pos, l :: rest, s =>
    if 0 < l.size then
      let used := [.data pos.toNat l.size.toNat data.length,.register l.regDef l.offs.toNat l.size.toNat]
      match w.contextWriteReg l.ctx l.regDef l.offs.toNat ((data.drop pos.toNat).take l.size.toNat) s with
      | (some err,s) => (used,some err,s,[])
      | (none,s) =>
        let (others,err,s,events) := setmLoop data (pos + l.size) rest s
        (used ++ others,err,s,l.id :: events)
    else setmLoop data pos rest s

def setm (locs : List Location) (data : List UInt8) (s : σ) : List (Access δ) × Option Int × σ × List Text :=
  match checkLocationList w true locs s with
  | (.error err,s) => ([],some err,s,[])
  | (.ok checked,s) => setmLoop w data 0 checked s

/-- `Registers.get` -/
def get (id : Text) (s : σ) : Except Int (List UInt8) :=
  match w.id2register id with
  | .error err => .error err
  | .ok reg =>
    if w.exited reg.ctx then .error ERR_ALREADY_EXITED
    else if w.regAccess reg.ctx &&& REG_ACCESS_RD_RUNNING = 0 ∧ isRunning w reg.ctx = true then .error ERR_IS_RUNNING
    else if reg.frame < 0 ∨ w.isTopFrame reg.ctx reg.frame = true then w.contextReadReg reg.ctx reg.regDef 0 (w.regSize reg.regDef) s
    else
      match w.getFrameInfo reg.ctx reg.frame s with
      | (.error err,_) => .error err
      | (.ok info,s) => w.readRegBytes info reg.regDef 0 (w.regSize reg.regDef) s

/-- `Registers.set`: the error, the state after it and the events. -/
def set (id : Text) (data : List UInt8) (s : σ) : Option Int × σ × List Text :=
  match w.id2register id with
  | .error err => (some err,s,[])
  | .ok reg =>
    if 0 ≤ reg.frame ∧ w.isTopFrame reg.ctx reg.frame = false then (some ERR_INV_CONTEXT,s,[])
    else if w.exited reg.ctx then (some ERR_ALREADY_EXITED,s,[])
    else if w.regAccess reg.ctx &&& REG_ACCESS_WR_RUNNING = 0 ∧ isRunning w reg.ctx = true then (some ERR_IS_RUNNING,s,[])
    else if w.regSize reg.regDef < data.length then (some ERR_INV_DATA_SIZE,s,[])
    else if data = [] then (none,s,[])
    else
      match w.contextWriteReg reg.ctx reg.regDef 0 data s with
      | (some err,s) => (some err,s,[])
      | (none,s) => (none,s,[id])

end Commands

end Tcf.RegisterLists
