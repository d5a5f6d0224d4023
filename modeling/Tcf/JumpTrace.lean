import Mathlib.Algebra.Order.Ring.Int
import Mathlib.Data.List.Basic

/-! Jumps at the beginning of a function are followed to the first other instruction, on x86 and x86-64. -/
namespace Tcf.JumpTrace

def JMPD08 : UInt8 := 0xeb
def JMPD32 : UInt8 := 0xe9
def GRP5 : UInt8 := 0xff
def JMPN : UInt8 := 0x25
def MOVE_rm : UInt8 := 0x8b

/-- What `context_read_mem` reads, where it succeeds. -/
abbrev Memory := UInt64 → Option UInt8

def readMem (mem : Memory) (addr : UInt64) (size : Nat) : Option (List UInt8) :=
  (List.range size).mapM fun i => mem (addr + UInt64.ofNat i)

/-- A number of the host, the first byte lowest. -/
def number (buf : List UInt8) : UInt64 := buf.foldr (fun byte n => n <<< 8 ||| byte.toUInt64) 0

def readDisp08 (mem : Memory) (addr : UInt64) : Option UInt64 := (mem addr).map fun byte => byte.toInt8.toInt64.toUInt64

def readDisp32 (mem : Memory) (addr : UInt64) : Option UInt64 :=
  (readMem mem addr 4).map fun buf => (number buf).toUInt32.toInt32.toInt64.toUInt64

/-- A `ContextAddress`. -/
def readAddress (mem : Memory) (addr : UInt64) : Option UInt64 := (readMem mem addr 8).map number

/-- The parts of a ModRM byte. -/
def mod (modrm : UInt8) : UInt8 := modrm >>> 6
def reg (modrm : UInt8) : UInt8 := (modrm >>> 3) &&& 7
def rm (modrm : UInt8) : UInt8 := modrm &&& 7

def regToDwarfId32 : List Nat := [0,1,2,3,4,5,6,7]
def regToDwarfId64 : List Nat := [0,2,1,3,7,6,4,5]

def dwarfId (x64 : Bool) (reg : UInt8) : Nat := (if x64 then regToDwarfId64 else regToDwarfId32).getD reg.toNat 0

def regBit (x64 : Bool) (reg : UInt8) : UInt32 := 1 <<< UInt32.ofNat (dwarfId x64 reg)

/-- The length that `trace_jump` takes a load to have; none where it stops. -/
def moveLength (modrm : UInt8) : Option UInt64 :=
  let sib := if rm modrm = 4 then 1 else 0
  if mod modrm = 0 ∧ (rm modrm = 5 ∨ rm modrm = 6) then none
  else if mod modrm = 0 then some (2 + sib)
  else if mod modrm = 1 then some (3 + sib)
  else if mod modrm = 2 then some (6 + sib)
  else if mod modrm = 3 then some 2
  else none

/-- The body of the loop: the destination, and the bit of a register that is loaded; none where it breaks. -/
def traceStep (x64 : Bool) (mem : Memory) (addr : UInt64) : Option (UInt64 × UInt32) := do
  let instr ← mem addr
  if instr = JMPD08 then
    let disp08 ← readDisp08 mem (addr + 1)
    some (addr + 2 + disp08,0)
  else if instr = JMPD32 then
    let disp32 ← readDisp32 mem (addr + 1)
    some (addr + 5 + disp32,0)
  else if instr = GRP5 then
    let instr ← mem (addr + 1)
    if instr ≠ JMPN then none
    else
      let ptr ← readAddress mem (addr + 2)
      let dest ← readAddress mem ptr
      some (dest,0)
  else if instr = MOVE_rm then
    let modrm ← mem (addr + 1)
    if reg modrm = 4 ∨ reg modrm = 5 then none
    else
      let length ← moveLength modrm
      some (addr + length,regBit x64 (reg modrm))
  else none

/-- The loop, for a number of rounds. -/
def traceLoop (x64 : Bool) (mem : Memory) : Nat → UInt64 → UInt32 → UInt64 × UInt32
  | 0, addr, regMask => (addr,regMask)
  | cnt + 1, addr, regMask =>
    match traceStep x64 mem addr with
    | none => (addr,regMask)
    | some (dest,bit) => if dest = addr then (addr,regMask ||| bit) else traceLoop x64 mem cnt dest (regMask ||| bit)

def traceJump (x64 : Bool) (mem : Memory) (addr : UInt64) (regMask : UInt32) : UInt64 × UInt32 :=
  traceLoop x64 mem 100 addr regMask

end Tcf.JumpTrace
