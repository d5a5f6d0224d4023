import Tcf.Base.Process
import Mathlib.Data.List.Basic

/-! The command `fill` of the memory service: the pattern is read into a buffer, the buffer grows, and is written again and again. -/
namespace Tcf.MemoryFill

abbrev Memory := Nat → UInt8

/-- Of `MemoryCommandArgs`: `buf` holds the first `pos` bytes of the buffer, `max` is its allocated length. -/
structure MemoryCommandArgs where
  addr : BitVec 64
  size : BitVec 64
  buf : List UInt8
  max : Nat
  deriving DecidableEq, Repr

def BUF_SIZE : Nat := 128 * 32

/-- Bytes are put behind those that are in the buffer, which has to have room for them. -/
def MemoryCommandArgs.put (args : MemoryCommandArgs) (bytes : List UInt8) : Code MemoryCommandArgs :=
  if args.buf.length + bytes.length ≤ args.max then .ok { args with buf := args.buf ++ bytes } else .error .fault

def readMemoryFillArrayCb (args : MemoryCommandArgs) (value : Nat) : Code MemoryCommandArgs :=
  (if args.buf.length ≥ args.max then { args with max := if args.max = 0 then BUF_SIZE else args.max * 2 } else args).put [UInt8.ofNat value]

/-- The size is an `int`, and an `unsigned long` from then on. -/
def readCommandArgs (addr : BitVec 64) (size : Nat) (values : List Nat) : Code MemoryCommandArgs :=
  values.foldlM readMemoryFillArrayCb ⟨addr,(BitVec.ofNat 32 size).signExtend 64,[],0⟩

/-- Every round but the first doubles the bytes that are in the buffer. -/
def grow : Nat → MemoryCommandArgs → Code MemoryCommandArgs
  | 0, _ => .error .stuck
  | rounds+1, args =>
    if args.buf.length < args.size.toNat ∧ args.buf.length ≤ args.max / 2 then do
      let args ← args.put (if args.buf.length = 0 then [0] else args.buf)
      grow rounds args
    else .ok args

/-- `write` is `context_write_mem`: the memory behind it, and an error code. -/
def memoryFillCacheClient (write : Memory → BitVec 64 → List UInt8 → Memory × Nat) (args : MemoryCommandArgs) :
    Nat → Memory → BitVec 64 → Code (Memory × Nat)
  | 0, _, _ => .error .stuck
  | rounds+1, memory, addr =>
    if addr < args.addr + args.size then
      let wr := min ((args.addr + args.size - addr).setWidth 32).toNat args.buf.length
      let written := write memory addr (args.buf.take wr)
      if written.2 ≠ 0 then .ok written
      else memoryFillCacheClient write args rounds written.1 (addr + BitVec.ofNat 64 wr)
    else .ok (memory,0)

/-- The command for a context that is there and has stopped. The buffer grows in less than `max + 2` rounds. -/
def commandFill (write : Memory → BitVec 64 → List UInt8 → Memory × Nat) (addr : BitVec 64) (size : Nat) (values : List Nat) (rounds : Nat)
    (memory : Memory) : Code (Memory × Nat) := do
  let args ← readCommandArgs addr size values
  let args ← grow (args.max + 2) args
  memoryFillCacheClient write args rounds memory args.addr

/-- A write that succeeds. -/
def store (memory : Memory) (addr : BitVec 64) (bytes : List UInt8) : Memory × Nat :=
  (fun a => if addr.toNat ≤ a ∧ a < addr.toNat + bytes.length then bytes.getD (a - addr.toNat) 0 else memory a,0)

end Tcf.MemoryFill
