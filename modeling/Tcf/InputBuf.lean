import Tcf.Base.Process
import Tcf.Base.Circular
import Tcf.Framing

/-! The circular input buffer of a channel. Received bytes are scanned once on
arrival, to count messages, and again when a message handler reads them. -/
namespace Tcf

open Framing

structure InputBuf.Build where
  memUsageFactor : Nat
  positive : 0 < memUsageFactor
  inputQueue : Bool
  int : IntShift

inductive InputBuf.HandleMsg where
  | idle
  | triggered
  | active
  deriving DecidableEq, Repr

/-- `cur` and `stop` are `stream->cur` and `stream->end`; positions are offsets in
`buf`. `readPending` holds `read_buf` and `read_buf_size` of the posted read. -/
structure InputBuf where
  bufSize : Nat
  buf : Nat → UInt8
  inp : Nat
  cur : Nat
  stop : Nat
  inpEsc : Bool
  outEsc : Bool
  eof : Bool
  longMsg : Bool
  messageCount : Nat
  handlingMsg : InputBuf.HandleMsg
  outSizeMode : Nat
  outDataSize : Nat
  inpSizeMode : Nat
  inpDataSize : Nat
  readPending : Option (Nat × Nat)

namespace InputBuf

def tcpTriggerMessage (b : InputBuf) : Code InputBuf := do
  require (b.messageCount > 0)
  pure (if b.handlingMsg = .idle then { b with handlingMsg := .triggered } else b)

def ibufNewMessage (b : InputBuf) : Code InputBuf :=
  tcpTriggerMessage { b with messageCount := b.messageCount + 1 }

/-- End of stream is counted as one more message. -/
def ibufEof (b : InputBuf) : Code InputBuf :=
  if b.eof then pure b else ibufNewMessage { b with eof := true }

def ibufFreeSize (b : InputBuf) : Code (InputBuf × Nat) := do
  if b.eof then pure (b,0)
  else
    let b ← if b.cur = b.bufSize then do
        require (b.cur = b.stop)
        pure { b with cur := 0, stop := 0 }
      else pure b
    require (b.inp < b.bufSize)
    if b.cur ≤ b.inp then
      let size := b.bufSize - b.inp
      pure (b,if b.cur = 0 then size - 1 else size)
    else pure (b,b.cur - b.inp - 1)

def tcpPostRead (b : InputBuf) (position size : Nat) : InputBuf :=
  if b.readPending.isSome then b else { b with readPending := some (position,size) }

def ibufTriggerRead (b : InputBuf) : Code InputBuf := do
  let (b,size) ← ibufFreeSize b
  if size > 0 then
    require (b.inp + size ≤ b.bufSize)
    pure (tcpPostRead b b.inp size)
  else pure b

def wrap (b : InputBuf) (position : Nat) : Nat :=
  if position ≥ b.bufSize then position - b.bufSize else position

/-- Memory and posted read at the moment a read completes. -/
def received (b : InputBuf) (position : Nat) (bytes : List UInt8) : InputBuf :=
  { b with buf := Circular.store b.buf position bytes, readPending := none }

variable (w : Build)

/-- The byte after ESC, when it is received. -/
def readEscape (b : InputBuf) (ch : UInt8) : Code InputBuf :=
  match ch with
  | 0 => pure b
  | 1 =>
    if b.longMsg then do
      require (b.messageCount = 1)
      pure { b with longMsg := false }
    else ibufNewMessage b
  | 2 => ibufEof b
  | 3 => pure { b with inpSizeMode := 1, inpDataSize := 0 }
  | _ => ibufEof b

/-- One pass of the scan in `ibuf_read_done`: the next position and length. -/
def readDoneStep (b : InputBuf) (inp len : Nat) : Code (InputBuf × Nat × Nat) :=
  if b.inpSizeMode ≠ 0 then do
    require (b.inpEsc = false)
    let ch := b.buf inp
    let b := { b with
      inpDataSize := b.inpDataSize ||| w.int.shl (ch &&& 0x7f).toNat ((b.inpSizeMode - 1) * 7)
      inpSizeMode := if ch &&& 0x80 = 0 then 0 else b.inpSizeMode + 1 }
    pure (b,wrap b (inp + 1),len - 1)
  else if b.inpDataSize > 0 then do
    require (b.inpEsc = false)
    if b.inpDataSize < len then
      pure ({ b with inpDataSize := 0 },wrap b (inp + b.inpDataSize),len - b.inpDataSize)
    else pure ({ b with inpDataSize := b.inpDataSize - len },wrap b (inp + len),0)
  else do
    let ch := b.buf inp
    let next := wrap b (inp + 1)
    if b.inpEsc then pure (← readEscape { b with inpEsc := false } ch,next,len - 1)
    else if ch = ESC then pure ({ b with inpEsc := true },next,len - 1)
    else pure (b,next,len - 1)

/-- Every pass takes at least one byte, so `len` passes are enough. -/
def readDoneLoop : Nat → InputBuf → Nat → Nat → Code (InputBuf × Nat)
  | 0, b, inp, _ => pure (b,inp)
  | fuel + 1, b, inp, len =>
    if len = 0 then pure (b,inp)
    else do
      let (b,inp,len) ← readDoneStep w b inp len
      readDoneLoop fuel b inp len

/-- The contents moved to a buffer of twice the size. -/
def grow (b : InputBuf) : InputBuf :=
  let size := b.bufSize - b.cur
  { b with
    buf := fun i => if i < size then b.buf (b.cur + i) else b.buf (i - size)
    inp := b.bufSize - 1
    bufSize := b.bufSize * 2
    cur := 0
    stop := b.stop - b.cur }

def growIfFull (b : InputBuf) : Code InputBuf := do
  if w.inputQueue ∧ b.eof = false then
    let (b,size) ← ibufFreeSize b
    pure (if size = 0 ∧ b.bufSize < 0x1000000 then grow b else b)
  else pure b

def ibufReadDone (b : InputBuf) (len : Nat) : Code InputBuf := do
  if len = 0 then ibufEof b
  else
    require (b.eof = false)
    let (b,inp) ← readDoneLoop w len b b.inp len
    let b ← growIfFull w { b with inp }
    let (b,size) ← ibufFreeSize b
    if size > 0 then ibufTriggerRead b
    else if b.messageCount = 0 then ibufNewMessage { b with longMsg := true }
    else pure b

def ibufStartMessage (b : InputBuf) : Code (InputBuf × Int) := do
  require (b.handlingMsg = .triggered)
  if b.messageCount = 0 then pure ({ b with handlingMsg := .idle },0)
  else if b.eof then pure ({ b with handlingMsg := .idle },-1)
  else pure ({ b with handlingMsg := .active },1)

/-- What one pass of the loop in `ibuf_get_more` does. -/
inductive More where
  | again (b : InputBuf) (out : Nat)
  | got (b : InputBuf) (ch : Item)
  | wait (b : InputBuf)

/-- Position of the first ESC in a run of plain data, or its limit. -/
def plainEnd (buf : Nat → UInt8) (max : Nat) : Nat → Nat → Nat
  | 0, out => out
  | fuel + 1, out => if out ≠ max ∧ buf out ≠ ESC then plainEnd buf max fuel (out + 1) else out

def got (b : InputBuf) (ch : Item) : Code More := do pure (.got (← ibufTriggerRead b) ch)

/-- The end of an escape sequence; peeking leaves it in place. -/
def gotEscape (b : InputBuf) (peeking : Bool) (out : Nat) (ch : Item) : Code More :=
  if peeking then got { b with cur := out, stop := out } ch
  else got { b with outEsc := false, cur := out + 1, stop := out + 1 } ch

def endMessage (b : InputBuf) : Code InputBuf := do
  let b := { b with messageCount := b.messageCount - 1, handlingMsg := .idle }
  if b.messageCount ≠ 0 then tcpTriggerMessage b else pure b

/-- One pass with data available at `out`. -/
def dataAvailable (peeking : Bool) (b : InputBuf) (out : Nat) : Code More := do
  let ch := b.buf out
  if b.outSizeMode ≠ 0 then
    require (b.outEsc = false)
    let b := { b with
      outDataSize := b.outDataSize ||| w.int.shl (ch &&& 0x7f).toNat ((b.outSizeMode - 1) * 7)
      outSizeMode := if ch &&& 0x80 = 0 then 0 else b.outSizeMode + 1 }
    pure (.again b (out + 1))
  else if b.outDataSize > 0 then
    require (b.outEsc = false)
    let max := if out + 1 ≤ b.inp then b.inp else b.bufSize
    let taken := if max - out < b.outDataSize then max - out else b.outDataSize
    got { b with
      outDataSize := b.outDataSize - taken
      cur := if peeking then out else out + 1
      stop := out + taken } (.byte ch)
  else if b.outEsc then
    match ch with
    | 0 => gotEscape b peeking out (.byte ESC)
    | 1 => gotEscape (← if peeking then pure b else endMessage b) peeking out .eom
    | 2 => gotEscape b peeking out .eos
    | 3 => pure (.again { b with outSizeMode := 1, outDataSize := 0, outEsc := false } (out + 1))
    -- "this should never happen": the source asserts 0
    | _ => .error .assertion
  else if ch ≠ ESC then
    let max := if out + 1 ≤ b.inp then b.inp else b.bufSize
    let stop := plainEnd b.buf max (max - (out + 1)) (out + 1)
    let cur := if peeking then out else out + 1
    require (cur ≤ stop)
    got { b with cur, stop } (.byte ch)
  else pure (.again { b with outEsc := true } (out + 1))

def getMoreStep (peeking : Bool) (b : InputBuf) (out : Nat) : Code More := do
  let out := if out = b.bufSize then 0 else out
  if out = b.inp then
    require (b.longMsg = true ∨ b.eof = true)
    let b := { b with cur := out }
    if b.eof then pure (.got b .eos)
    else
      require (b.messageCount = 1)
      pure (.wait (← ibufTriggerRead b))
  else dataAvailable w peeking b out

/-- Each pass consumes a buffered byte. Nothing is returned while the reader waits
for more input; it then resumes at `cur`. -/
def getMoreLoop (peeking : Bool) : Nat → InputBuf → Nat → Code (InputBuf × Option Item)
  | 0, _, _ => .error .stuck
  | fuel + 1, b, out => do
    match ← getMoreStep w peeking b out with
    | .again b out => getMoreLoop peeking fuel b out
    | .got b ch => pure (b,some ch)
    | .wait b => pure (b,none)

def resume (b : InputBuf) (peeking : Bool) : Code (InputBuf × Option Item) :=
  getMoreLoop w peeking (b.bufSize + 1) b b.cur

def ibufGetMore (b : InputBuf) (peeking : Bool) : Code (InputBuf × Option Item) := do
  require (b.messageCount > 0)
  require (b.handlingMsg = .active)
  require (b.cur ≤ b.bufSize)
  require (b.cur = b.stop)
  resume w b peeking

/-- `read_stream` and `peek_stream`. -/
def readStream (b : InputBuf) (peeking : Bool) : Code (InputBuf × Option Item) :=
  if b.cur < b.stop then
    pure ({ b with cur := if peeking then b.cur else b.cur + 1 },some (.byte (b.buf b.cur)))
  else ibufGetMore w b peeking

def ibufInit : InputBuf where
  bufSize := 128 * w.memUsageFactor
  buf := fun _ => 0
  inp := 0
  cur := 0
  stop := 0
  inpEsc := false
  outEsc := false
  eof := false
  longMsg := false
  messageCount := 0
  handlingMsg := .idle
  outSizeMode := 0
  outDataSize := 0
  inpSizeMode := 0
  inpDataSize := 0
  readPending := none

end InputBuf

end Tcf
