import Tcf.InputBufCount

/-! The input side of a TCP channel: reads complete, messages start, and their handler
reads or peeks until the end of the message or of the stream. -/
namespace Tcf.ChannelInput

open Framing InputBuf

/-- What a handler got, and whether it peeked. -/
abbrev Got := Bool × Item

/-- The buffer, the handler, and what they did: bytes received so far and, for each
message handed out, newest first, what its handler got. A reader that waits for input
keeps its peeking flag in `waiting`. -/
structure Chan where
  b : InputBuf
  reading : Bool
  waiting : Option Bool
  arrived : List UInt8
  closed : Bool
  handed : List (List Got)

inductive Event where
  | arrive (bytes : List UInt8)
  | start
  | read (peeking : Bool)
  deriving DecidableEq, Repr

def record : List (List Got) → Got → List (List Got)
  | current :: past, entry => (current ++ [entry]) :: past
  | [], _ => []

/-- A handler is done after the marker of its message, or of the stream. -/
def goesOn (peeking : Bool) : Item → Bool
  | .byte _ => true
  | .eom => peeking
  | .eos => false

def deliver (s : Chan) (peeking : Bool) : InputBuf × Option Item → Chan
  | (b,none) => { s with b, waiting := some peeking }
  | (b,some item) => { s with
      b, waiting := none, reading := goesOn peeking item, handed := record s.handed (peeking,item) }

variable (w : Build)

/-- `tcp_channel_read_done`; a reader in `tcp_wait_read` then goes on. A read of no
bytes is a closed connection. -/
def channelReadDone (s : Chan) (bytes : List UInt8) : Code Chan :=
  match s.b.readPending with
  | none => .error .stuck
  | some (position,_) => do
    let b ← ibufReadDone w (received s.b position bytes) bytes.length
    let s := { s with b, arrived := s.arrived ++ bytes, closed := s.closed || bytes.isEmpty }
    match s.waiting with
    | none => pure s
    | some peeking => pure (deliver s peeking (← resume w b peeking))

def handleChannelMsg (s : Chan) : Code Chan := do
  require (s.b.handlingMsg = .triggered)
  require (s.b.messageCount ≠ 0)
  let (b,hasMsg) ← ibufStartMessage s.b
  pure (if hasMsg > 0 then { s with b, reading := true, handed := [] :: s.handed } else { s with b })

def handlerReads (s : Chan) (peeking : Bool) : Code Chan := do
  pure (deliver s peeking (← readStream w s.b peeking))

def fits (s : Chan) (bytes : List UInt8) : Prop := ∃ posted ∈ s.b.readPending, bytes.length ≤ posted.2

instance (s : Chan) (bytes : List UInt8) : Decidable (fits s bytes) :=
  decidable_of_iff ((s.b.readPending.any fun posted => bytes.length ≤ posted.2) = true)
    (by simp [fits,Option.any_eq_true])

def process : Process Chan Event where
  enabled s
    | .arrive bytes => fits s bytes
    | .start => s.b.handlingMsg = .triggered ∧ s.reading = false ∧ s.waiting = none
    | .read _ => s.reading = true ∧ s.waiting = none
  decide s e := by cases e <;> infer_instance
  step s
    | .arrive bytes => channelReadDone w s bytes
    | .start => handleChannelMsg s
    | .read peeking => handlerReads w s peeking

/-- A started channel, with its first read posted. -/
def initial : Chan where
  b := tcpPostRead (ibufInit w) 0 (128 * w.memUsageFactor - 1)
  reading := false
  waiting := none
  arrived := []
  closed := false
  handed := []

/-- A build for a target: a buffer of 256 bytes that is never enlarged. -/
def targetBuild : Build where
  memUsageFactor := 2
  positive := by decide
  inputQueue := false
  int := wideShift

end Tcf.ChannelInput
