import Tcf.Base.Process
import Tcf.Base.Circular
import Tcf.Base.Monitor

/-! Output queues of channels: buffers linked in lists, one of them at a time being written,
and a pool of free buffers that all queues share. -/
namespace Tcf.OutputQueue

open Circular

/-- `OUTPUT_QUEUE_BUF_SIZE`. -/
structure Build where
  bufSize : Nat
  positive : 0 < bufSize

structure OutputBuffer (α : Type) where
  buf : Nat → α
  bufLen : Nat
  bufPos : Nat

structure Queue where
  error : Int
  queue : List Nat
  deriving DecidableEq, Repr

/-- A write request: the buffer, the place in it and the bytes that were there when it was posted. -/
structure Posted (α : Type) where
  id : Nat
  pos : Nat
  bytes : List α
  deriving DecidableEq, Repr

inductive Entry (α : Type) where
  | added (bytes : List α)
  | posted (request : Posted α)
  | completed (size : Nat)
  | failed
  deriving DecidableEq, Repr

/-- Buffers are known by their addresses; those from `fresh` on were never allocated. `held`
are the buffers that the channels fill, and `log` has what happened on each queue. -/
structure World (α : Type) where
  heap : Nat → OutputBuffer α
  fresh : Nat
  pool : List Nat
  poolSize : Nat
  held : List Nat
  queues : Nat → Queue
  log : Nat → List (Entry α)

/-- `MAX_POOL_SIZE` -/
def maxPoolSize : Nat := 32

variable {α : Type}

def World.setBuf (w : World α) (id : Nat) (bf : OutputBuffer α) : World α :=
  { w with heap := Function.update w.heap id bf }

def World.setQueue (w : World α) (k : Nat) (queue : List Nat) : World α :=
  { w with queues := Function.update w.queues k { w.queues k with queue } }

def World.record (w : World α) (k : Nat) (e : Entry α) : World α :=
  { w with log := Function.update w.log k (w.log k ++ [e]) }

/-- The bytes of a buffer that are still to be written. -/
def OutputBuffer.range (bf : OutputBuffer α) : List α := block bf.buf bf.bufPos (bf.bufLen - bf.bufPos)

def outputQueueAllocObuf [Inhabited α] (w : World α) : World α × Nat :=
  match w.pool with
  | [] => ({ w with fresh := w.fresh + 1 }.setBuf w.fresh ⟨fun _ => default,0,0⟩,w.fresh)
  | id :: rest =>
    ({ w with pool := rest, poolSize := w.poolSize - 1 }.setBuf id { w.heap id with bufPos := 0, bufLen := 0 },id)

def outputQueueFreeObuf (w : World α) (id : Nat) : World α :=
  if w.poolSize < maxPoolSize then { w with pool := w.pool ++ [id], poolSize := w.poolSize + 1 } else w

def postIoRequest (w : World α) (k id : Nat) : World α :=
  w.record k (.posted ⟨id,(w.heap id).bufPos,(w.heap id).range⟩)

/-- A buffer goes to the end of a queue, and is posted when it is the first one. -/
def addLast (w : World α) (k id : Nat) : World α :=
  let w := (w.setBuf id { w.heap id with bufPos := 0 }).setQueue k ((w.queues k).queue ++ [id])
  if (w.queues k).queue.head? = some id then postIoRequest w k id else w

/-- The comparison of the list's ends: there is a buffer besides the one being written. -/
def Queue.behind (q : Queue) : Prop := q.queue.head? ≠ q.queue.getLast?

instance (q : Queue) : Decidable q.behind := inferInstanceAs (Decidable (_ ≠ _))

def Queue.last (q : Queue) : Nat := q.queue.getLastD 0

def Queue.first (q : Queue) : Nat := q.queue.headD 0

/-- Bytes copied to the end of a buffer. -/
def OutputBuffer.append (bf : OutputBuffer α) (data : List α) : OutputBuffer α :=
  { bf with buf := store bf.buf bf.bufLen data, bufLen := bf.bufLen + data.length }

def outputQueueAddObuf (b : Build) (w : World α) (k id : Nat) : Code (World α) :=
  if (w.queues k).behind then do
    let last := (w.queues k).last
    require ((w.heap last).bufPos = 0)
    let bf := w.heap id
    if b.bufSize - (w.heap last).bufLen ≥ bf.bufLen then
      pure (outputQueueFreeObuf (w.setBuf last ((w.heap last).append (block bf.buf 0 bf.bufLen))) id)
    else pure (addLast w k id)
  else pure (addLast w k id)

/-- The loop of `output_queue_add`: a new buffer for each block of data. -/
def addBlocks [Inhabited α] (b : Build) (k : Nat) : Nat → World α → List α → Code (World α)
  | 0, _, _ => .error .stuck
  | fuel + 1, w, data =>
    if data = [] then pure w
    else
      let (w,id) := outputQueueAllocObuf w
      let len := min data.length b.bufSize
      let bf := w.heap id
      let w := w.setBuf id { bf with buf := store bf.buf 0 (data.take len), bufLen := len }
      addBlocks b k fuel (addLast w k id) (data.drop len)

/-- What fits goes to the last buffer. Returns the rest. -/
def appendLast (b : Build) (w : World α) (k : Nat) (data : List α) : Code (World α × List α) :=
  if (w.queues k).behind then do
    let last := (w.queues k).last
    require ((w.heap last).bufPos = 0)
    let gap := b.bufSize - (w.heap last).bufLen
    pure (w.setBuf last ((w.heap last).append (data.take gap)),data.drop gap)
  else pure (w,data)

def outputQueueAdd [Inhabited α] (b : Build) (w : World α) (k : Nat) (data : List α) : Code (World α) :=
  if (w.queues k).error ≠ 0 then pure w
  else do
    let (w,rest) ← appendLast b w k data
    addBlocks b k (rest.length + 1) w rest

def outputQueueClear (w : World α) (k : Nat) : World α :=
  ((w.queues k).queue.foldl outputQueueFreeObuf w).setQueue k []

/-- The first buffer after some of its bytes were written. -/
def advanceFirst (w : World α) (k size : Nat) : World α :=
  let bf := w.heap (w.queues k).first
  let moved := w.setBuf (w.queues k).first { bf with bufPos := bf.bufPos + size }
  if bf.bufPos + size < bf.bufLen then moved
  else outputQueueFreeObuf (moved.setQueue k (w.queues k).queue.tail) (w.queues k).first

def postFirst (w : World α) (k : Nat) : World α :=
  if (w.queues k).queue = [] then w else postIoRequest w k (w.queues k).first

def outputQueueDone (w : World α) (k : Nat) (error : Int) (size : Nat) : Code (World α) := do
  require ((w.queues k).error = 0)
  if error ≠ 0 then
    pure (postFirst (outputQueueClear { w with
      queues := Function.update w.queues k { w.queues k with error } } k) k)
  else pure (postFirst (advanceFirst w k size) k)

/-- What can be seen of a queue: the bytes that wait, the bytes that went out, and the
request being served. -/
structure Wire (α : Type) where
  pending : List α
  sent : List α
  inFlight : Option (Posted α)
  failed : Bool

def Wire.allows (s : Wire α) : Entry α → Prop
  | .added _ => s.failed = false
  | .posted request => s.failed = false ∧ s.inFlight = none ∧ request.bytes <+: s.pending
  | .completed size => ∃ request, s.inFlight = some request ∧ size ≤ request.bytes.length
  | .failed => s.inFlight ≠ none

def Wire.next (s : Wire α) : Entry α → Wire α
  | .added bytes => { s with pending := s.pending ++ bytes }
  | .posted request => { s with inFlight := some request }
  | .completed size => { s with
      pending := s.pending.drop size
      sent := s.sent ++ (s.inFlight.elim [] Posted.bytes).take size
      inFlight := none }
  | .failed => { s with pending := [], inFlight := none, failed := true }

def wire (α : Type) : Monitor (Wire α) (Entry α) := ⟨Wire.allows,Wire.next⟩

def Wire.idle : Wire α := ⟨[],[],none,false⟩

def World.wire (w : World α) (k : Nat) : Wire α := (OutputQueue.wire α).after .idle (w.log k)

inductive Event (α : Type) where
  | alloc
  | fill (id : Nat) (data : List α)
  | release (id : Nat)
  | add (k : Nat) (data : List α)
  | addObuf (k id : Nat)
  | done (k : Nat) (error : Int) (size : Nat)
  deriving DecidableEq, Repr

/-- A request that was posted is completed, in part or with an error. -/
def Completes (w : World α) (k : Nat) (error : Int) (size : Nat) : Prop :=
  match (w.wire k).inFlight with
  | none => False
  | some request => error = 0 → size ≤ request.bytes.length

instance (w : World α) (k : Nat) (error : Int) (size : Nat) : Decidable (Completes w k error size) :=
  match h : (w.wire k).inFlight with
  | none => isFalse (by simp [Completes,h])
  | some request => decidable_of_iff (error = 0 → size ≤ request.bytes.length) (by simp [Completes,h])

def Enabled (b : Build) (w : World α) : Event α → Prop
  | .alloc => True
  | .fill id data => id ∈ w.held ∧ data.length ≤ b.bufSize
  | .release id => id ∈ w.held
  | .add _ _ => True
  | .addObuf _ id => id ∈ w.held ∧ (w.heap id).bufLen ≤ b.bufSize
  | .done k error size => Completes w k error size

instance (b : Build) (w : World α) (e : Event α) : Decidable (Enabled b w e) :=
  match e with
  | .alloc => isTrue trivial
  | .fill id data => inferInstanceAs (Decidable (id ∈ w.held ∧ data.length ≤ b.bufSize))
  | .release id => inferInstanceAs (Decidable (id ∈ w.held))
  | .add _ _ => isTrue trivial
  | .addObuf _ id => inferInstanceAs (Decidable (id ∈ w.held ∧ (w.heap id).bufLen ≤ b.bufSize))
  | .done k error size => inferInstanceAs (Decidable (Completes w k error size))

/-- All bytes that a log says were added. -/
def added (log : List (Entry α)) : List α :=
  log.flatMap fun e => match e with
    | .added bytes => bytes
    | _ => []

/-- A channel does not flush its buffer to a queue that failed: it has the error itself. -/
def Healthy (w : World α) : Event α → Prop
  | .addObuf k _ => (w.queues k).error = 0
  | _ => True

instance (w : World α) (e : Event α) : Decidable (Healthy w e) :=
  match e with
  | .addObuf k _ => inferInstanceAs (Decidable ((w.queues k).error = 0))
  | .alloc => isTrue trivial
  | .fill _ _ => isTrue trivial
  | .release _ => isTrue trivial
  | .add _ _ => isTrue trivial
  | .done _ _ _ => isTrue trivial

/-- Bytes handed to a queue without an error are its to deliver. -/
def World.noteAdded (w : World α) (k : Nat) (bytes : List α) : World α :=
  if (w.queues k).error = 0 then w.record k (.added bytes) else w

def World.step [Inhabited α] (b : Build) (w : World α) : Event α → Code (World α)
  | .alloc =>
    let (next,id) := outputQueueAllocObuf w
    pure { next with held := next.held ++ [id] }
  | .fill id data =>
    pure (w.setBuf id { w.heap id with buf := store (w.heap id).buf 0 data, bufLen := data.length })
  | .release id => pure (outputQueueFreeObuf { w with held := w.held.erase id } id)
  | .add k data => outputQueueAdd b (w.noteAdded k data) k data
  | .addObuf k id =>
    let bytes := block (w.heap id).buf 0 (w.heap id).bufLen
    outputQueueAddObuf b ({ w with held := w.held.erase id }.noteAdded k bytes) k id
  | .done k error size =>
    outputQueueDone (w.record k (if error ≠ 0 then .failed else .completed size)) k error size

def process (α : Type) [Inhabited α] (b : Build) : Process (World α) (Event α) where
  enabled := Enabled b
  decide _ _ := inferInstance
  step := World.step b

def World.start [Inhabited α] : World α :=
  ⟨fun _ => ⟨fun _ => default,0,0⟩,0,[],0,[],fun _ => ⟨0,[]⟩,fun _ => []⟩

end Tcf.OutputQueue
