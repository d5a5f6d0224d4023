import Tcf.Base.Process
import Tcf.Base.Circular
import Mathlib.Algebra.Order.Ring.Int

/-! A virtual stream of the Streams service: one circular buffer between the agent and any
number of remote clients, each with its own position and its own queues of requests. -/
namespace Tcf.Streams

open Circular

inductive StreamError where
  | eof
  | unsupported
  | noSuchStream
  | commandCancelled
  deriving DecidableEq, Repr

structure ReadRequest where
  token : Nat
  size : Nat
  deriving DecidableEq, Repr

/-- `data` is the allocated block; its length is `size`. -/
structure WriteRequest (α : Type) where
  token : Nat
  data : List α
  offs : Nat
  eos : Bool
  deriving DecidableEq, Repr

structure Client (α : Type) where
  channel : Nat
  pos : Nat
  readRequests : List ReadRequest
  writeRequests : List (WriteRequest α)
  deriving DecidableEq, Repr

/-- The reply to a command: to a read, where `none` stands for `null`, or to any other. -/
inductive Answer (α : Type) where
  | read (data : Option (List α)) (error : Option StreamError) (lost : Nat) (eos : Bool)
  | status (error : Option StreamError)
  deriving DecidableEq, Repr

structure Reply (α : Type) where
  channel : Nat
  token : Nat
  answer : Answer α
  deriving DecidableEq, Repr

/-- `pos` counts all bytes ever added; 2^64 of them are out of reach. `clients` has the newest
client first. `sent` are the replies so far. -/
structure Stream (α : Type) where
  remoteRead : Bool
  remoteWrite : Bool
  buf : Nat → α
  bufLen : Nat
  bufInp : Nat
  bufOut : Nat
  pos : Nat
  eosInp : Bool
  eosOut : Bool
  dataAvailablePosted : Bool
  spaceAvailablePosted : Bool
  clients : List (Client α)
  sent : List (Reply α)

variable {α : Type}

def Stream.len (s : Stream α) : Nat := (s.bufInp + s.bufLen - s.bufOut) % s.bufLen

def Stream.room (s : Stream α) : Nat := (s.bufOut + s.bufLen - s.bufInp - 1) % s.bufLen

def Stream.reply (s : Stream α) (channel token : Nat) (answer : Answer α) : Stream α :=
  { s with sent := s.sent ++ [⟨channel,token,answer⟩] }

/-- The cast `(unsigned)`. -/
def unsigned (n : Nat) : Nat := n % 2^32

def minPos (clients : List (Client α)) : Option Nat := (clients.map Client.pos).min?

/-- The new end of the buffer: the position of the client that is most behind. -/
def advancedOut (s : Stream α) : Code Nat :=
  let bufPos := s.pos - s.len
  match minPos s.clients with
  | none => pure s.bufInp
  | some minPos => do
    if minPos > bufPos then
      require (minPos - bufPos ≤ s.len)
      pure ((s.bufOut + unsigned (minPos - bufPos)) % s.bufLen)
    else
      require (s.pos - minPos < s.bufLen)
      pure s.bufOut

def advanceStreamBuffer (s : Stream α) : Code (Stream α) := do
  require (s.remoteRead = true)
  require (∀ client ∈ s.clients, client.pos ≤ s.pos)
  let bufOut ← advancedOut s
  let next := { s with bufOut }
  pure { next with spaceAvailablePosted := s.spaceAvailablePosted || s.len != next.len }

def createClient (s : Stream α) (channel : Nat) : Stream α :=
  { s with clients := ⟨channel,s.pos - s.len,[],[]⟩ :: s.clients }

def findClient (s : Stream α) (channel : Nat) : Option (Client α) :=
  s.clients.find? fun client => client.channel = channel

/-- A client's record replaced by the one with the same channel. -/
def Stream.setClient (s : Stream α) (client : Client α) : Stream α :=
  { s with clients := s.clients.map fun old => if old.channel = client.channel then client else old }

/-- What one read reply carries. -/
def sendReadReply (s : Stream α) (client : Client α) (token size : Nat) : Code (Stream α × Client α) := do
  require (s.len > 0 ∨ s.eosInp = true)
  require (client.pos ≤ s.pos)
  let behind := s.pos - client.pos
  let lost := if s.len < behind then behind - s.len else 0
  let len := if s.len < behind then s.len else unsigned behind
  let pos := (s.bufInp + s.bufLen - len) % s.bufLen
  let len := min len size
  let data := fetch s.buf s.bufLen pos len
  let client := { client with pos := client.pos + lost + len }
  require (client.pos ≤ s.pos)
  let eos := client.pos == s.pos && s.eosInp
  require (eos = true ∨ lost + len > 0)
  pure (s.reply client.channel token (.read (if len > 0 then some data else none) none lost eos),client)

/-- Waiting reads of one client are answered while there is something to answer with. -/
def answerReads (s : Stream α) (client : Client α) : List ReadRequest → Code (Stream α × Client α)
  | [] => pure (s,{ client with readRequests := [] })
  | r :: rest =>
    if client.pos < s.pos ∨ s.eosInp = true then do
      let (s,client) ← sendReadReply s client r.token r.size
      answerReads s client rest
    else pure (s,{ client with readRequests := r :: rest })

def answerClients (s : Stream α) : List (Client α) → Code (Stream α × List (Client α))
  | [] => pure (s,[])
  | client :: rest => do
    let (s,client) ← answerReads s client client.readRequests
    let (s,rest) ← answerClients s rest
    pure (s,client :: rest)

/-- Bytes go to the buffer as far as they fit. -/
def store (s : Stream α) (data : List α) (eos : Bool) : Stream α :=
  let taken := data.take s.room
  { s with
    buf := put s.buf s.bufLen s.bufInp taken
    bufInp := (s.bufInp + taken.length) % s.bufLen
    pos := s.pos + taken.length
    eosInp := s.eosInp || (eos && taken.length == data.length) }

/-- Readers are served, and the buffer advances with them. -/
def serveReaders (s : Stream α) : Code (Stream α) := do
  let (s,clients) ← answerClients s s.clients
  advanceStreamBuffer { s with clients }

/-- New data is for the remote readers, or for the agent. -/
def announce (s : Stream α) (size : Nat) : Code (Stream α) :=
  if s.remoteRead = true then
    if s.eosInp = true ∨ size > 0 then serveReaders s else pure s
  else pure { s with dataAvailablePosted := true }

/-- Returns the error, and how many bytes were taken. -/
def virtualStreamAddData (s : Stream α) (data : List α) (eos : Bool) :
    Code (Stream α × Option StreamError × Nat) :=
  if s.eosInp = true then
    pure (if s.remoteRead = true then s else { s with dataAvailablePosted := true },some .eof,0)
  else do
    require (s.room < s.bufLen)
    let next ← announce (store s data eos) (min s.room data.length)
    pure (next,none,min s.room data.length)

def Stream.setWrites (s : Stream α) (channel : Nat) (writeRequests : List (WriteRequest α)) : Stream α :=
  { s with
    clients := s.clients.map fun client =>
      if client.channel = channel then { client with writeRequests } else client }

/-- The oldest waiting write of a client after its data went to the buffer; after an error
all others are cancelled. -/
def finishWrite (s : Stream α) (channel : Nat) (r : WriteRequest α) (rest : List (WriteRequest α))
    (error : Option StreamError) (done : Nat) : Stream α :=
  let r := { r with offs := r.offs + done }
  if error.isSome then
    let s := s.reply channel r.token (.status error)
    (rest.foldl (fun s r => s.reply channel r.token (.status (some .commandCancelled))) s).setWrites channel []
  else if r.offs ≥ r.data.length then (s.reply channel r.token (.status none)).setWrites channel rest
  else s.setWrites channel (r :: rest)

def resumeWrite (s : Stream α) (channel : Nat) : Code (Stream α) :=
  match findClient s channel with
  | none => .error .stuck
  | some client =>
    match client.writeRequests with
    | [] => pure s
    | r :: rest => do
      let (s,error,done) ← virtualStreamAddData s (r.data.drop r.offs) r.eos
      pure (finishWrite s channel r rest error done)

def resumeWrites (s : Stream α) : Code (Stream α) :=
  if s.remoteWrite = true then (s.clients.map Client.channel).foldlM resumeWrite s else pure s

/-- The agent's reads advance the buffer where there are no remote readers. -/
def takeOut (s : Stream α) (len : Nat) (eos : Bool) : Code (Stream α) :=
  if s.remoteRead = false ∧ len > 0 then do
    let bufOut := (s.bufOut + len) % s.bufLen
    require (eos = false ∨ bufOut = s.bufInp)
    pure { s with bufOut, spaceAvailablePosted := true }
  else pure s

/-- Returns the data and the end of stream. Waiting writes go on before the buffer advances. -/
def virtualStreamGetData (s : Stream α) (size : Nat) : Code (Stream α × List α × Bool) := do
  let len := min s.len size
  let eos := if s.len > size then false else s.eosInp
  let data := fetch s.buf s.bufLen s.bufOut len
  let s ← resumeWrites { s with eosOut := s.eosOut || eos }
  let s ← takeOut s len eos
  pure (s,data,eos)

/-- `command_read`. A read waits while its client has read everything. -/
def commandRead (s : Stream α) (channel token size : Nat) : Code (Stream α) :=
  match findClient s channel with
  | none => pure (s.reply channel token (.read none (some .noSuchStream) 0 false))
  | some client =>
    if s.remoteRead = false then pure (s.reply channel token (.read none (some .unsupported) 0 false))
    else if client.pos = s.pos ∧ s.eosInp = false then
      pure (s.setClient { client with readRequests := client.readRequests ++ [⟨token,size⟩] })
    else do
      require (client.readRequests = [])
      let (s,client) ← sendReadReply s client token size
      advanceStreamBuffer (s.setClient client)

/-- The binary data of a write command. -/
structure Binary (α : Type) where
  bytes : List α
  base64 : Bool

/-- `json_read_binary_end` with data left over. -/
def readBinaryEnd (base64 : Bool) (left : List α) : Code Unit :=
  if left = [] then pure () else if base64 then .error .exception else .error .assertion

/-- A block of the given size, with bytes read to its beginning. -/
def fill (heap : Nat → α) (size : Nat) (bytes : List α) : List α :=
  (List.range size).map fun i => bytes.getD i (heap i)

/-- A write has to wait: a block is allocated for the declared size, and filled. -/
def queueWrite (s : Stream α) (client : Client α) (token : Nat) (heap : Nat → α) (size : Nat)
    (binary : Binary α) : Code (Stream α) := do
  readBinaryEnd binary.base64 (binary.bytes.drop size)
  pure (s.setWrites client.channel (client.writeRequests ++ [⟨token,fill heap size binary.bytes,0,false⟩]))

/-- Chunks of 256 bytes go to the buffer; `offs` bytes already did. `size` is the declared
size, and `heap` what a new block holds. -/
def writeLoop (client : Client α) (token : Nat) (heap : Nat → α) (size : Nat) :
    Nat → Stream α → Nat → Binary α → Code (Stream α × Option StreamError)
  | 0, _, _, _ => .error .stuck
  | fuel + 1, s, offs, binary =>
    if binary.bytes = [] then pure (s.reply client.channel token (.status none),none)
    else do
      let chunk := binary.bytes.take 256
      let (s,error,done) ← virtualStreamAddData s chunk false
      require (done ≤ chunk.length)
      let rest := { binary with bytes := binary.bytes.drop done }
      if error.isSome then pure (s,error)
      else if done < chunk.length then
        let left := size - (offs + done)
        -- the block must hold what is left of the chunk
        if size < offs + done ∨ left < chunk.length - done then .error .fault
        else do
          let s ← queueWrite s client token heap left rest
          pure (s,none)
      else writeLoop client token heap size fuel s (offs + done) rest

def virtualStreamWrite (s : Stream α) (channel token : Nat) (heap : Nat → α) (size : Nat)
    (binary : Binary α) : Code (Stream α × Option StreamError) :=
  match findClient s channel with
  | none => pure (s,some .noSuchStream)
  | some client =>
    if s.remoteWrite = false then pure (s,some .unsupported)
    else if client.writeRequests ≠ [] then do
      let s ← queueWrite s client token heap size binary
      pure (s,none)
    else writeLoop client token heap size (binary.bytes.length + 1) s 0 binary

def virtualStreamEos (s : Stream α) (channel token : Nat) : Code (Stream α × Option StreamError) :=
  match findClient s channel with
  | none => pure (s,some .noSuchStream)
  | some client =>
    if s.remoteWrite = false then pure (s,some .unsupported)
    else if client.writeRequests ≠ [] then
      pure (s.setWrites channel (client.writeRequests ++ [⟨token,[],0,true⟩]),none)
    else do
      let (s,error,_) ← virtualStreamAddData s [] true
      pure (if error.isSome then s else s.reply channel token (.status none),error)

/-- The commands answer an error; otherwise the reply was sent, or waits. -/
def answerError (channel token : Nat) : Stream α × Option StreamError → Stream α
  | (s,none) => s
  | (s,some error) => s.reply channel token (.status (some error))

def commandWrite (s : Stream α) (channel token : Nat) (heap : Nat → α) (size : Nat) (binary : Binary α) :
    Code (Stream α) := do
  pure (answerError channel token (← virtualStreamWrite s channel token heap size binary))

def commandEos (s : Stream α) (channel token : Nat) : Code (Stream α) := do
  pure (answerError channel token (← virtualStreamEos s channel token))

def commandConnect (s : Stream α) (channel token : Nat) : Stream α :=
  (if findClient s channel = none then createClient s channel else s).reply channel token (.status none)

/-- Requests that still wait are cancelled. -/
def deleteClient (s : Stream α) (client : Client α) : Code (Stream α) :=
  let s : Stream α := { s with clients := s.clients.filter fun other => other.channel ≠ client.channel }
  let s : Stream α := client.readRequests.foldl
    (fun s r => s.reply client.channel r.token (.read none (some .commandCancelled) 0 true)) s
  let s : Stream α := client.writeRequests.foldl
    (fun s r => s.reply client.channel r.token (.status (some .commandCancelled))) s
  if s.remoteRead = true then advanceStreamBuffer s else pure s

def commandDisconnect (s : Stream α) (channel token : Nat) : Code (Stream α) :=
  match findClient s channel with
  | none => pure (s.reply channel token (.status (some .noSuchStream)))
  | some client => do
    let s ← deleteClient s client
    pure (s.reply channel token (.status none))

/-- `virtual_stream_create`, without subscribers. One cell of the buffer stays free. -/
def virtualStreamCreate (remoteRead remoteWrite : Bool) (bufLen : Nat) (heap : Nat → α) : Stream α where
  remoteRead := remoteRead
  remoteWrite := remoteWrite
  buf := heap
  bufLen := bufLen + 1
  bufInp := 0
  bufOut := 0
  pos := 0
  eosInp := false
  eosOut := false
  dataAvailablePosted := false
  spaceAvailablePosted := false
  clients := []
  sent := []

end Tcf.Streams
