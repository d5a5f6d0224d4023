import Tcf.StreamsRead

/-! The dynamic printf service: text of committed evaluations goes to a stream of the client, and to a list of buffers
when there is no room. -/
namespace Tcf.DPrintf

open Streams (Session)

/-- A `Buffer`; `size` is the length of `buf`. -/
structure Buffer where
  buf : List UInt8
  done : Nat
  deriving DecidableEq, Repr

def Buffer.left (b : Buffer) : List UInt8 := b.buf.drop b.done

/-- `tmp` is what was printed since the last attempt began. `committed` is only for proofs: the text of all commits. -/
structure Client where
  channel : Nat
  session : Session UInt8
  bufs : List Buffer
  tmp : List UInt8
  committed : List UInt8

/-- `runCtrlLocks` counts the calls of `run_ctrl_lock` minus those of `run_ctrl_unlock`. -/
structure State where
  clients : List Client
  runCtrlLocks : Int

def State.initial : State := ⟨[],0⟩

/-- `virtual_stream_add_data`, with the bytes that it takes. -/
def addData (t : Session UInt8) (data : List UInt8) : Code (Session UInt8 × Nat) := do
  let (s,error,done) ← Streams.virtualStreamAddData t.stream data false
  pure (t.goOn [.added (data.take done) (error.isNone && false && done == data.length)] s,done)

/-- `dprintf_expression_ctx` for the client of a channel, with the text that its format and arguments make. -/
def dprintfExpressionCtx (clients : List Client) (channel : Nat) (text : List UInt8) : List Client :=
  clients.map fun client => if client.channel = channel then { client with tmp := client.tmp ++ text } else client

/-- A callback with the number of locks. -/
abbrev Callback := Int → Client → Code (Int × Client)

/-- The callback of `virtual_stream_create`, after `notify_space_available`. -/
def streamsCallback : Callback := fun locks client =>
  match client.bufs with
  | [] => pure (locks,client)
  | b :: rest => do
    let (session,done) ← addData client.session b.left
    let b := { b with done := b.done + done }
    if b.done ≥ b.buf.length then pure (if rest = [] then locks - 1 else locks,{ client with session, bufs := rest })
    else pure (locks,{ client with session, bufs := b :: rest })

def notifySpaceAvailable : Callback := fun locks client =>
  let stream := { client.session.stream with spaceAvailablePosted := false }
  let client := { client with session := { client.session with stream } }
  if stream.eosInp then pure (locks,client) else streamsCallback locks client

/-- `CTLE_COMMIT` -/
def commit : Callback := fun locks client =>
  if client.tmp = [] then pure (locks,client)
  else do
    let (session,done) ← addData client.session client.tmp
    let committed := client.committed ++ client.tmp
    if done < client.tmp.length then
      pure (if client.bufs = [] then locks + 1 else locks,
        { client with session, committed, bufs := client.bufs ++ [⟨client.tmp.drop done,0⟩] })
    else pure (locks,{ client with session, committed })

/-- The clients that a condition is true of. -/
def forClients (which : Client → Bool) (f : Callback) (locks : Int) : List Client → Code (Int × List Client)
  | [] => pure (locks,[])
  | client :: rest => do
    let (locks,client) ← (if which client then f locks client else pure (locks,client) : Code (Int × Client))
    let (locks,rest) ← forClients which f locks rest
    pure (locks,client :: rest)

def State.forClients (s : State) (which : Client → Bool) (f : Callback) : Code State := do
  let (runCtrlLocks,clients) ← DPrintf.forClients which f s.runCtrlLocks s.clients
  pure { s with clients, runCtrlLocks }

/-- Subscribers are connected to a new stream. -/
def subscribe (t : Session UInt8) (channel : Nat) : Session UInt8 :=
  ⟨Streams.createClient t.stream channel,t.log ++ [.connected channel (t.stream.pos - t.stream.len)]⟩

def virtualStreamCreate (subscriptions : List Nat) (heap : Nat → UInt8) : Session UInt8 :=
  subscriptions.foldl subscribe (Session.create false 0x1000 heap)

def hasClient (s : State) (channel : Nat) : Prop := ∃ client ∈ s.clients, client.channel = channel

instance decideHasClient (s : State) (channel : Nat) : Decidable (hasClient s channel) :=
  inferInstanceAs (Decidable (∃ client ∈ s.clients, client.channel = channel))

def commandOpen (s : State) (channel : Nat) (subscriptions : List Nat) (heap : Nat → UInt8) : State :=
  if hasClient s channel then s
  else { s with clients := ⟨channel,virtualStreamCreate subscriptions heap,[],[],[]⟩ :: s.clients }

/-- `free_client` for the client of a channel. -/
def freeClient (s : State) (channel : Nat) : State where
  clients := s.clients.filter fun client => client.channel ≠ channel
  runCtrlLocks := s.runCtrlLocks - ((s.clients.filter fun client => client.channel = channel).map fun client =>
    if client.bufs = [] then (0 : Int) else 1).sum

/-- A command of a remote client of a stream. -/
def remote (e : Streams.Event UInt8) : Callback := fun locks client => do
  let session ← client.session.step e
  pure (locks,{ client with session })

/-- `CTLE_START` or `CTLE_RETRY`, and what the cache client prints for channels. -/
def attempt (clients : List Client) (prints : List (Nat × List UInt8)) : List Client :=
  prints.foldl (fun clients (channel,text) => dprintfExpressionCtx clients channel text)
    (clients.map fun client : Client => { client with tmp := [] })

/-- An attempt, and `CTLE_COMMIT` or `CTLE_ABORT`. -/
def runCacheClient (s : State) (prints : List (Nat × List UInt8)) (clientExited : Bool) : Code State :=
  let s := { s with clients := attempt s.clients prints }
  if clientExited then s.forClients (fun _ => true) commit else pure s

/-- `close` is the command, or the end of the channel. -/
inductive Event where
  | open_ (channel : Nat) (subscriptions : List Nat) (heap : Nat → UInt8)
  | close (channel : Nat)
  | evaluate (prints : List (Nat × List UInt8)) (clientExited : Bool)
  | space (channel : Nat)
  | connect (channel reader token : Nat)
  | disconnect (channel reader token : Nat)
  | read (channel reader token size : Nat)

/-- A channel subscribes once. -/
def Enabled (s : State) : Event → Prop
  | .open_ _ subscriptions _ => subscriptions.Nodup
  | .space channel => ∃ client ∈ s.clients, client.channel = channel ∧ client.session.stream.spaceAvailablePosted = true
  | _ => True

instance decideEnabled (s : State) : ∀ e, Decidable (Enabled s e)
  | .open_ _ subscriptions _ => inferInstanceAs (Decidable subscriptions.Nodup)
  | .space channel =>
    inferInstanceAs (Decidable (∃ client ∈ s.clients, client.channel = channel ∧ client.session.stream.spaceAvailablePosted = true))
  | .close _ | .evaluate _ _ | .connect _ _ _ | .disconnect _ _ _ | .read _ _ _ _ => inferInstanceAs (Decidable True)

def ofChannel (channel : Nat) (client : Client) : Bool := client.channel = channel

def step (s : State) : Event → Code State
  | .open_ channel subscriptions heap => pure (commandOpen s channel subscriptions heap)
  | .close channel => pure (freeClient s channel)
  | .evaluate prints clientExited => runCacheClient s prints clientExited
  | .space channel => s.forClients (ofChannel channel) notifySpaceAvailable
  | .connect channel reader token => s.forClients (ofChannel channel) (remote (.connect reader token))
  | .disconnect channel reader token => s.forClients (ofChannel channel) (remote (.disconnect reader token))
  | .read channel reader token size => s.forClients (ofChannel channel) (remote (.read reader token size))

def process : Process State Event where
  enabled := Enabled
  decide := decideEnabled
  step := step

end Tcf.DPrintf
