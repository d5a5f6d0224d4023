import Tcf.ProtocolDispatch

/-! Commands that wait for a reply, over all channels. While a channel closes, a handler that the
walk over the table calls may send further commands, so the walk stops at each call. -/
namespace Tcf.Protocol.Replies

def ERR_CHANNEL_CLOSED : Int := 0x20000 + 5

abbrev Table := Nat → List ReplyHandlerInfo

/-- The fields of a channel that sending a command looks at. -/
structure Peer where
  state : ChannelState
  protocol : Address
  /-- `peer_service_list` is not NULL -/
  services : Bool
  deriving DecidableEq, Repr

/-- A handler that `channel_closed` called for the entry `rh` runs. `rhp` is the link to the entry:
of the entry before it, or `none` for the head of the chain. -/
structure Closing where
  c : Address
  chain : Nat
  rhp : Option Nat
  rh : ReplyHandlerInfo
  deriving DecidableEq, Repr

/-- `posted` are the events `send_command_failed`. `serial` counts the allocations; `issued` has
the commands that were sent with a handler, and `invoked` the calls of handlers, with their error. -/
structure State where
  channels : Address → Peer
  tokenid : Address → Nat
  table : Table
  posted : List ReplyHandlerInfo
  closing : Option Closing
  serial : Nat
  issued : List Nat
  invoked : List (Nat × Int)

section Sending

variable (m : MemUsage)

/-- The loop of `protocol_send_command_with_progress`: the token, and the next one. -/
def freeToken (table : Table) (c : Address) : Nat → Nat → Code (Nat × Nat)
  | 0, _ => .error .stuck
  | fuel + 1, tokenid =>
    if findReplyHandler m table c tokenid = none then .ok (tokenid,(tokenid + 1) % 2^64)
    else freeToken table c fuel ((tokenid + 1) % 2^64)

/-- Whether a command can be sent. -/
def Peer.open (p : Peer) : Bool := p.state ≠ .disconnected && p.services

/-- There are 2^64 tokens to try. -/
def sendCommand (s : State) (c : Address) (handler progress : Option Address) (clientData : Address) : Code State :=
  let rh : ReplyHandlerInfo := ⟨s.serial,0,c,handler,progress,clientData⟩
  let s := { s with serial := s.serial + 1, issued := if handler.isSome then s.issued ++ [s.serial] else s.issued }
  if (s.channels c).open = false then pure { s with posted := s.posted ++ [rh] }
  else do
    let p := (s.channels c).protocol
    let (tokenid,next) ← freeToken m s.table c (2^64) (s.tokenid p)
    let h := replyHash m c tokenid
    let table := Function.update s.table h ({ rh with tokenid } :: s.table h)
    pure { s with table, tokenid := Function.update s.tokenid p next }

/-- A handler is called, unless it is NULL. -/
def State.invoke (s : State) (rh : ReplyHandlerInfo) (error : Int) : State :=
  if rh.handler.isSome then { s with invoked := s.invoked ++ [(rh.self,error)] } else s

/-- `send_command_failed` for the first event in the queue. -/
def sendCommandFailed (s : State) : State :=
  match s.posted with
  | [] => s
  | rh :: posted => { s with posted }.invoke rh ERR_CHANNEL_CLOSED

/-- The part of `handle_protocol_message` for replies that has to do with the table. -/
def replyMessage (s : State) (c : Address) (type token : List UInt8) : State :=
  match (tokenNumber token).bind (findReplyHandler m s.table c) with
  | none => s
  | some rh =>
    if type = stringP then s
    else { s with table := takeReplyHandler m s.table c rh.tokenid }.invoke rh
      (if type = stringN then ERR_INV_COMMAND else 0)

end Sending

/-! `channel_closed`. -/

/-- The entries from `*rhp` on. -/
def linked (chain : List ReplyHandlerInfo) : Option Nat → List ReplyHandlerInfo
  | none => chain
  | some before => (chain.dropWhile fun rh => rh.self ≠ before).tail

/-- `*rhp = rest` -/
def setLink (chain : List ReplyHandlerInfo) (rhp : Option Nat) (rest : List ReplyHandlerInfo) : List ReplyHandlerInfo :=
  chain.take (chain.length - (linked chain rhp).length) ++ rest

/-- The entry stays, without anything to call. -/
def clearEntry (self : Nat) (rh : ReplyHandlerInfo) : ReplyHandlerInfo :=
  if rh.self = self then { rh with handler := none, progress := none, clientData := 0 } else rh

/-- What is done to the entry after its handler: the table, and the next link. -/
def afterHandler (disconnected : Bool) (table : Table) (i : Nat) (rhp : Option Nat) (rh : ReplyHandlerInfo) :
    Table × Option Nat :=
  if disconnected then (Function.update table i (setLink (table i) rhp (linked (table i) (some rh.self))),rhp)
  else (Function.update table i ((table i).map (clearEntry rh.self)),some rh.self)

/-- The walk over the rest of a chain, up to the next handler to call. -/
def walkChain (disconnected : Bool) (c : Address) (i : Nat) :
    List ReplyHandlerInfo → Option Nat → Table → Table × Option Closing
  | [], _, table => (table,none)
  | rh :: rest, rhp, table =>
    if rh.c ≠ c then walkChain disconnected c i rest (some rh.self) table
    else if rh.handler.isSome then (table,some ⟨c,i,rhp,rh⟩)
    else
      let (table,rhp) := afterHandler disconnected table i rhp rh
      walkChain disconnected c i rest rhp table

/-- The walk over a number of chains from the i-th on. -/
def walkChains (disconnected : Bool) (c : Address) : Nat → Nat → Table → Table × Option Closing
  | 0, _, table => (table,none)
  | left + 1, i, table =>
    match walkChain disconnected c i (table i) none table with
    | (table,some call) => (table,some call)
    | (table,none) => walkChains disconnected c left (i + 1) table

/-- The next call, or the end of `channel_closed`. -/
def State.proceed (s : State) (c : Address) : Table × Option Closing → State
  | (table,some call) => { s with table, closing := some call }.invoke call.rh ERR_CHANNEL_CLOSED
  | (table,none) =>
    { s with table, closing := none, channels := Function.update s.channels c { s.channels c with services := false } }

section Closing

variable (m : MemUsage)

def State.disconnected (s : State) (c : Address) : Bool := (s.channels c).state = .disconnected

/-- Up to the first call of a handler. -/
def channelClosed (s : State) (c : Address) : State :=
  s.proceed c (walkChains (s.disconnected c) c m.replyHashSize 0 s.table)

/-- From the return of a handler, or its exception, to the next call. -/
def handlerReturned (s : State) (call : Closing) : State :=
  let (table,rhp) := afterHandler (s.disconnected call.c) s.table call.chain call.rhp call.rh
  match walkChain (s.disconnected call.c) call.c call.chain (linked (table call.chain) rhp) rhp table with
  | (table,some next) => s.proceed call.c (table,some next)
  | (table,none) =>
    s.proceed call.c (walkChains (s.disconnected call.c) call.c (m.replyHashSize - (call.chain + 1)) (call.chain + 1) table)

end Closing

/-- `setState` is for what does not close a channel, like a Hello; `close` for every call of
`notify_channel_closed`, with the state that the channel has then: a redirect closes a channel that
stays connected. `open` reuses the memory of a channel. -/
inductive Event where
  | open (c : Address) (protocol : Address)
  | setState (c : Address) (state : ChannelState) (services : Bool)
  | send (c : Address) (handler progress : Option Address) (clientData : Address)
  | message (c : Address) (type token : List UInt8)
  | failed
  | close (c : Address) (state : ChannelState)
  | returned
  deriving DecidableEq, Repr

def Enabled (s : State) : Event → Prop
  | .open c _ => (s.channels c).state = .disconnected ∧ ∀ call ∈ s.closing, call.c ≠ c
  | .setState c state _ => (s.channels c).state ≠ .disconnected ∧ state ≠ .disconnected
  | .send _ _ _ _ => True
  | .message _ type _ => s.closing = none ∧ (type = stringR ∨ type = stringP ∨ type = stringN)
  | .failed => s.closing = none
  | .close c _ => s.closing = none ∧ (s.channels c).state ≠ .disconnected
  | .returned => s.closing ≠ none

instance decideEnabled (s : State) : ∀ e, Decidable (Enabled s e)
  | .open c _ => inferInstanceAs (Decidable ((s.channels c).state = .disconnected ∧ ∀ call ∈ s.closing, call.c ≠ c))
  | .setState c state _ => inferInstanceAs (Decidable ((s.channels c).state ≠ .disconnected ∧ state ≠ .disconnected))
  | .send _ _ _ _ => inferInstanceAs (Decidable True)
  | .message _ type _ =>
    inferInstanceAs (Decidable (s.closing = none ∧ (type = stringR ∨ type = stringP ∨ type = stringN)))
  | .failed => inferInstanceAs (Decidable (s.closing = none))
  | .close c _ => inferInstanceAs (Decidable (s.closing = none ∧ (s.channels c).state ≠ .disconnected))
  | .returned => inferInstanceAs (Decidable (s.closing ≠ none))

def step (m : MemUsage) (s : State) : Event → Code State
  | .open c protocol => .ok { s with channels := Function.update s.channels c ⟨.startWait,protocol,false⟩ }
  | .setState c state services => .ok { s with channels := Function.update s.channels c { s.channels c with state, services } }
  | .send c handler progress clientData => sendCommand m s c handler progress clientData
  | .message c type token => .ok (replyMessage m s c type token)
  | .failed => .ok (sendCommandFailed s)
  | .close c state =>
    .ok (channelClosed m { s with channels := Function.update s.channels c { s.channels c with state } } c)
  | .returned =>
    match s.closing with
    | none => .error .stuck
    | some call => .ok (handlerReturned m s call)

def replies (m : MemUsage) : Process State Event where
  enabled := Enabled
  decide := decideEnabled
  step := step m

/-- No channel is open at the start, and token numbers start at 1. -/
def State.initial : State := ⟨fun _ => ⟨.disconnected,0,false⟩,fun _ => 1,fun _ => [],[],none,0,[],[]⟩

/-- Where a command goes that is sent now: its chain, if it is entered into the table. -/
def sentTo (m : MemUsage) (s : State) (c : Address) : Option Nat :=
  if (s.channels c).open = false then none
  else match freeToken m s.table c (2^64) (s.tokenid (s.channels c).protocol) with
    | .ok (tokenid,_) => some (replyHash m c tokenid)
    | .error _ => none

/-- No handler sends a command to the chain that it was called from, when its entry is at the head of the chain and
its channel is disconnected. -/
def NoIntrusion (m : MemUsage) (s : State) : Event → Prop
  | .send c _ _ _ => ∀ call ∈ s.closing, call.rhp = none → s.disconnected call.c = true → sentTo m s c ≠ some call.chain
  | _ => True

instance decideNoIntrusion (m : MemUsage) (s : State) : ∀ e, Decidable (NoIntrusion m s e)
  | .send c _ _ _ => inferInstanceAs (Decidable (∀ call ∈ s.closing, call.rhp = none → s.disconnected call.c = true →
      sentTo m s c ≠ some call.chain))
  | .open _ _ | .setState _ _ _ | .message _ _ _ | .failed | .close _ _ | .returned => inferInstanceAs (Decidable True)

end Tcf.Protocol.Replies
