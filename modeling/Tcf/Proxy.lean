import Tcf.ProtocolReplies
import Tcf.OutStream

/-! A proxy: two channels, each with the other's default handler, which copies messages from one to
the other. Commands of the proxy itself share the channels with what passes through. -/
namespace Tcf.Proxy

open Framing Json Protocol

inductive Filter where
  | notFiltered
  | filtered
  | limit
  deriving DecidableEq, Repr

/-- The channels of `proxy[0]` and `proxy[1]`. -/
structure Pair where
  host : Address
  target : Address
  distinct : host ≠ target

def Pair.other (p : Pair) (c : Address) : Address := if c = p.host then p.target else p.host

/-- `log_mode` with LOG_TCFLOG, the listeners that filter the log, and how far the input buffer is filled
with plain bytes at each turn of the copying loop. -/
structure Settings where
  traced : Bool
  filterListener : Option (List (List UInt8) → Bool)
  filterListener2 : Option (List (List UInt8) → Filter × Int)
  ahead : Nat → Nat

/-- The log, and what other handlers keep. -/
structure Clients (κ : Type) where
  logs : List (List UInt8)
  own : κ

/-! The log. -/

def logChr (text : List UInt8) (ch : UInt8) : List UInt8 := if text.length + 2 < 1024 then text ++ [ch] else text

def logStr (text : List UInt8) (s : List UInt8) : List UInt8 := s.foldl logChr text

def hexDigit (n : Nat) : UInt8 := UInt8.ofNat (if n < 10 then n + 0x30 else n - 10 + 0x61)

def logByteFunc (text : List UInt8) : Item → List UInt8
  | .byte i =>
    if 0x20 ≤ i ∧ i < 127 then logChr text i
    else if i = 0 then logChr text 0x20
    else logStr text [0x5c,0x78,hexDigit (i.toNat / 16),hexDigit (i.toNat % 16)]
  | .eom | .eos => logStr text [0x3c,0x65,0x6f,0x6d,0x3e]

/-- The result, `limit`, and `log_buf`. -/
def logStart (p : Pair) (set : Settings) (c : Address) (argv : List (List UInt8)) : Filter × Int × List UInt8 :=
  if set.traced then
    let (res,limit) : Filter × Int := match set.filterListener,set.filterListener2 with
      | some listener,_ => (if listener argv then .filtered else .notFiltered,0)
      | none,some listener => listener argv
      | none,none => (.notFiltered,0)
    if res = .filtered then (.filtered,limit,[])
    else
      let arrow : List UInt8 := if c = p.host then [0x2d,0x2d,0x2d,0x3e,0x20] else [0x3c,0x2d,0x2d,0x2d,0x20]
      (res,limit,argv.foldl (fun text arg => logChr (logStr text arg) 0x20) (logStr [] arrow))
  else (.notFiltered,0,[])

/-- What the loop does with `filter_cnt` and `log_buf` for a byte or marker. -/
def logCopied (set : Settings) (res : Filter) (limit : Int) (log : Nat × List UInt8) (i : Item) : Nat × List UInt8 :=
  if res = .notFiltered ∨ (res = .limit ∧ log.1 < limit) then
    let text := if set.traced then logByteFunc log.2 i else log.2
    (log.1 + 1,if res = .limit ∧ log.1 + 1 = limit then logStr text [0x2e,0x2e,0x2e] else text)
  else log

def logFlush (set : Settings) (res : Filter) (text : List UInt8) (logs : List (List UInt8)) : List (List UInt8) :=
  if res ≠ .filtered ∧ set.traced = true then logs ++ [logChr text 0] else logs

/-! The body of a message. -/

/-- The bytes from `cur` to `end`, when `end` is at most so far away. -/
def bytesAhead : Nat → Input → List UInt8
  | n + 1, .byte ch :: rest => ch :: bytesAhead n rest
  | _, _ => []

/-- The macro `write_stream` -/
def writeStream {σ : Type} (S : OutStream σ) (s : σ) : Item → Code σ
  | .byte ch => S.writeByte s ch
  | item => S.write s item

/-- The loop that copies a body, from a turn on. -/
def copyBody {σ : Type} (S : OutStream σ) (set : Settings) (res : Filter) (limit : Int) :
    Nat → Nat → Nat × List UInt8 → σ → Input → Code ((Nat × List UInt8) × σ × Input)
  | 0, _, _, _, _ => .error .stuck
  | fuel + 1, turn, log, out, inp =>
    let block := bytesAhead (set.ahead turn) inp
    if S.supportsZeroCopy out = true ∧ set.traced = false ∧ 0x100 ≤ block.length then do
      let out ← S.writeBlock out block
      copyBody S set res limit fuel (turn + 1) log out (inp.drop block.length)
    else do
      let (i,inp) ← readStream inp
      let log := logCopied set res limit log i
      let out ← writeStream S out i
      if i.marker then pure (log,out,inp) else copyBody S set res limit fuel (turn + 1) log out inp

/-- A stream that keeps what is written. -/
def itemStream (supportsZeroCopy : Bool) : OutStream (List Item) where
  supportsZeroCopy _ := supportsZeroCopy
  room _ := 0
  copy s bytes := s ++ bytes.map .byte
  write s item := .ok (s ++ [item])
  writeBlock s bytes := .ok (s ++ bytes.map .byte)
  Holds s items := s = items
  write_holds := by
    rintro s items rfl item
    exact ⟨_,rfl,rfl⟩
  writeBlock_holds := by
    rintro s items rfl bytes
    exact ⟨_,rfl,rfl⟩
  copy_holds := by
    rintro s items rfl bytes _ _
    rfl

/-! The handler. -/

/-- What is written before the body, and `argv` after it. -/
def forwardArgs (argv : List (List UInt8)) : Code (List Item × List (List UInt8)) :=
  let type := argv.headD []
  if type = stringC then
    -- The prefix tells the token from those of the proxy's own commands.
    pure (stringz type ++ .byte 0x52 :: argv.tail.flatMap stringz,argv)
  else if type = stringR ∨ type = stringP ∨ type = stringN then
    match argv with
    | type :: token :: rest =>
      if token.head? ≠ some 0x52 then .error .exception
      else pure ((type :: token.tail :: rest).flatMap stringz,type :: token.tail :: rest)
    | _ => .error .fault
  else pure (argv.flatMap stringz,argv)

variable {κ : Type}

def proxyDefaultMessageHandler (p : Pair) (set : Settings) (c : Address) (argv : List (List UInt8))
    (w : World (Clients κ)) : Code (World (Clients κ)) := do
  let otherc := p.other c
  require ((argv.headD []).length = 1)
  if (w.channels otherc).state = .disconnected then pure w
  else do
    let (items,argv) ← forwardArgs argv
    let (res,limit,text) := logStart p set c argv
    let inp := (w.channels c).inp
    let ((_,text),out,inp) ← copyBody (itemStream (w.channels otherc).supportsZeroCopy) set res limit (inp.length + 1) 0
      (0,text) ((w.channels otherc).out ++ items) inp
    let w := (w.update c ({ · with inp })).update otherc ({ · with out })
    pure { w with clients := { w.clients with logs := logFlush set res text w.clients.logs } }

/-- The handlers of a proxy. -/
def handlers (p : Pair) (set : Settings) (env : Handlers (Clients κ)) : Handlers (Clients κ) :=
  { env with default := fun _ c argv _ w => proxyDefaultMessageHandler p set c argv w }

/-- `protocol_send_command_with_progress` on a channel that is open. -/
def protocolSendCommandWithProgress {γ : Type} (m : MemUsage) (c : Address) (service name : List UInt8) (rh : ReplyHandlerInfo)
    (w : World γ) : Code (World γ) := do
  let p := (w.channels c).protocol
  let (tokenid,next) ← Replies.freeToken m w.replyHandlers c (2^64) (w.protocols p).tokenid
  let w := write c (stringz stringC ++ (stringz (decimal tokenid) ++ (stringz service ++ stringz name))) w
  let h := replyHash m c tokenid
  pure { w with
    protocols := Function.update w.protocols p { w.protocols p with tokenid := next }
    replyHandlers := Function.update w.replyHandlers h ({ rh with tokenid, c } :: w.replyHandlers h) }

/-! Traffic. -/

/-- A message: a type with what the dispatcher reads for it, and a body. -/
structure Message where
  args : List (List UInt8)
  body : List UInt8
  deriving DecidableEq, Repr

def Message.type (msg : Message) : List UInt8 := msg.args.headD []

/-- How many strings the dispatcher reads. -/
def arity (type : List UInt8) : Nat :=
  if type = stringC then 4 else if type = stringR ∨ type = stringP ∨ type = stringN then 2 else if type = stringE then 3 else 1

structure Message.Valid (msg : Message) : Prop where
  type : msg.type.length = 1
  args : msg.args.length = arity msg.type
  strings : ∀ arg ∈ msg.args, 0 ∉ arg

def Message.items (msg : Message) : List Item := msg.args.flatMap stringz ++ (msg.body.map .byte ++ [.eom])

/-- What becomes of a message: only the token of a command or reply is another one. -/
def relay (msg : Message) : Message :=
  match msg.args with
  | type :: token :: rest =>
    if type = stringC then ⟨type :: (0x52 :: token) :: rest,msg.body⟩
    else if type = stringR ∨ type = stringP ∨ type = stringN then ⟨type :: token.tail :: rest,msg.body⟩
    else msg
  | _ => msg

/-- Whether the dispatcher gives a message to the default handler. -/
def passes {γ : Type} (m : MemUsage) (w : World γ) (c : Address) (msg : Message) : Bool :=
  match msg.args with
  | [type,_,service,name] => type = stringC && (w.channels c).state = .connected &&
    findMessageHandler m w (w.channels c).protocol (service.take 255) (name.take 255) = none
  | [type,token] => (type = stringR || type = stringP || type = stringN) && replyNamed m w c (token.take 255) = none
  | [type,service,name] => type = stringE &&
    !(((w.channels c).state = .started || (w.channels c).state = .helloSent) && service.take 255 = locator && name.take 255 = hello) &&
    findEventHandler m w c (service.take 255) (name.take 255) = none
  | [type] => type ≠ stringF
  | _ => false

/-- What was written to a channel: a message of the other channel, or something of the proxy's own. -/
inductive Sent where
  | relayed (msg : Message)
  | own (items : List Item)
  deriving DecidableEq, Repr

def Sent.items : Sent → List Item
  | .relayed msg => (relay msg).items
  | .own items => items

def Sent.message? : Sent → Option Message
  | .relayed msg => some msg
  | .own _ => none

/-- `read` has the messages that were handled, `passed` those given to the default handler, and `written` what was
written to a channel, all of them by channel and in order. -/
structure State (κ : Type) where
  world : World (Clients κ)
  read : Address → List Message
  passed : Address → List Message
  written : Address → List Sent

/-- `handle` is a message in the input of a channel, and `send` a command of the proxy with its body. -/
inductive Event where
  | handle (c : Address) (msg : Message) (set : Settings)
  | send (c : Address) (service name body : List UInt8) (rh : ReplyHandlerInfo)

def Pair.Has (p : Pair) (c : Address) : Prop := c = p.host ∨ c = p.target

/-- What was appended to the output of a channel. -/
def appended {γ : Type} (before after : World γ) (c : Address) : List Item :=
  (after.channels c).out.drop (before.channels c).out.length

/-- Records what the proxy wrote itself. -/
def State.ownWrites (s : State κ) (after : World (Clients κ)) : Address → List Sent :=
  fun d => s.written d ++ [.own (appended s.world after d)]

def step (m : MemUsage) (p : Pair) (env : Handlers (Clients κ)) (s : State κ) : Event → Code (State κ)
  | .handle c msg set => do
    let world ← handleProtocolMessage m (handlers p set env) c s.world
    let read := Function.update s.read c (s.read c ++ [msg])
    if passes m s.world c msg then
      pure { world, read,
             passed := Function.update s.passed c (s.passed c ++ [msg])
             written := Function.update s.written (p.other c) (s.written (p.other c) ++ [.relayed msg]) }
    else pure { s with world, read, written := s.ownWrites world }
  | .send c service name body rh => do
    let world ← protocolSendCommandWithProgress m c service name rh s.world
    let world := write c (body.map .byte ++ [.eom]) world
    pure { s with world, written := s.ownWrites world }

def Enabled (p : Pair) (s : State κ) : Event → Prop
  | .handle c msg _ => p.Has c ∧ msg.Valid ∧ msg.items <+: (s.world.channels c).inp
  | .send c service name _ _ => p.Has c ∧ 0 ∉ service ∧ 0 ∉ name ∧ (s.world.channels c).state ≠ .disconnected ∧
    (s.world.channels c).peerServiceList ≠ none

theorem valid_iff (msg : Message) :
    (msg.type.length = 1 ∧ msg.args.length = arity msg.type ∧ ∀ arg ∈ msg.args, 0 ∉ arg) ↔ msg.Valid :=
  ⟨fun ⟨type,args,strings⟩ => ⟨type,args,strings⟩,fun valid => ⟨valid.type,valid.args,valid.strings⟩⟩

instance (msg : Message) : Decidable msg.Valid := decidable_of_iff _ (valid_iff msg)

instance (p : Pair) (c : Address) : Decidable (p.Has c) := inferInstanceAs (Decidable (c = p.host ∨ c = p.target))

instance decideEnabled (p : Pair) (s : State κ) : ∀ e, Decidable (Enabled p s e)
  | .handle c msg _ => inferInstanceAs (Decidable (p.Has c ∧ msg.Valid ∧ msg.items <+: (s.world.channels c).inp))
  | .send c service name _ _ => inferInstanceAs (Decidable (p.Has c ∧ 0 ∉ service ∧ 0 ∉ name ∧
      (s.world.channels c).state ≠ .disconnected ∧ (s.world.channels c).peerServiceList ≠ none))

def proxying (m : MemUsage) (p : Pair) (env : Handlers (Clients κ)) : Process (State κ) Event where
  enabled := Enabled p
  decide := decideEnabled p
  step := step m p env

/-- Nothing that the dispatcher reads is cut off, and the other channel takes what passes. What does not pass is none of
the two messages that the dispatcher does not take whole. -/
def Whole (m : MemUsage) (p : Pair) (s : State κ) : Event → Prop
  | .handle c msg _ =>
    if passes m s.world c msg then (∀ arg ∈ msg.args, arg.length ≤ 255) ∧ (s.world.channels (p.other c)).state ≠ .disconnected
    else ¬DroppedRefusal m c s.world ∧ ¬NullHello c s.world
  | .send _ _ _ _ _ => True

end Tcf.Proxy
