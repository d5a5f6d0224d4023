import Tcf.JsonBinary

/-! The dispatch of incoming messages, and the tables of handlers that it uses. A handler is a
function of the whole state: it may read its message, write others and change every table. -/
namespace Tcf.Protocol

open Framing Json

inductive ChannelState where
  | startWait
  | started
  | helloSent
  | helloReceived
  | connected
  | redirectSent
  | redirectReceived
  | disconnected
  deriving DecidableEq, Repr

abbrev Address := Nat

/-- `MEM_USAGE_FACTOR` of the build -/
structure MemUsage where
  factor : Nat
  positive : 0 < factor

def MemUsage.messageHashSize (m : MemUsage) : Nat := 5 * m.factor - 1
def MemUsage.eventHashSize (m : MemUsage) : Nat := 4 * m.factor - 1
def MemUsage.replyHashSize (m : MemUsage) : Nat := 4 * m.factor - 1

structure Channel where
  state : ChannelState
  protocol : Address
  inp : Input
  out : List Item
  supportsZeroCopy : Bool
  peerServiceList : Option (List (List UInt8))
  congestionLevel : Int

/-- `Protocol`; a handler is `none` for NULL. -/
structure Proto where
  tokenid : Nat
  defaultHandler : Option Address
  clientData : Address
  deriving DecidableEq, Repr

structure MessageHandlerInfo where
  p : Address
  service : List UInt8
  name : List UInt8
  handler : Address
  clientData : Address
  deriving DecidableEq, Repr

structure EventHandlerInfo where
  c : Address
  service : List UInt8
  name : List UInt8
  handler : Address
  clientData : Address
  deriving DecidableEq, Repr

/-- `self` tells the allocations apart. -/
structure ReplyHandlerInfo where
  self : Nat
  tokenid : Nat
  c : Address
  handler : Option Address
  progress : Option Address
  clientData : Address
  deriving DecidableEq, Repr

/-- The tables by chain; `clients` is whatever the handlers keep. -/
structure World (γ : Type) where
  channels : Address → Channel
  protocols : Address → Proto
  messageHandlers : Nat → List MessageHandlerInfo
  eventHandlers : Nat → List EventHandlerInfo
  replyHandlers : Nat → List ReplyHandlerInfo
  clients : γ

/-- `(char)` where it is signed, added to an `unsigned` -/
def addChar (h : Nat) (ch : UInt8) : Nat := unsigned (h + (if ch < 0x80 then ch.toNat else 2^32 - 256 + ch.toNat))

/-- Of an object and two names. -/
def nameHash (size : Nat) (object : Address) (service name : List UInt8) : Nat :=
  let h := name.foldl addChar (service.foldl addChar (unsigned object / 16))
  unsigned (h + h / size) % size

def messageHash (m : MemUsage) : Address → List UInt8 → List UInt8 → Nat := nameHash m.messageHashSize

def eventHash (m : MemUsage) : Address → List UInt8 → List UInt8 → Nat := nameHash m.eventHashSize

def replyHash (m : MemUsage) (c : Address) (tokenid : Nat) : Nat :=
  unsigned (unsigned c / 16 + unsigned tokenid) % m.replyHashSize

/-- `read_stringz` into an array of `size` bytes. -/
def readStringz (size : Nat) : List UInt8 → Input → Code (List UInt8 × Input)
  | _, [] => .error .stuck
  | str, .byte ch :: rest =>
    if ch = 0 then .ok (str,rest) else readStringz size (if str.length < size - 1 then str ++ [ch] else str) rest
  | _, _ => .error .exception

def skipUntilEOM : Input → Code Input
  | [] => .error .stuck
  | .byte _ :: rest => skipUntilEOM rest
  | _ :: rest => .ok rest

def isDigit (ch : UInt8) : Bool := 0x30 ≤ ch && ch ≤ 0x39

/-- The number, whether `errno` was set, and what `endptr` points to. -/
def strtoul (s : List UInt8) : Nat × Bool × List UInt8 :=
  let t := s.dropWhile fun ch => isSpace (.byte ch)
  let neg := t.head? == some 0x2d
  let u := if neg || t.head? == some 0x2b then t.tail else t
  let digits := u.takeWhile isDigit
  let n := digits.foldl (fun n ch => n * 10 + (ch.toNat - 0x30)) 0
  if digits = [] then (0,false,s)
  else if n ≥ 2^64 then (2^64 - 1,true,u.drop digits.length)
  else (if neg then (2^64 - n) % 2^64 else n,false,u.drop digits.length)

/-- The number of a token, when it has one. -/
def tokenNumber (token : List UInt8) : Option Nat :=
  let (tokenid,failed,endptr) := strtoul token
  if failed = true ∨ endptr ≠ [] then none else some tokenid

section Lookup

variable {γ : Type} (m : MemUsage)

def findMessageHandler (w : World γ) (p : Address) (service name : List UInt8) : Option MessageHandlerInfo :=
  (w.messageHandlers (messageHash m p service name)).find? fun mh => mh.p = p ∧ mh.service = service ∧ mh.name = name

def findEventHandler (w : World γ) (c : Address) (service name : List UInt8) : Option EventHandlerInfo :=
  (w.eventHandlers (eventHash m c service name)).find? fun eh => eh.c = c ∧ eh.service = service ∧ eh.name = name

/-- What `find_reply_handler` compares. -/
def ReplyHandlerInfo.answers (c : Address) (tokenid : Nat) (rh : ReplyHandlerInfo) : Bool := rh.c = c ∧ rh.tokenid = tokenid

/-- `find_reply_handler` in a table; `take` unlinks what it finds. -/
def findReplyHandler (table : Nat → List ReplyHandlerInfo) (c : Address) (tokenid : Nat) : Option ReplyHandlerInfo :=
  (table (replyHash m c tokenid)).find? (ReplyHandlerInfo.answers c tokenid)

def takeReplyHandler (table : Nat → List ReplyHandlerInfo) (c : Address) (tokenid : Nat) : Nat → List ReplyHandlerInfo :=
  Function.update table (replyHash m c tokenid)
    ((table (replyHash m c tokenid)).eraseP (ReplyHandlerInfo.answers c tokenid))

end Lookup

/-- What function pointers point to. The last one is for the open listeners and `connected`. -/
structure Handlers (γ : Type) where
  command : Address → List UInt8 → Address → Address → World γ → Code (World γ)
  default : Address → Address → List (List UInt8) → Address → World γ → Code (World γ)
  event : Address → Address → Address → World γ → Code (World γ)
  reply : Address → Address → Address → Int → World γ → Code (World γ)
  progress : Address → Address → Address → World γ → Code (World γ)
  opened : Address → World γ → Code (World γ)

def ERR_INV_COMMAND : Int := 0x20000 + 25

def stringC : List UInt8 := [0x43]
def stringR : List UInt8 := [0x52]
def stringP : List UInt8 := [0x50]
def stringN : List UInt8 := [0x4e]
def stringE : List UInt8 := [0x45]
def stringF : List UInt8 := [0x46]

/-- `LOCATOR` -/
def locator : List UInt8 := [0x4c,0x6f,0x63,0x61,0x74,0x6f,0x72]
def hello : List UInt8 := [0x48,0x65,0x6c,0x6c,0x6f]
def zeroCopy : List UInt8 := [0x5a,0x65,0x72,0x6f,0x43,0x6f,0x70,0x79]

section Dispatch

variable {γ : Type} (m : MemUsage) (env : Handlers γ)

def World.update (w : World γ) (c : Address) (f : Channel → Channel) : World γ :=
  { w with channels := Function.update w.channels c (f (w.channels c)) }

def readFrom {α : Type} (c : Address) (read : Input → Code (α × Input)) (w : World γ) : Code (α × World γ) := do
  let (a,inp) ← read (w.channels c).inp
  pure (a,w.update c ({ · with inp }))

def skipOn (c : Address) (w : World γ) : Code (World γ) := do
  let inp ← skipUntilEOM (w.channels c).inp
  pure (w.update c ({ · with inp }))

def write (c : Address) (items : List Item) (w : World γ) : World γ :=
  w.update c fun ch => { ch with out := ch.out ++ items }

/-- `write_stringz` -/
def stringz (str : List UInt8) : List Item := (str ++ [0]).map .byte

/-- The answer to a command that nobody handles. -/
def refuse (c : Address) (token : List UInt8) (w : World γ) : Code (World γ) := do
  let w ← skipOn c w
  pure (write c (stringz stringN ++ stringz token ++ [.eom]) w)

/-- The default handler, if there is one. -/
def callDefault (c : Address) (args : List (List UInt8)) (otherwise : World γ → Code (World γ)) (w : World γ) :
    Code (World γ) :=
  let p := w.protocols (w.channels c).protocol
  match p.defaultHandler with
  | some handler => env.default handler c args p.clientData w
  | none => otherwise w

def commandMessage (c : Address) (type : List UInt8) (w : World γ) : Code (World γ) := do
  let (token,w) ← readFrom c (readStringz 256 []) w
  let (service,w) ← readFrom c (readStringz 256 []) w
  let (name,w) ← readFrom c (readStringz 256 []) w
  if (w.channels c).state ≠ .connected then refuse c token w
  else match findMessageHandler m w (w.channels c).protocol service name with
    | some mh => env.command mh.handler token c mh.clientData w
    | none => callDefault env c [type,token,service,name] (refuse c token) w

/-- The entry that a token names. -/
def replyNamed (w : World γ) (c : Address) (token : List UInt8) : Option ReplyHandlerInfo :=
  (tokenNumber token).bind (findReplyHandler m w.replyHandlers c)

/-- A reply or a refusal for `rh`, which is no longer in the table. -/
def finishReply (c : Address) (type : List UInt8) (rh : ReplyHandlerInfo) (w : World γ) : Code (World γ) := do
  let w ← (if type = stringN then skipOn c w else pure w)
  match rh.handler with
  | some handler => env.reply handler c rh.clientData (if type = stringN then ERR_INV_COMMAND else 0) w
  | none => skipOn c w

def replyMessage (c : Address) (type : List UInt8) (w : World γ) : Code (World γ) := do
  let (token,w) ← readFrom c (readStringz 256 []) w
  match replyNamed m w c token with
  | none => callDefault env c [type,token] (fun _ => .error .exception) w
  | some rh =>
    if type = stringP then
      match rh.progress with
      | some progress => env.progress progress c rh.clientData w
      | none => skipOn c w
    else finishReply env c type rh { w with replyHandlers := takeReplyHandler m w.replyHandlers c rh.tokenid }

/-- The loop of `event_locator_hello`. `strcmp` is applied to what was read, also when that is NULL. -/
def helloServices : Nat → List (List UInt8) → Input → Code (List (List UInt8) × Input)
  | 0, _, _ => .error .stuck
  | fuel + 1, list, inp => do
    let (service,inp) ← jsonReadAllocString inp
    match service with
    | none => .error .fault
    | some service =>
      let (ch,inp) ← readToken inp
      if ch = .byte 0x2c then helloServices fuel (list ++ [service]) inp
      else if ch = .byte 0x5d then pure (list ++ [service],inp)
      else .error .exception

/-- The list, which may be empty. -/
def helloList (inp : Input) : Code (List (List UInt8) × Input) := do
  let (ch,inp) ← readToken inp
  if ch ≠ .byte 0x5b then .error .exception
  else do
    let ch ← peekStream inp
    if ch = .byte 0x5d then pure ([],inp.tail)
    else helloServices (inp.length + 1) [] inp

/-- A zero and the end of the message. -/
def helloEnd (inp : Input) : Code Input := do
  let (ch,inp) ← readStream inp
  if ch ≠ .byte 0 then .error .exception
  else do
    let (ch,inp) ← readStream inp
    if ch ≠ .eom then .error .exception else pure inp

def readHello (inp : Input) : Code (List (List UInt8) × Input) := do
  let (list,inp) ← helloList inp
  let inp ← helloEnd inp
  pure (list,inp)

def eventLocatorHello (c : Address) (w : World γ) : Code (World γ) := do
  let (list,w) ← readFrom c readHello w
  let state := (w.channels c).state
  if state ≠ .started ∧ state ≠ .helloSent then pure w
  else
    let w := w.update c fun ch => { ch with
      supportsZeroCopy := list.any fun service => service.takeWhile (· ≠ 0) == zeroCopy
      peerServiceList := if list = [] then none else some list
      state := if state = .started then .helloReceived else .connected }
    if state = .started then pure w else env.opened c w

def eventMessage (c : Address) (type : List UInt8) (w : World γ) : Code (World γ) := do
  let (service,w) ← readFrom c (readStringz 256 []) w
  let (name,w) ← readFrom c (readStringz 256 []) w
  let state := (w.channels c).state
  if (state = .started ∨ state = .helloSent) ∧ service = locator ∧ name = hello then eventLocatorHello env c w
  else match findEventHandler m w c service name with
    | some eh => env.event eh.handler c eh.clientData w
    | none => callDefault env c [type,service,name] (skipOn c) w

/-- Digits from `ch` on, and the character after them. -/
def levelDigits : Item → Int → Input → Code ((Item × Int) × Input)
  | .byte ch, n, inp =>
    if isDigit ch then match inp with
      | [] => .error .stuck
      | next :: rest => levelDigits next (Int.bmod (n * 10 + (ch.toNat - 0x30)) (2^32)) rest
    else .ok ((.byte ch,n),inp)
  | ch, n, inp => .ok ((ch,n),inp)
termination_by structural _ _ inp => inp

/-- The character after a zero. -/
def readZero (ch : Item) (inp : Input) : Code (Item × Input) :=
  if ch = .byte 0 then readStream inp else pure (ch,inp)

def readLevel (inp : Input) : Code (Int × Input) := do
  let (ch,inp) ← readStream inp
  let neg := ch == .byte 0x2d
  let (ch,inp) ← readSign ch inp
  let ((ch,n),inp) ← levelDigits ch 0 inp
  let (ch,inp) ← readZero ch inp
  if ch ≠ .eom then .error .exception else pure (if neg then Int.bmod (-n) (2^32) else n,inp)

def flowMessage (c : Address) (w : World γ) : Code (World γ) := do
  let (level,w) ← readFrom c readLevel w
  pure (w.update c ({ · with congestionLevel := level }))

def handleProtocolMessage (c : Address) (w : World γ) : Code (World γ) := do
  let (type,w) ← readFrom c (readStringz 8 []) w
  if type.length ≠ 1 then .error .exception
  else if type = stringC then commandMessage m env c type w
  else if type = stringR ∨ type = stringP ∨ type = stringN then replyMessage m env c type w
  else if type = stringE then eventMessage m env c type w
  else if type = stringF then flowMessage c w
  else callDefault env c [type] (fun _ => .error .exception) w

end Dispatch

end Tcf.Protocol
