import Tcf.Base.Process
import Mathlib.Logic.Function.Basic
import Mathlib.Algebra.Order.Ring.Int

/-! Clients of data caches: they wait for a cache, and are run again when it is notified. A client
runs in steps of its own, so that it can call back into the caches, also from inside another call. -/
namespace Tcf.Cache

/-- 0 is NULL -/
abbrev Address := Nat

/-- What `args` points to: memory of the caller of `cache_enter`, or what `cache_wait` allocated. -/
inductive Args where
  | null
  | caller (a : Address)
  | block (serial : Nat)
  deriving DecidableEq, Repr

/-- `WaitingCacheClient`. `self` counts the entries that wait lists had, `given` are the arguments
of the caller of `cache_enter`. -/
structure Client where
  self : Nat
  given : List UInt8
  id : Nat
  client : Address
  channel : Address
  args : Args
  argsSize : Nat
  argsCopy : Bool
  deriving DecidableEq, Repr

/-- All bytes are 0. -/
def Client.null : Client := ⟨0,[],0,0,0,.null,0,false⟩

/-- Who called `run_cache_client`. The buffer of an event is local, and given from its i-th entry on;
`cache_notify` has its clients in `wait_list_buf`. -/
inductive Frame where
  | enter
  | notify (i cnt : Nat)
  | event (buf : List Client)
  deriving DecidableEq, Repr

/-- `posted` are the events `cache_notify_event`. `registered` has what was put on a wait list, and
`runs` what was run again, with the contents of its arguments at that time. -/
structure State where
  currentClient : Client
  clientExited : Bool
  cacheMissCnt : Nat
  waitListBuf : List Client
  idCnt : Nat
  cacheList : List Address
  waitList : Address → List Client
  posted : List (List Client)
  stack : List Frame
  locks : Address → Int
  memory : Args → List UInt8
  serial : Nat
  registered : List Client
  runs : List (Client × List UInt8)
  allocated : List Args
  freed : List Args

/-- The start of `run_cache_client`, up to the call of the client. -/
def State.begin (s : State) : State := { s with cacheMissCnt := 0, clientExited := false }

/-- `current_client = c; run_cache_client(1)` -/
def State.retry (s : State) (c : Client) (frame : Frame) (below : List Frame) : State :=
  { s with
    currentClient := c
    cacheMissCnt := 0
    clientExited := false
    runs := s.runs ++ [(c,s.memory c.args)]
    stack := frame :: below }

def State.unlock (s : State) (channel : Address) : State :=
  if channel = 0 then s else { s with locks := Function.update s.locks channel (s.locks channel - 1) }

/-- The end of `run_cache_client`, after the client. -/
def State.end (s : State) : State :=
  let freed := if s.cacheMissCnt = 0 && s.currentClient.argsCopy then s.freed ++ [s.currentClient.args] else s.freed
  { s with freed, currentClient := .null, cacheMissCnt := 0, clientExited := false }

/-- `id_cnt++`, not 0. -/
def nextId (idCnt : Nat) : Nat × Nat :=
  if idCnt = 0 then (1,2) else (idCnt,(idCnt + 1) % 2^32)

def cacheEnter (s : State) (client channel : Address) (args : Option (Address × List UInt8)) : Code State := do
  require (client ≠ 0)
  require (s.currentClient.id = 0)
  require (s.currentClient.client = 0)
  let (id,idCnt) := nextId s.idCnt
  let s := { s with idCnt, stack := .enter :: s.stack }
  match args with
  | none => pure { s with currentClient := ⟨0,[],id,client,channel,.null,0,false⟩ }.begin
  | some (a,data) =>
    pure { s with
      memory := Function.update s.memory (.caller a) data
      currentClient := ⟨0,data,id,client,channel,.caller a,data.length,false⟩ }.begin

/-- ERR_CACHE_MISS is thrown when it returns with misses. -/
def cacheExit (s : State) : Code State := do
  require (s.currentClient.client ≠ 0)
  require (s.clientExited = false)
  pure (if s.cacheMissCnt > 0 then s else { s with clientExited := true })

/-- The arguments are copied, unless they were. -/
def State.copyArgs (s : State) : State :=
  if s.currentClient.args ≠ .null && !s.currentClient.argsCopy then
    { s with
      memory := Function.update s.memory (.block s.serial) ((s.memory s.currentClient.args).take s.currentClient.argsSize)
      allocated := s.allocated ++ [.block s.serial]
      serial := s.serial + 1
      currentClient := { s.currentClient with args := .block s.serial, argsCopy := true } }
  else s

def State.lock (s : State) (channel : Address) : State :=
  if channel = 0 then s else { s with locks := Function.update s.locks channel (s.locks channel + 1) }

/-- The current client goes to a wait list. -/
def State.register (s : State) (cache : Address) : State :=
  let entry := { s.currentClient with self := s.serial }
  { s with
    cacheList := if s.waitList cache = [] then s.cacheList ++ [cache] else s.cacheList
    waitList := Function.update s.waitList cache (s.waitList cache ++ [entry])
    registered := s.registered ++ [entry]
    serial := s.serial + 1 }

/-- It ends with ERR_CACHE_MISS thrown. -/
def cacheWait (s : State) (cache : Address) : Code State := do
  require (s.clientExited = false)
  let s := if s.currentClient.client ≠ 0 && s.cacheMissCnt = 0 then
    (s.copyArgs.lock s.currentClient.channel).register cache else s
  pure { s with cacheMissCnt := s.cacheMissCnt + 1 }

/-- The loop of `cache_notify` from i on. -/
def notifyFrom (s : State) (i cnt : Nat) (below : List Frame) : State :=
  if i < cnt then s.retry (s.waitListBuf.getD i .null) (.notify i cnt) below else { s with stack := below }

/-- The wait list is taken off its cache. -/
def State.unlist (s : State) (cache : Address) : State :=
  { s with cacheList := s.cacheList.erase cache, waitList := Function.update s.waitList cache [] }

def cacheNotify (s : State) (cache : Address) : State :=
  let cnt := (s.waitList cache).length
  if cnt = 0 then s
  else notifyFrom { s.unlist cache with waitListBuf := s.waitList cache ++ s.waitListBuf.drop cnt } 0 cnt s.stack

/-- The loop of `cache_notify_event`. -/
def eventFrom (s : State) (buf : List Client) (below : List Frame) : State :=
  match buf with
  | [] => { s with stack := below }
  | c :: _ => if c.client = 0 then { s with stack := below } else s.retry c (.event buf) below

/-- The list ends with an entry of zeros. -/
def cacheNotifyLater (s : State) (cache : Address) : State :=
  if s.waitList cache = [] then s
  else { s.unlist cache with posted := s.posted ++ [s.waitList cache ++ [.null]] }

/-- How a client ends: an exception may also be ERR_CACHE_MISS. -/
inductive Outcome where
  | returned
  | raised
  deriving DecidableEq, Repr

/-- The client ends, and `run_cache_client` returns to its caller, which may go on with another client. -/
def clientEnds (s : State) (outcome : Outcome) : Code State := do
  require (outcome = .returned → s.cacheMissCnt = 0)
  require (outcome = .returned → s.clientExited = true)
  match s.stack with
  | [] => .error .stuck
  | .enter :: below => pure { s.end with stack := below }
  | .notify i cnt :: below => pure (notifyFrom (s.end.unlock (s.waitListBuf.getD i .null).channel) (i + 1) cnt below)
  | .event [] :: _ => .error .stuck
  | .event (c :: rest) :: below => pure (eventFrom (s.end.unlock c.channel) rest below)

/-- The first event of the queue. -/
def dispatch (s : State) : Code State :=
  match s.posted with
  | [] => .error .stuck
  | buf :: posted => .ok (eventFrom { s with posted } buf s.stack)

/-- Calls are made by the client on top of the stack, or else by the code that fills the caches. -/
inductive Event where
  | enter (client channel : Address) (args : Option (Address × List UInt8))
  | wait (cache : Address)
  | exit
  | notify (cache : Address)
  | notifyLater (cache : Address)
  | ends (outcome : Outcome)
  | dispatch
  deriving DecidableEq, Repr

def Enabled (s : State) : Event → Prop
  | .ends _ => s.stack ≠ []
  | .dispatch => s.stack = [] ∧ s.posted ≠ []
  | _ => True

instance decideEnabled (s : State) : ∀ e, Decidable (Enabled s e)
  | .ends _ => inferInstanceAs (Decidable (s.stack ≠ []))
  | .dispatch => inferInstanceAs (Decidable (s.stack = [] ∧ s.posted ≠ []))
  | .enter _ _ _ | .wait _ | .exit | .notify _ | .notifyLater _ => inferInstanceAs (Decidable True)

def step (s : State) : Event → Code State
  | .enter client channel args => cacheEnter s client channel args
  | .wait cache => cacheWait s cache
  | .exit => cacheExit s
  | .notify cache => .ok (cacheNotify s cache)
  | .notifyLater cache => .ok (cacheNotifyLater s cache)
  | .ends outcome => clientEnds s outcome
  | .dispatch => dispatch s

def clients : Process State Event where
  enabled := Enabled
  decide := decideEnabled
  step := step

def State.initial : State :=
  ⟨.null,false,0,[],0,[],fun _ => [],[],[],fun _ => 0,fun _ => [],0,[],[],[],[]⟩

/-- No client that runs notifies a cache that others wait for. It may do so later. -/
def NotNested (s : State) : Event → Prop
  | .notify cache => s.stack ≠ [] → s.waitList cache = []
  | _ => True

instance decideNotNested (s : State) : ∀ e, Decidable (NotNested s e)
  | .notify cache => inferInstanceAs (Decidable (s.stack ≠ [] → s.waitList cache = []))
  | .enter _ _ _ | .wait _ | .exit | .notifyLater _ | .ends _ | .dispatch => inferInstanceAs (Decidable True)

end Tcf.Cache
