import Tcf.Base.Process
import Mathlib.Logic.Function.Basic
import Mathlib.Algebra.Order.Ring.Int

/-! The proxy's cache of the target's memory: blocks that wait for a reply or hold its bytes,
and the events that flush them. Each byte knows when it came. -/
namespace Tcf.MemoryCache

abbrev Time := Nat
abbrev Client := Nat

/-- A byte of memory, and the time of the reply that carried it. -/
abbrev Cell := UInt8 × Time

structure ErrorAddress where
  addr : BitVec 64
  size : BitVec 64
  stat : Int
  deriving DecidableEq, Repr

/-- `MemoryCache`. `waiting` is the wait list of its `cache`; `joined` are the clients that came to it
and `notified` those that `cache_notify_later` has posted. -/
structure Block where
  ctx : Nat
  addr : BitVec 64
  buf : List Cell
  size : Nat
  pending : Bool
  disposed : Bool
  error : Bool
  errorsAddress : List ErrorAddress
  waiting : List Client
  joined : List Client
  notified : List Client
  deriving DecidableEq, Repr

/-- A call that copied memory: `ok` when it returned 0. `flushed` is the time of the last event for the memory space. -/
structure Returned where
  ctx : Nat
  ok : Bool
  bytes : List Cell
  flushed : Time
  deriving DecidableEq, Repr

/-- `lists` are the lists `mem_cache_list`, from their heads on; blocks have serial numbers. -/
structure State where
  rcDone : Bool
  intercepted : Nat → Bool
  lists : Nat → List Nat
  heap : Nat → Block
  next : Nat
  freed : List Nat
  clock : Time
  flushed : Nat → Time
  returned : List Returned

/-- `context_root`, and the memory space of each context. -/
structure World where
  root : List Nat
  mem : Nat → Nat

def State.setBlock (s : State) (m : Nat) (b : Block) : State := { s with heap := Function.update s.heap m b }

/-- A block that was freed is not to be touched. -/
def freeMemoryCache (s : State) (m : Nat) : Code State := do
  if m ∈ s.freed then .error .fault
  let b := s.heap m
  let s := { s.setBlock m { b with disposed := true } with lists := Function.update s.lists b.ctx ((s.lists b.ctx).erase m) }
  if b.pending then pure s
  else do
    require (b.waiting = [])
    pure { s with freed := s.freed ++ [m] }

/-- The loop over a context's list: `l` runs through what the list had, `m` is always its head. -/
def flushLoop (pendingToo : Bool) (ctx : Nat) : List Nat → State → Code State
  | [], s => pure s
  | _ :: l, s =>
    match s.lists ctx with
    | [] => .error .fault
    | m :: _ => do
      let s ← (if pendingToo || !(s.heap m).pending then freeMemoryCache s m else pure s : Code State)
      flushLoop pendingToo ctx l s

/-- The loop over `context_root`. -/
def flushSpace (w : World) (pendingToo : Bool) (space : Nat) (s : State) : Code State :=
  (w.root.filter fun ctx => w.mem ctx = space).foldlM (fun s ctx => flushLoop pendingToo ctx (s.lists ctx) s) s

/-- The memory part of `on_context_suspended`, which leaves blocks that wait for a reply. -/
def onContextSuspended (w : World) (s : State) (c : Nat) : Code State :=
  if s.rcDone then flushSpace w false (w.mem c) s else pure s

/-- A context is suspended, by its own event or by one of a container. -/
def suspend (w : World) (s : State) (c : Nat) : Code State :=
  if c ∈ w.root then
    let s := { s with flushed := Function.update s.flushed (w.mem c) s.clock }
    if s.intercepted c then pure s
    else onContextSuspended w { s with intercepted := Function.update s.intercepted c true } c
  else pure s

def resume (w : World) (s : State) (c : Nat) : State :=
  if c ∈ w.root then { s with intercepted := Function.update s.intercepted c false } else s

def eventMemoryChanged (w : World) (s : State) (c : Nat) : Code State :=
  if c ∈ w.root ∧ s.rcDone then
    flushSpace w true (w.mem c) { s with flushed := Function.update s.flushed (w.mem c) s.clock }
  else pure s

/-- A reply to Memory.get, as far as it could be read. -/
structure Reply where
  data : List UInt8
  error : Bool
  errorsAddress : List ErrorAddress
  deriving DecidableEq, Repr

def validateMemoryCache (s : State) (m : Nat) (reply : Reply) : Code State := do
  let b := s.heap m
  require (b.pending = true)
  require (b.error = false)
  require (b.errorsAddress = [])
  let bytes := reply.data.take b.size
  let s := s.setBlock m { b with
    pending := false
    buf := bytes.map (fun byte => (byte,s.clock)) ++ b.buf.drop bytes.length
    error := reply.error
    errorsAddress := reply.errorsAddress
    waiting := []
    notified := b.notified ++ b.waiting }
  if b.disposed then freeMemoryCache s m else pure s

/-- The range of a request lies in that of a block, in 64 bits. -/
def inside (address : BitVec 64) (size : Nat) (addr : BitVec 64) (room : BitVec 64) : Bool :=
  addr ≤ address && address + BitVec.ofNat 64 size ≤ addr + room

/-- A part of memory that was read although there is an error. -/
def Block.valid (b : Block) (address : BitVec 64) (size : Nat) : Bool :=
  b.error && b.errorsAddress.any fun e => e.stat = 0 && inside address size e.addr e.size

/-- A client that does not wait elsewhere waits for the block. -/
def State.wait (s : State) (m : Nat) (client : Option Client) : State :=
  let b := s.heap m
  s.setBlock m { b with waiting := b.waiting ++ client.toList, joined := b.joined ++ client.toList }

/-- The client's memory gets a part of the block's. -/
def State.copy (s : State) (w : World) (ctx m : Nat) (address : BitVec 64) (size : Nat) : Code State :=
  let b := s.heap m
  let offset := (address - b.addr).toNat
  if offset + size ≤ b.buf.length then
    pure { s with returned := s.returned ++
      [⟨ctx,!b.error || b.valid address size,(b.buf.drop offset).take size,s.flushed (w.mem ctx)⟩] }
  else .error .fault

/-- `junk` is what `loc_alloc` has found. Where it waits it throws; `client` is none when the current
client of the cache already waits. -/
def contextReadMem (w : World) (s : State) (client : Option Client) (ctx : Nat) (address : BitVec 64) (size : Nat)
    (junk : List Cell) : Code State :=
  if s.rcDone = false then pure s
  else match (s.lists ctx).find? fun m => inside address size (s.heap m).addr (BitVec.ofNat 64 (s.heap m).size) with
    | some m => if (s.heap m).pending then pure (s.wait m client) else s.copy w ctx m address size
    | none =>
      let b : Block := ⟨ctx,address,junk,size,true,false,false,[],client.toList,client.toList,[]⟩
      pure { s.setBlock s.next b with
        lists := Function.update s.lists ctx (s.next :: s.lists ctx)
        next := s.next + 1 }

inductive Event where
  | rcDone
  | read (client : Option Client) (ctx : Nat) (address : BitVec 64) (size : Nat) (junk : List Cell)
  | reply (m : Nat) (reply : Reply)
  | suspended (c : Nat)
  | containerSuspended (c : Nat) (ids : List Nat)
  | resumed (c : Nat)
  | memoryChanged (c : Nat)
  deriving DecidableEq, Repr

/-- Clients have live contexts, and a reply comes to a request that waits for it. -/
def Enabled (w : World) (s : State) : Event → Prop
  | .read _ ctx _ size junk => ctx ∈ w.root ∧ junk.length = size ∧ size < 2^64
  | .reply m _ => m < s.next ∧ (s.heap m).pending = true
  | _ => True

instance decideEnabled (w : World) (s : State) : ∀ e, Decidable (Enabled w s e)
  | .read _ ctx _ size junk => inferInstanceAs (Decidable (ctx ∈ w.root ∧ junk.length = size ∧ size < 2^64))
  | .reply m _ => inferInstanceAs (Decidable (m < s.next ∧ (s.heap m).pending = true))
  | .rcDone | .suspended _ | .containerSuspended _ _ | .resumed _ | .memoryChanged _ => inferInstanceAs (Decidable True)

def handle (w : World) (s : State) : Event → Code State
  | .rcDone => pure { s with rcDone := true }
  | .read client ctx address size junk => contextReadMem w s client ctx address size junk
  | .reply m reply => validateMemoryCache s m reply
  | .suspended c => suspend w s c
  | .containerSuspended c ids => (c :: ids).foldlM (suspend w) s
  | .resumed c => pure (resume w s c)
  | .memoryChanged c => eventMemoryChanged w s c

def step (w : World) (s : State) (e : Event) : Code State := handle w { s with clock := s.clock + 1 } e

def process (w : World) : Process State Event where
  enabled := Enabled w
  decide := decideEnabled w
  step := step w

def State.initial : State :=
  ⟨false,fun _ => false,fun _ => [],fun _ => ⟨0,0,[],0,false,false,false,[],[],[],[]⟩,0,[],0,fun _ => 0,[]⟩

/-! When events flush what they should. -/

/-- A reply without an error has all bytes, one with an error those of the parts that it calls good. -/
def Complete (b : Block) (reply : Reply) : Prop :=
  (reply.error = false → b.size ≤ reply.data.length) ∧
    ∀ e ∈ reply.errorsAddress, e.stat = 0 → e.addr.toNat + e.size.toNat ≤ b.addr.toNat + reply.data.length

/-- Blocks with bytes are gone after the event: a context that was running is suspended, and no block with
bytes lies behind one that waits for its reply; or there are none. -/
def Flushes (w : World) (s : State) (c : Nat) : Prop :=
  c ∈ w.root → s.rcDone = true → ∀ ctx ∈ w.root, w.mem ctx = w.mem c →
    ∀ m ∈ (if s.intercepted c then s.lists ctx else (s.lists ctx).dropWhile fun m => !(s.heap m).pending),
      (s.heap m).pending = true

instance (w : World) (s : State) (c : Nat) : Decidable (Flushes w s c) :=
  inferInstanceAs (Decidable (_ → _))

/-- One context after the other. -/
def FlushAll (w : World) : State → List Nat → Prop
  | _, [] => True
  | s, c :: ids => Flushes w s c ∧ ∀ next, suspend w s c = .ok next → FlushAll w next ids

instance (b : Block) (reply : Reply) : Decidable (Complete b reply) := inferInstanceAs (Decidable (_ ∧ _))

theorem flushAll_ok {w : World} {s next : State} {c : Nat} {ids : List Nat} (run : suspend w s c = .ok next) :
    FlushAll w s (c :: ids) ↔ Flushes w s c ∧ FlushAll w next ids := by simp [FlushAll,run]

theorem flushAll_error {w : World} {s : State} {c : Nat} {ids : List Nat} {stop : Stop} (run : suspend w s c = .error stop) :
    FlushAll w s (c :: ids) ↔ Flushes w s c := by simp [FlushAll,run]

instance decideFlushAll (w : World) : ∀ s ids, Decidable (FlushAll w s ids)
  | _, [] => isTrue trivial
  | s, c :: ids =>
    match run : suspend w s c with
    | .ok next =>
      have : Decidable (FlushAll w next ids) := decideFlushAll w next ids
      decidable_of_iff _ (flushAll_ok run).symm
    | .error _ => decidable_of_iff _ (flushAll_error run).symm

/-- No read reaches the end of the address space. -/
def Orderly (w : World) (s : State) : Event → Prop
  | .read _ _ address size _ => address.toNat + size < 2^64
  | .reply m reply => Complete (s.heap m) reply
  | .suspended c => Flushes w s c
  | .containerSuspended c ids => FlushAll w { s with clock := s.clock + 1 } (c :: ids)
  | _ => True

instance decideOrderly (w : World) (s : State) : ∀ e, Decidable (Orderly w s e)
  | .read _ _ address size _ => inferInstanceAs (Decidable (address.toNat + size < 2^64))
  | .reply m reply => inferInstanceAs (Decidable (Complete (s.heap m) reply))
  | .suspended c => inferInstanceAs (Decidable (Flushes w s c))
  | .containerSuspended c ids => inferInstanceAs (Decidable (FlushAll w { s with clock := s.clock + 1 } (c :: ids)))
  | .rcDone | .resumed _ | .memoryChanged _ => inferInstanceAs (Decidable True)

end Tcf.MemoryCache
