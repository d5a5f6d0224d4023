import Tcf.Base.Process

/-! The event queue: events without a time, a list of timed events in the order of their times, and
the loop that runs handlers. Other threads post events at any time. -/
namespace Tcf.Events

structure Time where
  sec : Nat
  nsec : Nat
  deriving DecidableEq, Repr

/-- `event_node`, at an address. Addresses up to `EVENT_BUF_SIZE` are in `event_buf`. `id` is the number of the event, `timed`
says how it was posted, and `moved` how many events were posted when it was moved to the event queue. -/
structure Node where
  addr : Nat
  runtime : Time
  handler : Nat
  arg : Nat
  id : Nat
  timed : Bool
  moved : Nat
  deriving DecidableEq, Repr

def EVENT_BUF_SIZE : Nat := 0x200

/-- Where the dispatch thread is: before the next event, in the wait for one, or in a handler. -/
inductive Phase where
  | top
  | waiting
  | running (ev : Node)
  deriving DecidableEq, Repr

/-- The dispatch thread waits in `cancel_event` for as long as there is a `cancelHandler`. `serial` counts the posts,
`dispatched` are the events whose handlers were called, and `cancelled` those removed, with what was asked for. -/
structure State where
  freeQueue : List Nat
  freeBgQueue : List Nat
  eventQueue : List Node
  eventLast : Option Nat
  timerQueue : List Node
  cancelHandler : Option (Nat × Nat)
  phase : Phase
  eventCnt : Nat
  serial : Nat
  dispatched : List Node
  cancelled : List ((Nat × Nat) × Node)
  deriving DecidableEq, Repr

def timeCmp (tv1 tv2 : Time) : Code Int := do
  require (tv1.nsec < 1000000000)
  require (tv2.nsec < 1000000000)
  pure (if tv1.sec < tv2.sec then -1
    else if tv1.sec > tv2.sec then 1
    else if tv1.nsec < tv2.nsec then -1
    else if tv1.nsec > tv2.nsec then 1
    else 0)

def timeAddUsec (tv : Time) (usec : Nat) : Time :=
  let sec := tv.sec + usec / 1000000
  let nsec := tv.nsec + usec % 1000000 * 1000
  if nsec ≥ 1000000000 then ⟨sec + 1,nsec - 1000000000⟩ else ⟨sec,nsec⟩

/-- `block` is what `loc_alloc` returns, if it is called. -/
def allocEventNode (free : List Nat) (block : Nat) : Nat × List Nat :=
  match free with
  | [] => (block,[])
  | addr :: rest => (addr,rest)

def State.freeNode (s : State) (addr : Nat) : State :=
  if addr < EVENT_BUF_SIZE then { s with freeQueue := addr :: s.freeQueue } else s

/-- A timed event goes behind those that are not later. -/
def insertTimer (ev : Node) : List Node → Code (List Node)
  | [] => pure [ev]
  | next :: rest => do
    let order ← timeCmp ev.runtime next.runtime
    if order ≥ 0 then do
      let rest ← insertTimer ev rest
      pure (next :: rest)
    else pure (ev :: next :: rest)

def postFromBgThread (s : State) (handler arg : Nat) (now : Time) (delay block : Nat) : Code State := do
  let runtime := timeAddUsec now delay
  if s.cancelHandler = some (handler,arg) then
    pure { s with
      cancelHandler := none
      serial := s.serial + 1
      cancelled := s.cancelled ++ [((handler,arg),⟨block,runtime,handler,arg,s.serial,true,0⟩)] }
  else do
    let (addr,freeBgQueue) := allocEventNode s.freeBgQueue block
    let timerQueue ← insertTimer ⟨addr,runtime,handler,arg,s.serial,true,0⟩ s.timerQueue
    pure { s with freeBgQueue, timerQueue, serial := s.serial + 1 }

/-- From the dispatch thread. -/
def postEventWithDelay (s : State) (handler arg : Nat) (now : Time) (delay block : Nat) : Code State := do
  let runtime := timeAddUsec now delay
  let (addr,freeQueue) := allocEventNode s.freeQueue block
  let timerQueue ← insertTimer ⟨addr,runtime,handler,arg,s.serial,true,0⟩ s.timerQueue
  pure { s with freeQueue, timerQueue, serial := s.serial + 1 }

/-- `event_last->next = ev` -/
def linkAfter (last : Nat) (ev : Node) : List Node → List Node
  | [] => []
  | next :: rest => if next.addr = last then [next,ev] else next :: linkAfter last ev rest

/-- From the dispatch thread. Only the seconds of the time are set. -/
def postEvent (s : State) (handler arg block : Nat) : Code State :=
  let (addr,freeQueue) := allocEventNode s.freeQueue block
  let ev : Node := ⟨addr,⟨0,0⟩,handler,arg,s.serial,false,0⟩
  if s.eventQueue = [] then do
    require (s.eventLast = none)
    pure { s with freeQueue, eventQueue := [ev], eventLast := some addr, serial := s.serial + 1 }
  else
    match s.eventLast with
    | none => .error .fault
    | some last => pure { s with
        freeQueue
        eventQueue := linkAfter last ev s.eventQueue
        eventLast := some addr
        serial := s.serial + 1 }

def Node.is (handler arg : Nat) (ev : Node) : Bool := ev.handler = handler && ev.arg = arg

/-- The first event that is meant, with what is before and behind it. -/
def findEvent (handler arg : Nat) (queue : List Node) : Option (List Node × Node × List Node) :=
  match queue.dropWhile fun ev => !ev.is handler arg with
  | [] => none
  | ev :: behind => some (queue.takeWhile fun ev => !ev.is handler arg,ev,behind)

/-- Returns 1, except that it returns 0 without `wait` when there is no such event. -/
def cancelEvent (s : State) (handler arg : Nat) (wait : Bool) : Code State := do
  require (handler ≠ 0)
  require (s.cancelHandler = none)
  match findEvent handler arg s.eventQueue with
  | some (before,ev,behind) => do
    require (behind = [] → s.eventLast = some ev.addr)
    let eventLast := if behind = [] then before.getLast?.map Node.addr else s.eventLast
    let s := { s with eventQueue := before ++ behind, eventLast, cancelled := s.cancelled ++ [((handler,arg),ev)] }
    pure (s.freeNode ev.addr)
  | none =>
    match findEvent handler arg s.timerQueue with
    | some (before,ev,behind) =>
      let s := { s with timerQueue := before ++ behind, cancelled := s.cancelled ++ [((handler,arg),ev)] }
      pure (s.freeNode ev.addr)
    | none => pure (if wait then { s with cancelHandler := some (handler,arg) } else s)

/-- Free nodes for other threads: at least two. -/
def shareFree : List Nat → List Nat → List Nat × List Nat
  | [], bg => ([],bg)
  | addr :: free, bg => if bg.length < 2 then shareFree free (addr :: bg) else (addr :: free,bg)

/-- The timed events that are ready, and the others. -/
def dueTimers (now : Time) : List Node → Code (List Node × List Node)
  | [] => pure ([],[])
  | ev :: rest => do
    let order ← timeCmp ev.runtime now
    if order ≤ 0 then do
      let (due,later) ← dueTimers now rest
      pure (ev :: due,later)
    else pure ([],ev :: rest)

/-- The loop under the lock, up to its end or a wait. -/
def gather (s : State) (now : Time) : Code State := do
  let (due,timerQueue) ← dueTimers now s.timerQueue
  if due = [] then pure (if s.eventQueue = [] then { s with phase := .waiting } else s)
  else do
    require (s.eventQueue = [] → s.eventLast = none)
    let eventLast := if s.eventQueue = [] then due.getLast?.map Node.addr else s.eventLast
    pure { s with eventQueue := due.map (fun ev => { ev with moved := s.serial }) ++ s.eventQueue, eventLast, timerQueue }

/-- The first event is taken off the queue, and its handler is called. -/
def callHandler (s : State) : Code State :=
  match s.eventQueue with
  | [] => .error .fault
  | ev :: eventQueue => do
    require (eventQueue = [] → s.eventLast = some ev.addr)
    pure { s with
      eventQueue
      eventLast := if eventQueue = [] then none else s.eventLast
      eventCnt := if ev.runtime.sec = 0 then s.eventCnt + 1 else s.eventCnt
      phase := .running ev
      dispatched := s.dispatched ++ [ev] }

/-- It goes on to the handler, unless it waits. -/
def goOn (s : State) (now : Time) : Code State := do
  let s ← gather { s with phase := .top } now
  if s.phase = .waiting then pure s else callHandler s

/-- One round of `run_event_loop`. `late` says that 100 ms have gone by. -/
def runEventLoop (s : State) (now : Time) (late : Bool) : Code State :=
  if s.eventQueue = [] ∨ s.eventCnt ≥ 100 ∨ (s.eventCnt ≥ 1 ∧ late = true) then
    let (freeQueue,freeBgQueue) := shareFree s.freeQueue s.freeBgQueue
    goOn { s with eventCnt := 0, freeQueue, freeBgQueue } now
  else callHandler s

/-- The handler returns. -/
def handlerReturned (s : State) : Code State :=
  match s.phase with
  | .running ev => pure ({ s with phase := .top }.freeNode ev.addr)
  | _ => .error .stuck

/-- `restart` is for `cancel_event_loop` and a new `run_event_loop`. -/
inductive Event where
  | post (handler arg block : Nat)
  | postDelayed (handler arg : Nat) (now : Time) (delay block : Nat)
  | postBg (handler arg : Nat) (now : Time) (delay block : Nat)
  | cancel (handler arg : Nat) (wait : Bool)
  | loop (now : Time) (late : Bool)
  | wake (now : Time)
  | returned
  | restart
  deriving DecidableEq, Repr

def Phase.addrs : Phase → List Nat
  | .running ev => [ev.addr]
  | .top | .waiting => []

/-- Nodes in use. -/
def State.used (s : State) : List Nat := s.eventQueue.map Node.addr ++ s.timerQueue.map Node.addr ++ s.phase.addrs

/-- A block of its own. -/
def State.Fresh (s : State) (block : Nat) : Prop := EVENT_BUF_SIZE ≤ block ∧ block ∉ s.used

instance (s : State) (block : Nat) : Decidable (s.Fresh block) :=
  inferInstanceAs (Decidable (EVENT_BUF_SIZE ≤ block ∧ block ∉ s.used))

def Enabled (s : State) : Event → Prop
  | .post _ _ block => s.phase ≠ .waiting ∧ s.cancelHandler = none ∧ s.Fresh block
  | .postDelayed _ _ now _ block => s.phase ≠ .waiting ∧ s.cancelHandler = none ∧ s.Fresh block ∧ now.nsec < 1000000000
  | .postBg _ _ now _ block => s.Fresh block ∧ now.nsec < 1000000000
  | .cancel handler _ _ => s.phase ≠ .waiting ∧ s.cancelHandler = none ∧ handler ≠ 0
  | .loop now _ => s.phase = .top ∧ s.cancelHandler = none ∧ now.nsec < 1000000000
  | .wake now => s.phase = .waiting ∧ now.nsec < 1000000000
  | .returned => (s.phase ≠ .top ∧ s.phase ≠ .waiting) ∧ s.cancelHandler = none
  | .restart => s.phase = .top ∧ s.cancelHandler = none

instance decideEnabled (s : State) : ∀ e, Decidable (Enabled s e)
  | .post _ _ block => inferInstanceAs (Decidable (s.phase ≠ .waiting ∧ s.cancelHandler = none ∧ s.Fresh block))
  | .postDelayed _ _ now _ block =>
    inferInstanceAs (Decidable (s.phase ≠ .waiting ∧ s.cancelHandler = none ∧ s.Fresh block ∧ now.nsec < 1000000000))
  | .postBg _ _ now _ block => inferInstanceAs (Decidable (s.Fresh block ∧ now.nsec < 1000000000))
  | .cancel handler _ _ => inferInstanceAs (Decidable (s.phase ≠ .waiting ∧ s.cancelHandler = none ∧ handler ≠ 0))
  | .loop now _ => inferInstanceAs (Decidable (s.phase = .top ∧ s.cancelHandler = none ∧ now.nsec < 1000000000))
  | .wake now => inferInstanceAs (Decidable (s.phase = .waiting ∧ now.nsec < 1000000000))
  | .returned => inferInstanceAs (Decidable ((s.phase ≠ .top ∧ s.phase ≠ .waiting) ∧ s.cancelHandler = none))
  | .restart => inferInstanceAs (Decidable (s.phase = .top ∧ s.cancelHandler = none))

def step (s : State) : Event → Code State
  | .post handler arg block => postEvent s handler arg block
  | .postDelayed handler arg now delay block => postEventWithDelay s handler arg now delay block
  | .postBg handler arg now delay block => postFromBgThread s handler arg now delay block
  | .cancel handler arg wait => cancelEvent s handler arg wait
  | .loop now late => runEventLoop s now late
  | .wake now => goOn s now
  | .returned => handlerReturned s
  | .restart => pure { s with eventCnt := 0 }

def events : Process State Event where
  enabled := Enabled
  decide := decideEnabled
  step := step

/-- `ini_events_queue` -/
def State.initial : State where
  freeQueue := (List.range EVENT_BUF_SIZE).reverse
  freeBgQueue := []
  eventQueue := []
  eventLast := none
  timerQueue := []
  cancelHandler := none
  phase := .top
  eventCnt := 0
  serial := 0
  dispatched := []
  cancelled := []

/-- The times of timed events are later than the first second of the clock: 0 seconds mark an event without a time. -/
def AfterEpoch (_ : State) : Event → Prop
  | .postDelayed _ _ now delay _ | .postBg _ _ now delay _ => (timeAddUsec now delay).sec ≠ 0
  | _ => True

instance decideAfterEpoch (s : State) : ∀ e, Decidable (AfterEpoch s e)
  | .postDelayed _ _ now delay _ | .postBg _ _ now delay _ => inferInstanceAs (Decidable ((timeAddUsec now delay).sec ≠ 0))
  | .post _ _ _ | .cancel _ _ _ | .loop _ _ | .wake _ | .returned | .restart => inferInstanceAs (Decidable True)

end Tcf.Events
