import Tcf.Base.Process
import Mathlib.Logic.Function.Basic

/-! Asynchronous requests and the threads that work on them. A thread that has finished waits in a list for another
request; without an idle thread the dispatch thread makes a new one. Each section under the lock is one step. -/
namespace Tcf.AsyncReq

/-- `AsyncReqTimer`, `AsyncReqSeekRead` and `AsyncReqSeekWrite`, and the other types. -/
inductive Kind where
  | timer
  | seek
  | other
  deriving DecidableEq, Repr

/-- A post of an `AsyncReqInfo`; `id` is the number of the post. -/
structure Request where
  id : Nat
  kind : Kind
  deriving DecidableEq, Repr

/-- What `wt->req` points to. -/
inductive Job where
  | shutdown
  | request (r : Request)
  deriving DecidableEq, Repr

/-- Where a worker's thread is: before the end of the `switch`, before the lock, in `pthread_cond_wait`, out of the loop, and over;
then its memory is free. -/
inductive Phase where
  | working
  | finished
  | waiting
  | leaving
  | left
  | freed
  deriving DecidableEq, Repr

structure WorkerThread where
  phase : Phase
  req : Option Job
  deriving DecidableEq, Repr

inductive Shutdown where
  | stopped
  | normal
  | pending
  deriving DecidableEq, Repr

/-- What was posted to the event queue. -/
inductive Posted where
  | workerThreadAddDeferred (r : Request)
  | workerThreadExit (w : Nat)
  | done (r : Request)
  deriving DecidableEq, Repr

/-- `ENABLE_AIO` and `MAX_WORKER_THREADS`. -/
structure Build where
  aio : Bool
  maxWorkerThreads : Nat

/-- Where a request is; `gone` is a timer request whose thread has left. -/
inductive Place where
  | queued
  | worker (w : Nat)
  | aio
  | done
  | gone
  deriving DecidableEq, Repr

/-- `workers` are those of `wtlist` and the others, `aios` the requests of `aio_read` and `aio_write`. What follows `aios` is only for
proofs: the requests posted, where they are, how often each was executed, and how many events were posted for it. -/
structure State where
  workers : Nat → WorkerThread
  next : Nat
  wtlist : List Nat
  wtlistSize : Int
  wtrunningCount : Int
  shutdown : Shutdown
  events : List Posted
  aios : List Request
  posted : List Request
  place : Request → Place
  executed : Request → Nat
  completed : Request → Nat

def State.initial : State where
  workers _ := ⟨.freed,none⟩
  next := 0
  wtlist := []
  wtlistSize := 0
  wtrunningCount := 0
  shutdown := .stopped
  events := []
  aios := []
  posted := []
  place _ := .gone
  executed _ := 0
  completed _ := 0

namespace State

def setWorker (s : State) (w : Nat) (wt : WorkerThread) : State := { s with workers := Function.update s.workers w wt }

def put (s : State) (r : Request) (p : Place) : State := { s with place := Function.update s.place r p }

def execute (s : State) (r : Request) : State := { s with executed := Function.update s.executed r (s.executed r + 1) }

/-- `post_event(req->done, req)` -/
def postDone (s : State) (r : Request) : State :=
  { s with
    events := s.events ++ [.done r]
    place := Function.update s.place r .done
    completed := Function.update s.completed r (s.completed r + 1) }

end State

def workerThreadAdd (s : State) (dispatchThread : Bool) (r : Request) : Code State := do
  require (dispatchThread = true)
  let s := { (s.setWorker s.next ⟨.working,some (.request r)⟩).put r (.worker s.next) with next := s.next + 1 }
  pure { s with
    shutdown := if s.wtrunningCount = 0 then .normal else s.shutdown
    wtrunningCount := s.wtrunningCount + 1 }

/-- An idle worker gets a job. -/
def give (s : State) (w : Nat) (rest : List Nat) (job : Job) : Code State := do
  let s := { s with wtlist := rest, wtlistSize := s.wtlistSize - 1 }
  require ((s.workers w).req = none)
  pure (s.setWorker w { s.workers w with req := some job })

/-- `fails` is whether `aio_read` or `aio_write` does. -/
def asyncReqPost (b : Build) (s : State) (dispatchThread : Bool) (r : Request) (fails : Bool) : Code State :=
  let s := { s with posted := s.posted ++ [r] }
  if b.aio ∧ r.kind = .seek then
    if fails then pure ((s.execute r).postDone r)
    else pure (({ s with aios := s.aios ++ [r] }.execute r).put r .aio)
  else match s.wtlist with
    | [] => do
      require (s.wtlistSize = 0)
      if dispatchThread then workerThreadAdd s true r
      else pure (({ s with events := s.events ++ [Posted.workerThreadAddDeferred r] } : State).put r .queued)
    | w :: rest => do
      let s ← give s w rest (.request r)
      pure (s.put r (.worker w))

def triggerAsyncShutdown (s : State) : List Nat → Code State
  | [] => pure s
  | w :: rest => do
    let s ← give s w rest .shutdown
    triggerAsyncShutdown s rest

/-- The body of the `switch`; a timer's request is executed again until shutdown. -/
def executeRequest (s : State) (w : Nat) : Code State :=
  match (s.workers w).req with
  | some (.request r) =>
    let s := s.execute r
    if r.kind = .timer then
      if s.shutdown = .pending then pure ((s.setWorker w ⟨.leaving,some (.request r)⟩).put r .gone) else pure s
    else pure (s.setWorker w ⟨.finished,some (.request r)⟩)
  | some .shutdown => .error .fault
  | none => .error .assertion

/-- The section under the lock after a request. -/
def asyncReqComplete (b : Build) (s : State) (w : Nat) : Code State :=
  match (s.workers w).req with
  | some (.request r) =>
    let s := s.postDone r
    if s.wtlistSize ≥ b.maxWorkerThreads ∨ s.shutdown = .pending then pure (s.setWorker w ⟨.leaving,none⟩)
    else pure { s.setWorker w ⟨.waiting,none⟩ with wtlist := s.wtlist ++ [w], wtlistSize := s.wtlistSize + 1 }
  | _ => .error .fault

/-- The end of `pthread_cond_wait`. -/
def wake (s : State) (w : Nat) : State :=
  s.setWorker w { s.workers w with phase := if (s.workers w).req = some .shutdown then .leaving else .working }

def workerThreadExit (s : State) (w : Nat) : State :=
  { s.setWorker w { s.workers w with phase := .freed } with
    wtrunningCount := s.wtrunningCount - 1
    shutdown := if s.wtrunningCount - 1 = 0 then .stopped else s.shutdown }

inductive Event where
  | post (dispatchThread : Bool) (r : Request) (fails : Bool)
  | execute (w : Nat)
  | complete (w : Nat)
  | wake (w : Nat)
  | leave (w : Nat)
  | aioDone (r : Request)
  | handle (e : Posted)
  | shutdown
  deriving DecidableEq, Repr

def handlePosted (s : State) : Posted → Code State
  | .workerThreadAddDeferred r => workerThreadAdd s true r
  | .workerThreadExit w => pure (workerThreadExit s w)
  | .done _ => pure s

/-- A post has a number of its own; a thread makes the step that it is at. -/
def Enabled (s : State) : Event → Prop
  | .post _ r _ => ∀ r' ∈ s.posted, r'.id ≠ r.id
  | .execute w => w < s.next ∧ (s.workers w).phase = .working
  | .complete w => w < s.next ∧ (s.workers w).phase = .finished
  | .wake w => w < s.next ∧ (s.workers w).phase = .waiting ∧ (s.workers w).req ≠ none
  | .leave w => w < s.next ∧ (s.workers w).phase = .leaving
  | .aioDone r => r ∈ s.aios
  | .handle e => e ∈ s.events
  | .shutdown => s.shutdown = .normal

instance decideEnabled (s : State) : ∀ event, Decidable (Enabled s event)
  | .post _ r _ => inferInstanceAs (Decidable (∀ r' ∈ s.posted, r'.id ≠ r.id))
  | .execute w => inferInstanceAs (Decidable (w < s.next ∧ (s.workers w).phase = .working))
  | .complete w => inferInstanceAs (Decidable (w < s.next ∧ (s.workers w).phase = .finished))
  | .wake w => inferInstanceAs (Decidable (w < s.next ∧ (s.workers w).phase = .waiting ∧ (s.workers w).req ≠ none))
  | .leave w => inferInstanceAs (Decidable (w < s.next ∧ (s.workers w).phase = .leaving))
  | .aioDone r => inferInstanceAs (Decidable (r ∈ s.aios))
  | .handle e => inferInstanceAs (Decidable (e ∈ s.events))
  | .shutdown => inferInstanceAs (Decidable (s.shutdown = .normal))

def step (b : Build) (s : State) : Event → Code State
  | .post dispatchThread r fails => asyncReqPost b s dispatchThread r fails
  | .execute w => executeRequest s w
  | .complete w => asyncReqComplete b s w
  | .wake w => pure (wake s w)
  | .leave w => pure { s.setWorker w { s.workers w with phase := .left } with events := s.events ++ [.workerThreadExit w] }
  | .aioDone r => pure ({ s with aios := s.aios.erase r }.postDone r)
  | .handle e => handlePosted { s with events := s.events.erase e } e
  | .shutdown => triggerAsyncShutdown { s with shutdown := .pending } s.wtlist

def process (b : Build) : Process State Event where
  enabled := Enabled
  decide := decideEnabled
  step := step b

end Tcf.AsyncReq
