import Tcf.Base.Process
import Tcf.Base.Buckets
import Tcf.Base.ByteNumbers

/-! The stack trace profiler: samples of hierarchical profilers pass through an event, and a stop of the thread
if it runs, before they are counted. -/
namespace Tcf.ProfilerSst

abbrev Address := UInt64

/-- `address` tells one block of the heap from another. -/
structure SampleStackTrace where
  address : Nat
  pc : List Address
  deriving DecidableEq, Repr

structure ProfilerSample where
  pc : Address
  stk : Option SampleStackTrace
  cnt : Nat
  deriving DecidableEq, Repr

/-- A sample in flight, only for proofs: the program counter passed with it, and the one at the stop of the thread for it. -/
structure Flight where
  number : Nat
  pc : Address
  stop : Option Address
  deriving DecidableEq, Repr

abbrev Key := Address × List Address

/-- `stop_pending` is that samples wait for a stop. A profiler is listed with its context until it is disposed. `posted` are
the arguments of posted events and of clients that wait for a cache. `allocated` makes addresses of stack traces; `taken` and
`counted` are samples since the buffers were freed, only for proofs. -/
structure ProfilerSST where
  address : Nat
  ctx : Nat
  channel : Nat
  frameCnt : Nat
  psampleHash : Nat → List ProfilerSample
  psampleCnt : Nat
  straceHash : Nat → List SampleStackTrace
  waiting : List Flight
  pc : Address
  disposed : Bool
  lock : Nat
  posted : List Flight
  allocated : Nat
  taken : List Nat
  counted : List (Flight × Key)

def psampleHashSize : Nat := 511

def straceHashSize : Nat := 511

/-- `(unsigned)(pc >> 4)` -/
def shifted (pc : Address) : Nat := (pc >>> 4).toNat % 2^32

def psampleIndex (pc : Address) : Nat := shifted pc % psampleHashSize

def straceIndex (buf : List Address) : Nat := buf.foldl (fun h pc => (h + shifted pc) % 2^32 % straceHashSize) 0

def findStackTrace (prf : ProfilerSST) (buf : List Address) : ProfilerSST × Option SampleStackTrace :=
  if buf = [] then (prf,none)
  else
    let h := straceIndex buf
    match (prf.straceHash h).find? fun stk => stk.pc = buf with
    | some stk => (prf,some stk)
    | none =>
      let stk : SampleStackTrace := ⟨prf.allocated,buf⟩
      ({ prf with straceHash := Function.update prf.straceHash h (stk :: prf.straceHash h), allocated := prf.allocated + 1 },some stk)

def SameSample (pc : Address) (stk : Option SampleStackTrace) (s : ProfilerSample) : Prop :=
  s.pc = pc ∧ s.stk.map SampleStackTrace.address = stk.map SampleStackTrace.address

instance (pc : Address) (stk : Option SampleStackTrace) : DecidablePred (SameSample pc stk) := fun s =>
  inferInstanceAs (Decidable (s.pc = pc ∧ s.stk.map SampleStackTrace.address = stk.map SampleStackTrace.address))

/-- The first sample that is the same, with one more. -/
def countSample (pc : Address) (stk : Option SampleStackTrace) : List ProfilerSample → Option (List ProfilerSample)
  | [] => none
  | s :: rest =>
    if SameSample pc stk s then some ({ s with cnt := (s.cnt + 1) % 2^32 } :: rest)
    else (countSample pc stk rest).map (s :: ·)

def addToSampleArray (prf : ProfilerSST) (pc : Address) (stk : Option SampleStackTrace) : ProfilerSST :=
  let h := psampleIndex pc
  match countSample pc stk (prf.psampleHash h) with
  | some a => { prf with psampleHash := Function.update prf.psampleHash h a }
  | none => { prf with
      psampleHash := Function.update prf.psampleHash h (prf.psampleHash h ++ [⟨pc,stk,1⟩])
      psampleCnt := (prf.psampleCnt + 3 + (stk.map fun stk => stk.pc.length).getD 0) % 2^32 }

/-- A context with state. `pc` is what `get_regs_PC` reads. -/
structure Thread where
  stopped : Bool
  pc : Address
  deriving DecidableEq, Repr

/-- A sample counted, with the addresses of the callers that could be read. -/
def addCounted (prf : ProfilerSST) (f : Flight) (buf : List Address) : ProfilerSST :=
  let (prf,stk) := findStackTrace prf buf
  { addToSampleArray prf prf.pc stk with counted := prf.counted ++ [(f,prf.pc,buf)] }

/-- `add_sample_cache_client` up to `cache_exit`; a thread that runs is told to stop. `frames` are the addresses that
`get_stack_trace` reads from frame to frame. -/
def attempt (thread : Thread) (frames : List Address) (f : Flight) (prf : ProfilerSST) : ProfilerSST × List Address :=
  if prf.frameCnt > 1 then
    if thread.stopped then ({ prf with pc := thread.pc },frames.take (prf.frameCnt - 1))
    else ({ prf with waiting := prf.waiting ++ [f] },[])
  else (prf,[])

def addSampleCacheClient (thread : Thread) (frames : List Address) (f : Flight) (prf : ProfilerSST) : ProfilerSST :=
  let (prf,buf) := attempt thread frames f prf
  let prf := if prf.disposed = false ∧ prf.waiting = [] then addCounted prf f buf else prf
  { prf with lock := prf.lock - 1, posted := prf.posted.eraseP fun other => other.number = f.number }

def addSample (f : Flight) (prf : ProfilerSST) : ProfilerSST :=
  { prf with lock := prf.lock + 1, posted := prf.posted ++ [f] }

/-- `profiler_sst_sample` for one profiler of the context. -/
def sample (number : Nat) (pc : Address) (prf : ProfilerSST) : ProfilerSST :=
  let prf := { prf with taken := prf.taken ++ [number] }
  if prf.frameCnt ≤ 1 then
    if prf.frameCnt > 0 then { addToSampleArray prf pc none with counted := prf.counted ++ [(⟨number,pc,none⟩,pc,[])] } else prf
  else addSample ⟨number,pc,none⟩ { prf with pc }

/-- `event_context_stopped` for one profiler of the context. -/
def eventContextStopped (pc : Address) (prf : ProfilerSST) : ProfilerSST :=
  match prf.waiting with
  | [] => prf
  | f :: _ => addSample { f with stop := some pc } { prf with waiting := [] }

def freeBuffers (prf : ProfilerSST) : ProfilerSST :=
  { prf with
    psampleHash := fun _ => []
    psampleCnt := 0
    straceHash := fun _ => []
    taken := (prf.posted ++ prf.waiting).map Flight.number
    counted := [] }

def dispose (prf : ProfilerSST) : ProfilerSST := { freeBuffers prf with disposed := true }

def addNum (size v : Nat) : List UInt8 := ByteNumbers.littleBytes size v

def ProfilerSample.frames (s : ProfilerSample) : List Address := (s.stk.map SampleStackTrace.pc).getD []

/-- What one sample makes of the data. -/
def sampleData (size : Nat) (s : ProfilerSample) : List UInt8 :=
  addNum size s.cnt ++ addNum size (1 + s.frames.length) ++ addNum size s.pc.toNat ++ s.frames.flatMap fun pc => addNum size pc.toNat

/-- `announced` is the size that `json_write_binary_start` gets. -/
structure Block where
  addrSize : Nat
  announced : Nat
  data : List UInt8
  deriving DecidableEq, Repr

/-- What `profiler_read` writes besides the format; `pcDef` is the size of the definition of the PC register. -/
def block (prf : ProfilerSST) (pcDef : Option Nat) : Option Block :=
  match pcDef with
  | none => none
  | some size =>
    if prf.psampleCnt > 0 then
      some ⟨size,prf.psampleCnt * size,(Buckets.entries psampleHashSize prf.psampleHash).flatMap (sampleData size)⟩
    else none

/-- A reply to a read command, and the samples before it. -/
structure Reading where
  block : Option Block
  taken : List Nat
  counted : List (Flight × Key)
  pending : List Flight

/-- `sampled` counts samples, `allocated` profilers. -/
structure State where
  profilers : List ProfilerSST
  threads : Nat → Thread
  sampled : Nat
  allocated : Nat
  readings : List Reading

def State.initial : State := ⟨[],fun _ => ⟨false,0⟩,0,0,[]⟩

/-- A profiler that is disposed is freed with its last event. -/
def State.each (s : State) (which : ProfilerSST → Prop) [DecidablePred which] (f : ProfilerSST → ProfilerSST) : State :=
  { s with profilers := (s.profilers.map fun prf => if which prf then f prf else prf).filter fun prf =>
      prf.disposed = false ∨ prf.lock ≠ 0 }

def ofContext (ctx : Nat) (prf : ProfilerSST) : Prop := prf.disposed = false ∧ prf.ctx = ctx

instance (ctx : Nat) : DecidablePred (ofContext ctx) := fun prf => inferInstanceAs (Decidable (prf.disposed = false ∧ prf.ctx = ctx))

/-- The profiler of a configuration: of a channel and a context. -/
def configured (channel ctx : Nat) (prf : ProfilerSST) : Prop := prf.disposed = false ∧ prf.channel = channel ∧ prf.ctx = ctx

instance (channel ctx : Nat) : DecidablePred (configured channel ctx) := fun prf =>
  inferInstanceAs (Decidable (prf.disposed = false ∧ prf.channel = channel ∧ prf.ctx = ctx))

def create (address channel ctx frameCnt : Nat) : ProfilerSST where
  address := address
  ctx := ctx
  channel := channel
  frameCnt := frameCnt
  psampleHash := fun _ => []
  psampleCnt := 0
  straceHash := fun _ => []
  waiting := []
  pc := 0
  disposed := false
  lock := 0
  posted := []
  allocated := 0
  taken := []
  counted := []

def profilerConfigure (s : State) (channel ctx frameCnt : Nat) : State :=
  if frameCnt > 0 then
    if ∃ prf ∈ s.profilers, configured channel ctx prf then
      s.each (configured channel ctx) fun prf => { freeBuffers prf with frameCnt }
    else { s with profilers := s.profilers ++ [create s.allocated channel ctx frameCnt], allocated := s.allocated + 1 }
  else s.each (configured channel ctx) dispose

/-- The definition of the PC register must fit in an address. -/
def profilerRead (s : State) (channel ctx : Nat) (pcDef : Option Nat) : Code State := do
  require (∀ prf ∈ s.profilers, configured channel ctx prf → prf.psampleCnt > 0 → ∀ size ∈ pcDef, size ≤ 8)
  pure { s.each (configured channel ctx) freeBuffers with
    readings := s.readings ++ (s.profilers.filter fun prf => configured channel ctx prf).map fun prf =>
      ⟨block prf pcDef,prf.taken,prf.counted,prf.posted ++ prf.waiting⟩ }

def hasFlight (address number : Nat) (prf : ProfilerSST) : Prop := prf.address = address ∧ ∃ f ∈ prf.posted, f.number = number

instance (address number : Nat) : DecidablePred (hasFlight address number) := fun prf =>
  inferInstanceAs (Decidable (prf.address = address ∧ ∃ f ∈ prf.posted, f.number = number))

/-- A posted event, or its client when the cache is filled. -/
def runClient (threads : Nat → Thread) (number : Nat) (frames : List Address) (prf : ProfilerSST) : ProfilerSST :=
  match prf.posted.find? fun f => f.number = number with
  | none => prf
  | some f => addSampleCacheClient (threads prf.ctx) frames f prf

/-- `run` is an attempt that gets to `cache_exit`, `miss` one that does not, with what it left of the program counter.
`registers` is any change of a thread's program counter. -/
inductive Event where
  | sample (ctx : Nat) (pc : Address)
  | run (address number : Nat) (frames : List Address)
  | miss (address number : Nat) (pc : Address)
  | stopped (ctx : Nat) (pc : Address)
  | started (ctx : Nat)
  | registers (ctx : Nat) (pc : Address)
  | configure (channel ctx frameCnt : Nat)
  | dispose (channel ctx : Nat)
  | reset (ctx : Nat)
  | read (channel ctx : Nat) (pcDef : Option Nat)
  deriving DecidableEq

def Enabled (s : State) : Event → Prop
  | .run address number _ | .miss address number _ => ∃ prf ∈ s.profilers, hasFlight address number prf
  | .stopped ctx _ => (s.threads ctx).stopped = false
  | _ => True

instance decideEnabled (s : State) : ∀ e, Decidable (Enabled s e)
  | .run address number _ | .miss address number _ => inferInstanceAs (Decidable (∃ prf ∈ s.profilers, hasFlight address number prf))
  | .stopped ctx _ => inferInstanceAs (Decidable ((s.threads ctx).stopped = false))
  | .sample _ _ | .started _ | .registers _ _ | .configure _ _ _ | .dispose _ _ | .reset _ | .read _ _ _ =>
    inferInstanceAs (Decidable True)

def State.setThread (s : State) (ctx : Nat) (thread : Thread) : State := { s with threads := Function.update s.threads ctx thread }

def step (s : State) : Event → Code State
  | .sample ctx pc => pure { s.each (ofContext ctx) (sample s.sampled pc) with sampled := s.sampled + 1 }
  | .run address number frames => pure (s.each (hasFlight address number) (runClient s.threads number frames))
  | .miss address number pc => pure (s.each (hasFlight address number) fun prf =>
      if prf.frameCnt > 1 ∧ (s.threads prf.ctx).stopped = true then { prf with pc } else prf)
  | .stopped ctx pc => pure ((s.setThread ctx ⟨true,pc⟩).each (ofContext ctx) (eventContextStopped pc))
  | .started ctx => pure (s.setThread ctx { s.threads ctx with stopped := false })
  | .registers ctx pc => pure (s.setThread ctx { s.threads ctx with pc })
  | .configure channel ctx frameCnt => pure (profilerConfigure s channel ctx frameCnt)
  | .dispose channel ctx => pure (s.each (configured channel ctx) dispose)
  | .reset ctx => pure (s.each (ofContext ctx) freeBuffers)
  | .read channel ctx pcDef => profilerRead s channel ctx pcDef

def process : Process State Event where
  enabled := Enabled
  decide := decideEnabled
  step := step

end Tcf.ProfilerSst
