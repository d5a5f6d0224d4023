import Tcf.AsyncReq
import Mathlib.Data.Finset.Card
import Mathlib.Data.Finset.Range

/-! Every request is executed once and completed once, and the counters are those of the threads. -/
namespace Tcf.AsyncReq

variable {b : Build} {s t : State} {r : Request} {w : Nat}

/-- A thread has the request that its worker points to. -/
def Phase.holds : Phase → Bool
  | .working | .finished | .waiting => true
  | _ => false

def State.alive (s : State) : Finset Nat := (Finset.range s.next).filter fun w => (s.workers w).phase ≠ .freed

/-- Requests are where they were put, and idle workers are in the list. -/
structure Core (s : State) : Prop where
  size : s.wtlistSize = s.wtlist.length
  nodup : s.wtlist.Nodup
  idle : ∀ w, w ∈ s.wtlist ↔ w < s.next ∧ (s.workers w).phase = .waiting ∧ (s.workers w).req = none
  works : ∀ w < s.next, (s.workers w).phase = .working ∨ (s.workers w).phase = .finished → ∃ r, (s.workers w).req = some (.request r)
  timer : ∀ w < s.next, (s.workers w).phase = .finished → ∀ r, (s.workers w).req = some (.request r) → r.kind ≠ .timer
  held : ∀ r w, s.place r = .worker w ↔ w < s.next ∧ (s.workers w).phase.holds = true ∧ (s.workers w).req = some (.request r)
  queued : ∀ r, s.place r = .queued ↔ Posted.workerThreadAddDeferred r ∈ s.events
  aios : ∀ r, s.place r = .aio ↔ r ∈ s.aios
  aiosNodup : s.aios.Nodup
  left : ∀ w, Posted.workerThreadExit w ∈ s.events ↔ w < s.next ∧ (s.workers w).phase = .left
  done : ∀ r, Posted.done r ∈ s.events → s.place r = .done
  events : s.events.Nodup
  gone : ∀ r ∈ s.posted, s.place r = .gone → r.kind = .timer
  new : ∀ r, r ∉ s.posted → s.place r = .gone ∧ s.executed r = 0
  waits : ∀ r, r.kind ≠ .timer → s.place r = .queued → s.executed r = 0
  busy : ∀ r w, r.kind ≠ .timer → s.place r = .worker w → s.executed r = if (s.workers w).phase = .finished then 1 else 0
  ended : ∀ r, r.kind ≠ .timer → s.place r = .aio ∨ s.place r = .done → s.executed r = 1
  completed : ∀ r, s.completed r = if s.place r = .done then 1 else 0
  running : s.wtrunningCount = s.alive.card

/-- After shutdown no worker waits for a request. -/
structure Sound (s : State) : Prop extends Core s where
  pending : s.shutdown = .pending → s.wtlist = []

theorem initial_sound : Sound State.initial := by
  refine ⟨⟨?_,?_,?_,?_,?_,?_,?_,?_,?_,?_,?_,?_,?_,?_,?_,?_,?_,?_,?_⟩,?_⟩ <;> simp [State.initial,State.alive]

theorem mem_alive : w ∈ s.alive ↔ w < s.next ∧ (s.workers w).phase ≠ .freed := by
  simp [State.alive]

/-- The number of threads changes when one is made or freed. -/
theorem alive_card_same (next : t.next = s.next) (same : ∀ w < s.next, (t.workers w).phase = .freed ↔ (s.workers w).phase = .freed) :
    t.alive.card = s.alive.card := by
  congr 1
  ext w
  rw [mem_alive,mem_alive,next]
  exact and_congr_right fun small => not_congr (same w small)

theorem alive_card_set {wt : WorkerThread} (next : t.next = s.next) (workers : t.workers = Function.update s.workers w wt)
    (same : wt.phase = .freed ↔ (s.workers w).phase = .freed) : t.alive.card = s.alive.card := by
  refine alive_card_same next fun k _ => ?_
  rw [workers]
  by_cases here : k = w
  · subst here
    simpa using same
  · simp [here]

theorem running_set {wt : WorkerThread} {count : Int} (running : count = s.alive.card) (next : t.next = s.next)
    (workers : t.workers = Function.update s.workers w wt) (same : wt.phase = .freed ↔ (s.workers w).phase = .freed) :
    count = t.alive.card := by
  rw [running,alive_card_set next workers same]

theorem alive_card_add (next : t.next = s.next + 1) (new : (t.workers s.next).phase ≠ .freed)
    (same : ∀ w < s.next, t.workers w = s.workers w) : t.alive.card = s.alive.card + 1 := by
  have more : t.alive = insert s.next s.alive := by
    ext w
    rw [Finset.mem_insert,mem_alive,mem_alive,next]
    grind
  rw [more,Finset.card_insert_of_notMem fun member => Nat.lt_irrefl _ (mem_alive.mp member).1]

theorem alive_card_freed (next : t.next = s.next) (small : w < s.next) (old : (s.workers w).phase ≠ .freed)
    (gone : (t.workers w).phase = .freed) (same : ∀ k ≠ w, t.workers k = s.workers k) : t.alive.card + 1 = s.alive.card := by
  have less : t.alive = s.alive.erase w := by
    ext k
    rw [Finset.mem_erase,mem_alive,mem_alive,next]
    grind
  rw [less,Finset.card_erase_add_one (mem_alive.mpr ⟨small,old⟩)]

/-- What a step keeps. -/
structure Kept (s t : State) : Prop where
  core : Core t
  wtlist : t.wtlist = s.wtlist
  shutdown : t.shutdown = .pending → s.shutdown = .pending

theorem Sound.step (sound : Sound s) (kept : Kept s t) : Sound t :=
  ⟨kept.core,fun pending => kept.wtlist.trans (sound.pending (kept.shutdown pending))⟩

/-- A request is nowhere yet, or leaves the event queue. -/
structure Free (s : State) (r : Request) (posted : List Request) (events : List Posted) : Prop where
  place : s.place r = .gone ∨ s.place r = .queued
  once : r.kind ≠ .timer → s.executed r = 0
  known : ∀ x, x ∈ posted ↔ x ∈ s.posted ∨ x = r
  out : ∀ e, e ∈ events ↔ e ∈ s.events ∧ e ≠ .workerThreadAddDeferred r
  nodup : events.Nodup

/-! Threads that are made, and jobs for idle ones. -/

/-- A new thread gets a request that no other has. -/
theorem workerThreadAdd_kept {posted : List Request} {events : List Posted} (core : Core s) (free : Free s r posted events) :
    ∃ t, workerThreadAdd { s with events, posted } true r = .ok t ∧ Kept s t := by
  obtain ⟨size,nodup,idle,works,timer,held,queued,aios,aiosNodup,left,done,_,gone,new,waits,busy,ended,completed,running⟩ := core
  obtain ⟨place,once,member,out,nodup'⟩ := free
  refine ⟨_,rfl,?_,rfl,?_⟩
  · constructor
    all_goals simp only [State.setWorker,State.put]
    case running =>
      rw [alive_card_add (s := s) rfl (by simp) fun w small => Function.update_of_ne (Nat.ne_of_lt small) _ _,running]
      simp
    all_goals grind [Phase.holds,Function.update_apply]
  · simp only [State.setWorker,State.put]
    grind

theorem give_eq {rest : List Nat} {job : Job} (idle : (s.workers w).req = none) : give s w rest job =
    .ok (({ s with wtlist := rest, wtlistSize := s.wtlistSize - 1 } : State).setWorker w { s.workers w with req := some job }) := by
  rw [give]
  exact Code.require_bind_true idle _

/-- An idle worker gets a request that no other has. -/
theorem give_request {rest : List Nat} {posted : List Request} (core : Core s) (list : s.wtlist = w :: rest)
    (free : Free s r posted s.events) :
    ∃ u, give { s with posted } w rest (.request r) = .ok u ∧ Core (u.put r (.worker w)) ∧ u.wtlist = rest ∧ u.shutdown = s.shutdown := by
  obtain ⟨size,nodup,idle,works,timer,held,queued,aios,aiosNodup,left,done,events,gone,new,waits,busy,ended,completed,running⟩ := core
  obtain ⟨place,once,member,out,_⟩ := free
  have first := (idle w).mp (by simp [list])
  refine ⟨_,give_eq first.2.2,?_,rfl,rfl⟩
  constructor
  all_goals simp only [State.setWorker,State.put]
  case running => exact running_set running rfl rfl Iff.rfl
  all_goals grind [Phase.holds,Function.update_apply]

/-- An idle worker is told to leave. -/
theorem give_shutdown {rest : List Nat} (core : Core s) (list : s.wtlist = w :: rest) :
    ∃ t, give s w rest .shutdown = .ok t ∧ Core t ∧ t.wtlist = rest := by
  obtain ⟨size,nodup,idle,works,timer,held,queued,aios,aiosNodup,left,done,events,gone,new,waits,busy,ended,completed,running⟩ := core
  have first := (idle w).mp (by simp [list])
  refine ⟨_,give_eq first.2.2,?_,rfl⟩
  constructor
  all_goals simp only [State.setWorker]
  case running => exact running_set running rfl rfl Iff.rfl
  all_goals grind [Phase.holds,Function.update_apply]

theorem triggerAsyncShutdown_core (core : Core s) : ∃ t, triggerAsyncShutdown s s.wtlist = .ok t ∧ Core t ∧ t.wtlist = [] := by
  generalize list : s.wtlist = ws
  induction ws generalizing s with
  | nil => exact ⟨s,rfl,core,list⟩
  | cons w rest ih =>
    obtain ⟨u,run,core',list'⟩ := give_shutdown core list
    obtain ⟨t,run',sound⟩ := ih core' list'
    refine ⟨t,?_,sound⟩
    rw [triggerAsyncShutdown,run]
    exact run'

/-! Steps. -/

/-- A new request is put somewhere. -/
theorem asyncReqPost_sound {dispatchThread fails : Bool} (sound : Sound s) (enabled : Enabled s (.post dispatchThread r fails)) :
    ∃ t, asyncReqPost b s dispatchThread r fails = .ok t ∧ Sound t := by
  have absent : r ∉ s.posted := fun member => enabled r member rfl
  obtain ⟨place,fresh⟩ := sound.new r absent
  have core := sound.toCore
  have unqueued : Posted.workerThreadAddDeferred r ∉ s.events := fun member => by simpa [place] using (core.queued r).mpr member
  have free : Free s r (s.posted ++ [r]) s.events :=
    ⟨.inl place,fun _ => fresh,by simp,fun e => ⟨fun member => ⟨member,fun same => unqueued (same ▸ member)⟩,And.left⟩,core.events⟩
  unfold asyncReqPost
  dsimp only
  split
  next =>
    obtain ⟨size,nodup,idle,works,timer,held,queued,aios,aiosNodup,left,done,events,gone,new,waits,busy,ended,completed,running⟩ := core
    split
    next =>
      refine ⟨_,rfl,?_,sound.pending⟩
      constructor
      all_goals simp only [State.execute,State.postDone]
      case running => exact running
      all_goals grind [Phase.holds,Function.update_apply]
    next =>
      refine ⟨_,rfl,?_,sound.pending⟩
      constructor
      all_goals simp only [State.execute,State.put]
      case running => exact running
      all_goals grind [Phase.holds,Function.update_apply]
  next =>
    split
    next list =>
      have none_ : s.wtlistSize = 0 := core.size.trans (by rw [list]; rfl)
      rw [require_true none_,Code.ok_bind]
      split
      next =>
        obtain ⟨t,run,kept⟩ := workerThreadAdd_kept core free
        exact ⟨t,run,sound.step kept⟩
      next =>
        obtain ⟨size,nodup,idle,works,timer,held,queued,aios,aiosNodup,left,done,events,gone,new,waits,busy,ended,completed,running⟩ := core
        refine ⟨_,rfl,?_,sound.pending⟩
        constructor
        all_goals simp only [State.put]
        case running => exact running
        all_goals grind [Phase.holds,Function.update_apply]
    next w rest list =>
      obtain ⟨u,run,core',list',shutdown⟩ := give_request core list free
      refine ⟨u.put r (.worker w),by rw [run]; rfl,core',fun pending => ?_⟩
      have none_ := sound.pending (shutdown.symm.trans pending)
      rw [list] at none_
      cases none_

/-- The worker executes its request. -/
theorem executeRequest_kept (core : Core s) (enabled : Enabled s (.execute w)) : ∃ t, executeRequest s w = .ok t ∧ Kept s t := by
  obtain ⟨size,nodup,idle,works,timer,held,queued,aios,aiosNodup,left,done,events,gone,new,waits,busy,ended,completed,running⟩ := core
  obtain ⟨small,phase⟩ := enabled
  obtain ⟨r,job⟩ := works w small (.inl phase)
  have place := (held r w).mpr ⟨small,by rw [phase]; rfl,job⟩
  have member : r ∈ s.posted := by
    by_contra absent
    exact absurd (place.symm.trans (new r absent).1) nofun
  unfold executeRequest
  rw [job]
  dsimp only
  split
  next ticks =>
    split
    next ends =>
      refine ⟨_,rfl,?_,rfl,id⟩
      constructor
      all_goals simp only [State.setWorker,State.put,State.execute]
      case running => exact running_set running rfl rfl (by simp [phase])
      all_goals grind [Phase.holds,Function.update_apply]
    next =>
      refine ⟨_,rfl,?_,rfl,id⟩
      constructor
      all_goals simp only [State.execute]
      case running => exact running
      all_goals grind [Phase.holds,Function.update_apply]
  next =>
    refine ⟨_,rfl,?_,rfl,id⟩
    constructor
    all_goals simp only [State.setWorker,State.execute]
    case running => exact running_set running rfl rfl (by simp [phase])
    all_goals grind [Phase.holds,Function.update_apply]

/-- The worker posts the event, and waits or leaves. -/
theorem asyncReqComplete_sound (sound : Sound s) (enabled : Enabled s (.complete w)) : ∃ t, asyncReqComplete b s w = .ok t ∧ Sound t := by
  obtain ⟨⟨size,nodup,idle,works,timer,held,queued,aios,aiosNodup,left,done,events,gone,new,waits,busy,ended,completed,running⟩,pending⟩ := sound
  obtain ⟨small,phase⟩ := enabled
  obtain ⟨r,job⟩ := works w small (.inr phase)
  have place := (held r w).mpr ⟨small,by rw [phase]; rfl,job⟩
  have member : r ∈ s.posted := by
    by_contra absent
    exact absurd (place.symm.trans (new r absent).1) nofun
  have out : w ∉ s.wtlist := fun inside => absurd (((idle w).mp inside).2.1.symm.trans phase) nofun
  have first : Posted.done r ∉ s.events := fun inside => absurd (place.symm.trans (done r inside)) nofun
  unfold asyncReqComplete
  rw [job]
  dsimp only
  split
  next =>
    refine ⟨_,rfl,?_,pending⟩
    constructor
    all_goals simp only [State.setWorker,State.postDone]
    case running => exact running_set running rfl rfl (by simp [phase])
    all_goals grind [Phase.holds,Function.update_apply]
  next room =>
    refine ⟨_,rfl,?_,fun ends => absurd (.inr ends) room⟩
    constructor
    all_goals simp only [State.setWorker,State.postDone]
    case running => exact running_set running rfl rfl (by simp [phase])
    all_goals grind [Phase.holds,Function.update_apply]

theorem wake_kept (core : Core s) (enabled : Enabled s (.wake w)) : Kept s (wake s w) := by
  obtain ⟨size,nodup,idle,works,timer,held,queued,aios,aiosNodup,left,done,events,gone,new,waits,busy,ended,completed,running⟩ := core
  obtain ⟨small,phase,job⟩ := enabled
  obtain ⟨job,what⟩ := Option.ne_none_iff_exists'.mp job
  cases job with
  | shutdown =>
    have run : wake s w = s.setWorker w ⟨.leaving,some .shutdown⟩ := by simp [wake,what]
    rw [run]
    refine ⟨?_,rfl,id⟩
    constructor
    all_goals simp only [State.setWorker]
    case running => exact running_set running rfl rfl (by simp [phase])
    all_goals grind [Phase.holds,Function.update_apply]
  | request r =>
    have run : wake s w = s.setWorker w ⟨.working,some (.request r)⟩ := by simp [wake,what]
    rw [run]
    refine ⟨?_,rfl,id⟩
    constructor
    all_goals simp only [State.setWorker]
    case running => exact running_set running rfl rfl (by simp [phase])
    all_goals grind [Phase.holds,Function.update_apply]

theorem leave_kept (core : Core s) (enabled : Enabled s (.leave w)) :
    Kept s { s.setWorker w { s.workers w with phase := .left } with events := s.events ++ [.workerThreadExit w] } := by
  obtain ⟨size,nodup,idle,works,timer,held,queued,aios,aiosNodup,left,done,events,gone,new,waits,busy,ended,completed,running⟩ := core
  obtain ⟨small,phase⟩ := enabled
  refine ⟨?_,rfl,id⟩
  constructor
  all_goals simp only [State.setWorker]
  case running => exact running_set running rfl rfl (by simp [phase])
  all_goals grind [Phase.holds,Function.update_apply]

theorem aioDone_kept (core : Core s) (enabled : Enabled s (.aioDone r)) :
    Kept s (({ s with aios := s.aios.erase r } : State).postDone r) := by
  obtain ⟨size,nodup,idle,works,timer,held,queued,aios,aiosNodup,left,done,events,gone,new,waits,busy,ended,completed,running⟩ := core
  have place := (aios r).mpr enabled
  refine ⟨?_,rfl,id⟩
  constructor
  all_goals simp only [State.postDone]
  case running => exact running
  all_goals grind [Phase.holds,Function.update_apply]

/-- The dispatch thread handles an event. -/
theorem handlePosted_sound {e : Posted} (sound : Sound s) (enabled : e ∈ s.events) :
    ∃ t, handlePosted { s with events := s.events.erase e } e = .ok t ∧ Sound t := by
  obtain ⟨size,nodup,idle,works,timer,held,queued,aios,aiosNodup,left,done,events,gone,new,waits,busy,ended,completed,running⟩ := sound.toCore
  have out (x : Posted) : x ∈ s.events.erase e ↔ x ∈ s.events ∧ x ≠ e := by
    rw [events.mem_erase_iff,and_comm]
  have nodup' := events.erase e
  cases e with
  | workerThreadAddDeferred r =>
    have place := (queued r).mpr enabled
    have member : r ∈ s.posted := by
      by_contra absent
      exact absurd (place.symm.trans (new r absent).1) nofun
    have free : Free s r s.posted (s.events.erase (.workerThreadAddDeferred r)) := by
      refine ⟨.inr place,fun kind => waits r kind place,fun x => ?_,out,nodup'⟩
      exact ⟨.inl,fun or => or.elim id fun same => same ▸ member⟩
    obtain ⟨t,run,kept⟩ := workerThreadAdd_kept sound.toCore free
    exact ⟨t,run,sound.step kept⟩
  | workerThreadExit w =>
    obtain ⟨small,phase⟩ := (left w).mp enabled
    refine ⟨_,rfl,?_,fun pending => sound.pending ?_⟩
    · constructor
      all_goals simp only [workerThreadExit,State.setWorker]
      case running =>
        have less := alive_card_freed (s := s) (t := { s with workers := Function.update s.workers w { s.workers w with phase := .freed } })
          rfl small (by simp [phase]) (by simp) fun k other => Function.update_of_ne other _ _
        change s.wtrunningCount - 1 = (State.alive { s with workers := Function.update s.workers w { s.workers w with phase := .freed } }).card
        omega
      all_goals grind [Phase.holds,Function.update_apply]
    · simp only [workerThreadExit] at pending
      split at pending
      · cases pending
      · exact pending
  | done r =>
    refine ⟨_,rfl,?_,sound.pending⟩
    constructor
    case running => exact running
    all_goals grind [Phase.holds,Function.update_apply]

theorem step_sound {e : Event} (sound : Sound s) (enabled : Enabled s e) : ∃ t, step b s e = .ok t ∧ Sound t := by
  cases e with
  | post dispatchThread r fails => exact asyncReqPost_sound sound enabled
  | execute w =>
    obtain ⟨t,run,kept⟩ := executeRequest_kept sound.toCore enabled
    exact ⟨t,run,sound.step kept⟩
  | complete w => exact asyncReqComplete_sound sound enabled
  | wake w => exact ⟨_,rfl,sound.step (wake_kept sound.toCore enabled)⟩
  | leave w => exact ⟨_,rfl,sound.step (leave_kept sound.toCore enabled)⟩
  | aioDone r => exact ⟨_,rfl,sound.step (aioDone_kept sound.toCore enabled)⟩
  | handle e => exact handlePosted_sound sound enabled
  | shutdown =>
    obtain ⟨t,run,core,none_⟩ := triggerAsyncShutdown_core (s := { s with shutdown := .pending }) (by
      obtain ⟨size,nodup,idle,works,timer,held,queued,aios,aiosNodup,left,done,events,gone,new,waits,busy,ended,completed,running⟩ := sound.toCore
      exact ⟨size,nodup,idle,works,timer,held,queued,aios,aiosNodup,left,done,events,gone,new,waits,busy,ended,completed,running⟩)
    exact ⟨t,run,core,fun _ => none_⟩

/-! What a request waits for. -/

/-- The next step for a request. -/
def State.nextStep (s : State) (r : Request) : Event :=
  match s.place r with
  | .queued => .handle (.workerThreadAddDeferred r)
  | .worker w =>
    match (s.workers w).phase with
    | .waiting => .wake w
    | .working => .execute w
    | _ => .complete w
  | _ => .aioDone r

/-- The steps that are left for a request. -/
def State.rank (s : State) (r : Request) : Nat :=
  match s.place r with
  | .queued => 3
  | .worker w =>
    match (s.workers w).phase with
    | .waiting => 3
    | .working => 2
    | _ => 1
  | .aio => 1
  | _ => 0

/-- What belongs to a request is there. -/
theorem nextStep_enabled (core : Core s) (way : s.rank r ≠ 0) : Enabled s (s.nextStep r) := by
  cases place : s.place r with
  | queued => simpa [State.nextStep,place,Enabled] using (core.queued r).mp place
  | worker w =>
    obtain ⟨small,holds,job⟩ := (core.held r w).mp place
    cases phase : (s.workers w).phase <;> simp_all [State.nextStep,Enabled,Phase.holds]
  | aio => simpa [State.nextStep,place,Enabled] using (core.aios r).mp place
  | done | gone => simp [State.rank,place] at way

/-- A request's next step brings it nearer to its end. -/
theorem nextStep_rank (core : Core s) (timer : r.kind ≠ .timer) (way : s.rank r ≠ 0) (run : step b s (s.nextStep r) = .ok t) :
    t.rank r < s.rank r ∧ t.posted = s.posted := by
  cases place : s.place r with
  | queued =>
    simp only [State.nextStep,place,step,handlePosted,workerThreadAdd,require_trivial,Code.ok_bind] at run
    cases run
    simp [State.rank,State.put,State.setWorker,place]
  | worker w =>
    obtain ⟨small,holds,job⟩ := (core.held r w).mp place
    cases phase : (s.workers w).phase with
    | waiting =>
      simp only [State.nextStep,place,phase,step] at run
      cases run
      simp [State.rank,wake,State.setWorker,place,phase,job]
    | working =>
      simp only [State.nextStep,place,phase,step,executeRequest,job,timer,if_false] at run
      cases run
      simp [State.rank,State.execute,State.setWorker,place,phase]
    | finished =>
      simp only [State.nextStep,place,phase,step,asyncReqComplete,job] at run
      split at run <;> cases run <;> simp [State.rank,State.postDone,State.setWorker,place,phase]
    | leaving | left | freed => simp [phase,Phase.holds] at holds
  | aio =>
    simp only [State.nextStep,place,step] at run
    cases run
    simp [State.rank,State.postDone,place]
  | done | gone => simp [State.rank,place] at way

/-- Few steps are left for a request until it was executed and its event was posted. -/
theorem completes (sound : Sound s) (member : r ∈ s.posted) (timer : r.kind ≠ .timer) :
    ∃ later t, later.length ≤ s.rank r ∧ (process b).exec s later = .ok t ∧ t.executed r = 1 ∧ t.completed r = 1 := by
  induction left : s.rank r using Nat.strong_induction_on generalizing s with
  | _ n ih =>
    by_cases way : s.rank r = 0
    · have place : s.place r = .done := by
        cases place : s.place r with
        | done => rfl
        | gone => exact absurd (sound.gone r member place) timer
        | queued | aio => simp [State.rank,place] at way
        | worker w => cases phase : (s.workers w).phase <;> simp [State.rank,place,phase] at way
      refine ⟨[],s,Nat.zero_le _,rfl,sound.ended r timer (.inr place),?_⟩
      rw [sound.completed r,if_pos place]
    · have enabled := nextStep_enabled sound.toCore way
      obtain ⟨u,run,sound'⟩ := step_sound (b := b) sound enabled
      obtain ⟨nearer,same⟩ := nextStep_rank sound.toCore timer way run
      obtain ⟨later,t,short,run',once⟩ := ih (u.rank r) (left ▸ nearer) sound' (same ▸ member) rfl
      refine ⟨s.nextStep r :: later,t,?_,((process b).exec_cons).mpr ⟨enabled,u,run,run'⟩,once⟩
      rw [List.length_cons]
      omega

/-- Requests, apart from the timer's, are executed once and their events are posted once, and the counters are right. -/
structure Served (b : Build) (s : State) : Prop where
  once : ∀ r ∈ s.posted, r.kind ≠ .timer → s.executed r ≤ 1 ∧ s.completed r ≤ 1 ∧ (s.completed r = 1 → s.executed r = 1)
  ends : ∀ r ∈ s.posted, r.kind ≠ .timer →
    ∃ later t, later.length ≤ 3 ∧ (process b).exec s later = .ok t ∧ t.executed r = 1 ∧ t.completed r = 1
  size : s.wtlistSize = s.wtlist.length
  idle : s.wtlist.Nodup ∧ ∀ w, w ∈ s.wtlist ↔ w < s.next ∧ (s.workers w).phase = .waiting ∧ (s.workers w).req = none
  running : s.wtrunningCount = s.alive.card
  exited : (∀ w < s.next, (s.workers w).phase = .freed) → s.wtrunningCount = 0
  shutdown : s.shutdown = .pending → s.wtlist = []

theorem rank_small (s : State) (r : Request) : s.rank r ≤ 3 := by
  unfold State.rank
  repeat' split
  all_goals omega

theorem served (sound : Sound s) : Served b s := by
  refine ⟨fun r member timer => ?_,fun r member timer => ?_,sound.size,⟨sound.nodup,sound.idle⟩,sound.running,fun gone => ?_,sound.pending⟩
  · have completed := sound.completed r
    split at completed
    next place => exact ⟨(sound.ended r timer (.inr place)).le,completed.le,fun _ => sound.ended r timer (.inr place)⟩
    next =>
      refine ⟨?_,by omega,by omega⟩
      cases place : s.place r with
      | queued => exact (sound.waits r timer place).trans_le (Nat.zero_le 1)
      | worker w =>
        rw [sound.busy r w timer place]
        split <;> omega
      | aio => exact (sound.ended r timer (.inl place)).le
      | done => exact (sound.ended r timer (.inr place)).le
      | gone => exact absurd (sound.gone r member place) timer
  · obtain ⟨later,t,short,run,once⟩ := completes (b := b) sound member timer
    exact ⟨later,t,short.trans (rank_small s r),run,once⟩
  · have none_ : s.alive = ∅ := by
      refine Finset.eq_empty_of_forall_notMem fun w member => ?_
      obtain ⟨small,there⟩ := mem_alive.mp member
      exact there (gone w small)
    rw [sound.running,none_]
    rfl

/-- Every run ends where requests are served; no assertion fails. -/
theorem requests_served (b : Build) (events : List Event) :
    (∃ s, (process b).exec .initial events = .ok s ∧ Served b s) ∨ (process b).exec .initial events = .error .stuck := by
  rcases (process b).exec_returns Sound (fun s e sound enabled _ => step_sound sound enabled) initial_sound
      ((process b).meets_true .initial events) with ⟨s,run,sound⟩ | stuck
  · exact .inl ⟨s,run,served sound⟩
  · exact .inr stuck

/-- The timer's request is executed again and again. -/
theorem timer_again : ∃ s, (process ⟨false,32⟩).exec .initial [.post true ⟨0,.timer⟩ false,.execute 0,.execute 0] = .ok s ∧
    ⟨0,.timer⟩ ∈ s.posted ∧ s.executed ⟨0,.timer⟩ = 2 ∧ s.completed ⟨0,.timer⟩ = 0 := by decide

end Tcf.AsyncReq
