import Tcf.Events
import Mathlib.Algebra.Order.Group.Multiset
import Mathlib.Tactic.Abel
import Mathlib.Data.List.TakeWhile

/-! The order in which events are dispatched, and what becomes of each event and of each node. -/
namespace Tcf.Events

def Time.Before (a b : Time) : Prop := a.sec < b.sec ∨ (a.sec = b.sec ∧ a.nsec < b.nsec)

/-- The smaller time, or the first posted. -/
def Precedes (x y : Node) : Prop := x.runtime.Before y.runtime ∨ (x.runtime = y.runtime ∧ x.id < y.id)

/-- What it means that y is dispatched and x is not. Untimed events go in the order of the posts, and timed ones in the
order of their times, unless the earlier one was posted after the other was moved. -/
def InOrder (y x : Node) : Prop :=
  (y.timed = false → x.timed = false → y.id < x.id) ∧ (y.timed = true → x.timed = true → x.id < y.moved → ¬Precedes x y)

instance (a b : Time) : Decidable (a.Before b) := inferInstanceAs (Decidable (a.sec < b.sec ∨ (a.sec = b.sec ∧ a.nsec < b.nsec)))

instance (x y : Node) : Decidable (Precedes x y) :=
  inferInstanceAs (Decidable (x.runtime.Before y.runtime ∨ (x.runtime = y.runtime ∧ x.id < y.id)))

instance (y x : Node) : Decidable (InOrder y x) :=
  inferInstanceAs (Decidable ((y.timed = false → x.timed = false → y.id < x.id) ∧
    (y.timed = true → x.timed = true → x.id < y.moved → ¬Precedes x y)))

def Time.Normal (t : Time) : Prop := t.nsec < 1000000000

variable {now : Time}

section Times

theorem timeCmp_spec {a b : Time} (one : a.Normal) (two : b.Normal) :
    ∃ c, timeCmp a b = .ok c ∧ (c ≥ 0 ↔ ¬a.Before b) ∧ (c ≤ 0 ↔ ¬b.Before a) := by
  have low : a.nsec < 1000000000 := one
  have low' : b.nsec < 1000000000 := two
  unfold timeCmp
  rw [Code.require_bind_true low,Code.require_bind_true low']
  refine ⟨_,rfl,?_⟩
  unfold Time.Before
  split
  · omega
  · split
    · omega
    · split
      · omega
      · split <;> omega

theorem Time.eq_of_neither {a b : Time} (one : ¬a.Before b) (two : ¬b.Before a) : a = b := by
  obtain ⟨sec,nsec⟩ := a
  obtain ⟨sec',nsec'⟩ := b
  simp only [Time.Before,Time.mk.injEq] at *
  omega

theorem timeAddUsec_normal (normal : now.Normal) (usec : Nat) : (timeAddUsec now usec).Normal := by
  unfold timeAddUsec Time.Normal at *
  dsimp only
  split
  · dsimp only
    omega
  · dsimp only
    omega

theorem Precedes.trans {x y z : Node} (one : Precedes x y) (two : Precedes y z) : Precedes x z := by
  obtain ⟨_,⟨_,_⟩,_,_,_,_,_⟩ := x
  obtain ⟨_,⟨_,_⟩,_,_,_,_,_⟩ := y
  obtain ⟨_,⟨_,_⟩,_,_,_,_,_⟩ := z
  simp only [Precedes,Time.Before,Time.mk.injEq] at *
  omega

theorem Precedes.asymm {x y : Node} (one : Precedes x y) : ¬Precedes y x := by
  obtain ⟨_,⟨_,_⟩,_,_,_,_,_⟩ := x
  obtain ⟨_,⟨_,_⟩,_,_,_,_,_⟩ := y
  simp only [Precedes,Time.Before,Time.mk.injEq] at *
  omega

end Times

variable {ev : Node} {handler arg : Nat} {queue before behind : List Node}

section Queues

/-- A new event goes to its place. -/
theorem insertTimer_spec (normal : ev.runtime.Normal)
    (all : ∀ x ∈ queue, x.runtime.Normal ∧ x.id < ev.id) (sorted : queue.Pairwise Precedes) :
    ∃ before behind, queue = before ++ behind ∧ insertTimer ev queue = .ok (before ++ ev :: behind) ∧
      (before ++ ev :: behind).Pairwise Precedes := by
  induction queue with
  | nil => exact ⟨[],[],rfl,rfl,List.pairwise_singleton ..⟩
  | cons next rest ih =>
    obtain ⟨first,later⟩ := List.forall_mem_cons.mp all
    obtain ⟨head,tail⟩ := List.pairwise_cons.mp sorted
    obtain ⟨c,cmp,order,_⟩ := timeCmp_spec normal first.1
    unfold insertTimer
    rw [cmp]
    simp only [Code.ok_bind]
    by_cases behind : c ≥ 0
    · obtain ⟨before,after,split,run,done⟩ := ih later tail
      rw [if_pos behind,run]
      refine ⟨next :: before,after,by rw [split]; rfl,rfl,?_⟩
      apply List.pairwise_cons.mpr ⟨fun x member => ?_,done⟩
      have place : x = ev ∨ x ∈ rest := by
        rw [split]
        rcases List.mem_append.mp member with front | back
        · exact .inr (List.mem_append_left _ front)
        · exact (List.mem_cons.mp back).imp_right (List.mem_append_right _)
      rcases place with rfl | old
      · by_cases less : next.runtime.Before x.runtime
        · exact .inl less
        · exact .inr ⟨Time.eq_of_neither less (order.mp behind),first.2⟩
      · exact head x old
    · have less : ev.runtime.Before next.runtime := not_not.mp (mt order.mpr behind)
      rw [if_neg behind]
      refine ⟨[],next :: rest,rfl,rfl,?_⟩
      apply List.pairwise_cons.mpr ⟨fun x member => ?_,sorted⟩
      rcases List.mem_cons.mp member with rfl | old
      · exact .inl less
      · exact Precedes.trans (.inl less) (head x old)

/-- The events that are ready come first. -/
theorem dueTimers_spec (normal : now.Normal) (all : ∀ x ∈ queue, x.runtime.Normal)
    (sorted : queue.Pairwise Precedes) : ∃ due later, dueTimers now queue = .ok (due,later) ∧ queue = due ++ later := by
  induction queue with
  | nil => exact ⟨[],[],rfl,rfl⟩
  | cons next rest ih =>
    obtain ⟨first,others⟩ := List.forall_mem_cons.mp all
    obtain ⟨c,cmp,_,_⟩ := timeCmp_spec first normal
    obtain ⟨due,later,run,split⟩ := ih others (List.pairwise_cons.mp sorted).2
    unfold dueTimers
    rw [cmp]
    simp only [Code.ok_bind]
    by_cases ready : c ≤ 0
    · rw [if_pos ready,run]
      exact ⟨next :: due,later,rfl,by rw [split]; rfl⟩
    · rw [if_neg ready]
      exact ⟨[],next :: rest,rfl,rfl⟩

theorem findEvent_some
    (found : findEvent handler arg queue = some (before,ev,behind)) : queue = before ++ ev :: behind ∧ ev.is handler arg = true := by
  unfold findEvent at found
  rcases rest : queue.dropWhile fun ev => !ev.is handler arg with _ | ⟨next,after⟩
  · rw [rest] at found
    cases found
  · rw [rest] at found
    cases found
    refine ⟨?_,?_⟩
    · rw [← rest,List.takeWhile_append_dropWhile]
    · have head := List.head?_dropWhile_not (fun ev => !Node.is handler arg ev) queue
      rw [rest] at head
      simpa using head

theorem findEvent_none (absent : findEvent handler arg queue = none) :
    ∀ ev ∈ queue, ev.is handler arg = false := by
  unfold findEvent at absent
  rcases rest : queue.dropWhile fun ev => !ev.is handler arg with _ | ⟨next,after⟩
  · intro ev member
    have all := List.dropWhile_eq_nil_iff.mp rest ev member
    simpa using all
  · rw [rest] at absent
    cases absent

theorem linkAfter_last {last : Node} (ends : queue.getLast? = some last)
    (nodup : (queue.map Node.addr).Nodup) (ev : Node) : linkAfter last.addr ev queue = queue ++ [ev] := by
  induction queue with
  | nil => cases ends
  | cons next rest ih =>
    obtain ⟨absent,later⟩ := List.nodup_cons.mp nodup
    unfold linkAfter
    rcases rest with _ | ⟨second,more⟩
    · have same : next = last := by simpa using ends
      rw [same,if_pos rfl]
      rfl
    · have ends' : (second :: more).getLast? = some last := by rwa [List.getLast?_cons_cons] at ends
      have other : next.addr ≠ last.addr := by
        intro same
        apply absent
        rw [same]
        exact List.mem_map_of_mem (List.mem_of_getLast? ends')
      rw [if_neg other,ih ends' later]
      rfl

end Queues

/-- What the queues say of the events so far. -/
structure Ordered (eventQueue timerQueue : List Node) (eventCnt serial : Nat) (dispatched : List Node)
    (cancelled : List ((Nat × Nat) × Node)) : Prop where
  batch : eventQueue.Pairwise fun a b => b.timed = true → a.timed = true
  counted : 1 ≤ eventCnt → ∀ x ∈ eventQueue, x.timed = false
  timers : ∀ x ∈ timerQueue, x.timed = true ∧ x.runtime.Normal
  marked : ∀ x ∈ eventQueue ++ timerQueue, x.runtime.sec = 0 ↔ x.timed = false
  sorted : timerQueue.Pairwise Precedes
  order : (dispatched ++ eventQueue).Pairwise InOrder
  ready : ∀ y ∈ dispatched ++ eventQueue, y.moved ≤ serial ∧ ∀ x ∈ timerQueue, InOrder y x
  once : ((dispatched.map Node.id : Multiset Nat) + eventQueue.map Node.id + timerQueue.map Node.id +
    (cancelled.map fun c => c.2.id)) = (List.range serial : Multiset Nat)
  meant : ∀ c ∈ cancelled, c.2.is c.1.1 c.1.2 = true

section Orders

variable {eventQueue timerQueue dispatched : List Node} {eventCnt serial : Nat} {cancelled : List ((Nat × Nat) × Node)}

section

variable (h : Ordered eventQueue timerQueue eventCnt serial dispatched cancelled)

include h

theorem Ordered.bound :
    ∀ x ∈ dispatched ++ eventQueue ++ timerQueue, x.id < serial := by
  intro x member
  have inside : x.id ∈ (List.range serial : Multiset Nat) := by
    rw [← h.once]
    simp only [Multiset.mem_add,Multiset.mem_coe]
    rcases List.mem_append.mp member with front | timer
    · rcases List.mem_append.mp front with done | ready
      · exact .inl (.inl (.inl (List.mem_map_of_mem done)))
      · exact .inl (.inl (.inr (List.mem_map_of_mem ready)))
    · exact .inl (.inr (List.mem_map_of_mem timer))
  exact List.mem_range.mp inside

omit h in
theorem range_succ (serial : Nat) : (List.range (serial + 1) : Multiset Nat) = (List.range serial : Multiset Nat) + {serial} := by
  rw [List.range_succ,← Multiset.coe_add,Multiset.coe_singleton]

/-- An event without a time comes last. -/
theorem Ordered.post
    (id : ev.id = serial) (timed : ev.timed = false) (zero : ev.runtime.sec = 0) (moved : ev.moved = 0) :
    Ordered (eventQueue ++ [ev]) timerQueue eventCnt (serial + 1) dispatched cancelled := by
  refine ⟨?_,fun some x member => ?_,h.timers,fun x member => ?_,h.sorted,?_,fun y member => ?_,?_,h.meant⟩
  · rw [List.pairwise_append]
    refine ⟨h.batch,List.pairwise_singleton ..,fun a _ b last => ?_⟩
    rw [List.mem_singleton.mp last,timed]
    exact nofun
  · rcases List.mem_append.mp member with old | new
    · exact h.counted some x old
    · rw [List.mem_singleton.mp new,timed]
  · rcases List.mem_append.mp member with front | timer
    · rcases List.mem_append.mp front with old | new
      · exact h.marked x (List.mem_append_left _ old)
      · rw [List.mem_singleton.mp new]
        exact iff_of_true zero timed
    · exact h.marked x (List.mem_append_right _ timer)
  · rw [← List.append_assoc,List.pairwise_append]
    refine ⟨h.order,List.pairwise_singleton ..,fun a member b last => ?_⟩
    rw [List.mem_singleton.mp last]
    refine ⟨fun _ _ => ?_,fun _ late => ?_⟩
    · rw [id]
      exact h.bound a (List.mem_append_left _ member)
    · rw [timed] at late
      cases late
  · rw [← List.append_assoc] at member
    rcases List.mem_append.mp member with old | new
    · obtain ⟨bound,each⟩ := h.ready y old
      exact ⟨Nat.le_succ_of_le bound,each⟩
    · rw [List.mem_singleton.mp new]
      refine ⟨by omega,fun x inside => ⟨fun _ early => ?_,fun late => ?_⟩⟩
      · rw [(h.timers x inside).1] at early
        cases early
      · rw [timed] at late
        cases late
  · rw [range_succ,← h.once,List.map_append,← Multiset.coe_add,List.map_singleton,id,Multiset.coe_singleton]
    abel

/-- A timed event is put to its place. -/
theorem Ordered.insert (ev : Node)
    (id : ev.id = serial) (timed : ev.timed = true) (later : ev.runtime.sec ≠ 0) (normal : ev.runtime.Normal) :
    ∃ before behind, timerQueue = before ++ behind ∧ insertTimer ev timerQueue = .ok (before ++ ev :: behind) ∧
      Ordered eventQueue (before ++ ev :: behind) eventCnt (serial + 1) dispatched cancelled := by
  have all : ∀ x ∈ timerQueue, x.runtime.Normal ∧ x.id < ev.id := by
    intro x member
    rw [id]
    exact ⟨(h.timers x member).2,h.bound x (List.mem_append_right _ member)⟩
  obtain ⟨before,behind,split,run,sorted⟩ := insertTimer_spec normal all h.sorted
  have members (x : Node) (member : x ∈ before ++ ev :: behind) : x = ev ∨ x ∈ timerQueue := by
    rw [split]
    simp only [List.mem_append,List.mem_cons] at member ⊢
    tauto
  refine ⟨before,behind,split,run,h.batch,h.counted,fun x member => ?_,fun x member => ?_,sorted,h.order,fun y member => ?_,?_,h.meant⟩
  · rcases members x member with rfl | old
    · exact ⟨timed,normal⟩
    · exact h.timers x old
  · rcases List.mem_append.mp member with ready | waits
    · exact h.marked x (List.mem_append_left _ ready)
    · rcases members x waits with rfl | old
      · exact iff_of_false later (by simp [timed])
      · exact h.marked x (List.mem_append_right _ old)
  · obtain ⟨bound,each⟩ := h.ready y member
    refine ⟨Nat.le_succ_of_le bound,fun x inside => ?_⟩
    rcases members x inside with rfl | old
    · refine ⟨fun _ early => ?_,fun _ _ early => ?_⟩
      · rw [timed] at early
        cases early
      · omega
    · exact each x old
  · rw [range_succ,← h.once,split]
    simp only [List.map_append,List.map_cons,← Multiset.coe_add,← Multiset.cons_coe,← Multiset.singleton_add,id]
    abel

omit h in
/-- An event is removed that was asked for. -/
theorem Ordered.remove
    (h : Ordered (before ++ ev :: behind) timerQueue eventCnt serial dispatched cancelled) (meant : ev.is handler arg = true) :
    Ordered (before ++ behind) timerQueue eventCnt serial dispatched (cancelled ++ [((handler,arg),ev)]) := by
  have sub : (before ++ behind).Sublist (before ++ ev :: behind) :=
    List.Sublist.append (List.Sublist.refl _) (List.sublist_cons_self ..)
  have sub' : (dispatched ++ (before ++ behind)).Sublist (dispatched ++ (before ++ ev :: behind)) := sub.append_left _
  refine ⟨h.batch.sublist sub,fun some x member => h.counted some x (sub.subset member),h.timers,fun x member => ?_,h.sorted,
    h.order.sublist sub',fun y member => h.ready y (sub'.subset member),?_,fun c member => ?_⟩
  · exact h.marked x ((sub.append_right timerQueue).subset member)
  · rw [← h.once]
    simp only [List.map_append,List.map_cons,List.map_nil,← Multiset.coe_add,← Multiset.cons_coe,← Multiset.singleton_add,
      Multiset.coe_nil]
    abel
  · rcases List.mem_append.mp member with old | new
    · exact h.meant c old
    · rw [List.mem_singleton.mp new]
      exact meant

omit h in
theorem Ordered.removeTimer
    (h : Ordered eventQueue (before ++ ev :: behind) eventCnt serial dispatched cancelled) (meant : ev.is handler arg = true) :
    Ordered eventQueue (before ++ behind) eventCnt serial dispatched (cancelled ++ [((handler,arg),ev)]) := by
  have sub : (before ++ behind).Sublist (before ++ ev :: behind) :=
    List.Sublist.append (List.Sublist.refl _) (List.sublist_cons_self ..)
  refine ⟨h.batch,h.counted,fun x member => h.timers x (sub.subset member),fun x member => ?_,h.sorted.sublist sub,h.order,
    fun y member => ?_,?_,fun c member => ?_⟩
  · exact h.marked x ((sub.append_left eventQueue).subset member)
  · obtain ⟨bound,each⟩ := h.ready y member
    exact ⟨bound,fun x inside => each x (sub.subset inside)⟩
  · rw [← h.once]
    simp only [List.map_append,List.map_cons,List.map_nil,← Multiset.coe_add,← Multiset.cons_coe,← Multiset.singleton_add,
      Multiset.coe_nil]
    abel
  · rcases List.mem_append.mp member with old | new
    · exact h.meant c old
    · rw [List.mem_singleton.mp new]
      exact meant

/-- A post is what the dispatch thread waits to cancel. -/
theorem Ordered.swallow
    (id : ev.id = serial) (meant : ev.is handler arg = true) :
    Ordered eventQueue timerQueue eventCnt (serial + 1) dispatched (cancelled ++ [((handler,arg),ev)]) := by
  refine ⟨h.batch,h.counted,h.timers,h.marked,h.sorted,h.order,fun y member => ?_,?_,fun c member => ?_⟩
  · obtain ⟨bound,each⟩ := h.ready y member
    exact ⟨Nat.le_succ_of_le bound,each⟩
  · rw [range_succ,← h.once,List.map_append,← Multiset.coe_add,List.map_singleton,id,Multiset.coe_singleton]
    abel
  · rcases List.mem_append.mp member with old | new
    · exact h.meant c old
    · rw [List.mem_singleton.mp new]
      exact meant

end

/-- Timed events are moved to the front of events without a time. -/
theorem Ordered.move {due later : List Node} (h : Ordered eventQueue (due ++ later) eventCnt serial dispatched cancelled)
    (plain : ∀ x ∈ eventQueue, x.timed = false) :
    Ordered (due.map (fun ev => { ev with moved := serial }) ++ eventQueue) later 0 serial dispatched cancelled := by
  obtain ⟨sortedDue,sortedLater,across⟩ := List.pairwise_append.mp h.sorted
  obtain ⟨orderDone,orderReady,between⟩ := List.pairwise_append.mp h.order
  have timed : ∀ x ∈ due, x.timed = true := fun x member => (h.timers x (List.mem_append_left _ member)).1
  have origin (x : Node) (member : x ∈ due.map (fun ev => { ev with moved := serial })) :
      ∃ y ∈ due, x = { y with moved := serial } := by
    obtain ⟨y,inside,same⟩ := List.mem_map.mp member
    exact ⟨y,inside,same.symm⟩
  refine ⟨?_,nofun,fun x member => h.timers x (List.mem_append_right _ member),fun x member => ?_,sortedLater,?_,fun y member => ?_,
    ?_,h.meant⟩
  · rw [List.pairwise_append]
    refine ⟨List.pairwise_map.mpr (sortedDue.imp_of_mem fun {a _} first _ _ _ => timed a first),h.batch,fun a member b _ _ => ?_⟩
    obtain ⟨y,inside,rfl⟩ := origin a member
    exact timed y inside
  · rcases List.mem_append.mp member with front | timer
    · rcases List.mem_append.mp front with moved | ready
      · obtain ⟨y,inside,rfl⟩ := origin x moved
        exact h.marked y (List.mem_append_right _ (List.mem_append_left _ inside))
      · exact h.marked x (List.mem_append_left _ ready)
    · exact h.marked x (List.mem_append_right _ (List.mem_append_right _ timer))
  · rw [List.pairwise_append]
    refine ⟨orderDone,List.pairwise_append.mpr ⟨?_,orderReady,fun a member b ready => ?_⟩,fun a done b member => ?_⟩
    · refine List.pairwise_map.mpr (sortedDue.imp_of_mem fun {a b} first _ order => ⟨fun early => ?_,fun _ _ _ => order.asymm⟩)
      rw [timed a first] at early
      cases early
    · obtain ⟨y,inside,rfl⟩ := origin a member
      refine ⟨fun early => ?_,fun _ late => ?_⟩
      · rw [timed y inside] at early
        cases early
      · rw [plain b ready] at late
        cases late
    · rcases List.mem_append.mp member with moved | ready
      · obtain ⟨x,inside,rfl⟩ := origin b moved
        exact (h.ready a (List.mem_append_left _ done)).2 x (List.mem_append_left _ inside)
      · exact between a done b ready
  · rcases List.mem_append.mp member with done | front
    · obtain ⟨bound,each⟩ := h.ready y (List.mem_append_left _ done)
      exact ⟨bound,fun x inside => each x (List.mem_append_right _ inside)⟩
    · rcases List.mem_append.mp front with moved | ready
      · obtain ⟨a,inside,rfl⟩ := origin y moved
        refine ⟨Nat.le_refl _,fun x waits => ⟨fun early => ?_,fun _ _ _ => (across a inside x waits).asymm⟩⟩
        rw [timed a inside] at early
        cases early
      · obtain ⟨bound,each⟩ := h.ready y (List.mem_append_right _ ready)
        exact ⟨bound,fun x inside => each x (List.mem_append_right _ inside)⟩
  · have ids : (due.map (fun ev => { ev with moved := serial })).map Node.id = due.map Node.id := by
      rw [List.map_map]
      rfl
    rw [← h.once,List.map_append,List.map_append,ids,← Multiset.coe_add,← Multiset.coe_add]
    abel

/-- The first event is dispatched. -/
theorem Ordered.dispatch (h : Ordered (ev :: eventQueue) timerQueue eventCnt serial dispatched cancelled) :
    Ordered eventQueue timerQueue (if ev.runtime.sec = 0 then eventCnt + 1 else eventCnt) serial (dispatched ++ [ev]) cancelled := by
  obtain ⟨head,tail⟩ := List.pairwise_cons.mp h.batch
  have same : dispatched ++ [ev] ++ eventQueue = dispatched ++ ev :: eventQueue := by simp
  refine ⟨tail,fun some x member => ?_,h.timers,fun x member => h.marked x (List.mem_cons_of_mem _ member),h.sorted,?_,?_,?_,h.meant⟩
  · split at some
    next zero =>
      have plain := (h.marked ev List.mem_cons_self).mp zero
      by_contra timed
      have first := head x member (by simpa using timed)
      rw [plain] at first
      cases first
    next => exact h.counted some x (List.mem_cons_of_mem _ member)
  · rw [same]
    exact h.order
  · rw [same]
    exact h.ready
  · rw [← h.once,List.map_append,List.map_cons,List.map_cons,List.map_nil]
    simp only [← Multiset.coe_add,← Multiset.cons_coe,← Multiset.singleton_add,Multiset.coe_nil]
    abel

end Orders

/-- The nodes, in the free lists and in use. -/
def places (free bg : List Nat) (eventQueue timerQueue : List Node) (running : List Nat) : Multiset Nat :=
  (free : Multiset Nat) + bg + eventQueue.map Node.addr + timerQueue.map Node.addr + running

/-- Each node is in one place, and the tail pointer is at the last event. -/
structure Linked (free bg : List Nat) (eventQueue : List Node) (eventLast : Option Nat) (timerQueue : List Node)
    (running : List Nat) : Prop where
  last : eventLast = eventQueue.getLast?.map Node.addr
  distinct : (places free bg eventQueue timerQueue running).Nodup
  small : ∀ a ∈ free ++ bg, a < EVENT_BUF_SIZE

structure Inv (s : State) : Prop where
  ordered : Ordered s.eventQueue s.timerQueue s.eventCnt s.serial s.dispatched s.cancelled
  linked : Linked s.freeQueue s.freeBgQueue s.eventQueue s.eventLast s.timerQueue s.phase.addrs
  idle : s.phase = .waiting → s.eventQueue = [] ∧ s.eventCnt = 0

variable {block : Nat}

section Nodes

variable {free bg running : List Nat} {eventQueue timerQueue : List Node} {eventLast : Option Nat}

/-- A node of the list, or a new block. -/
theorem alloc_spec {free : List Nat} {others : Multiset Nat} (distinct : ((free : Multiset Nat) + others).Nodup)
    (absent : block ∉ (free : Multiset Nat) + others) : ∃ addr free', allocEventNode free block = (addr,free') ∧
      ((free' : Multiset Nat) + others + {addr}).Nodup ∧ ∀ a ∈ free', a ∈ free := by
  cases free with
  | nil =>
    refine ⟨block,[],rfl,?_,nofun⟩
    rw [add_comm,Multiset.singleton_add,Multiset.nodup_cons]
    exact ⟨absent,distinct⟩
  | cons addr rest =>
    refine ⟨addr,rest,rfl,?_,fun a member => List.mem_cons_of_mem _ member⟩
    have same : ((addr :: rest : List Nat) : Multiset Nat) + others = (rest : Multiset Nat) + others + {addr} := by
      rw [← Multiset.cons_coe,← Multiset.singleton_add]
      abel
    rwa [← same]

theorem Linked.alloc (h : Linked free bg eventQueue eventLast timerQueue running)
    (absent : block ∉ places free bg eventQueue timerQueue running) : ∃ addr free', allocEventNode free block = (addr,free') ∧
      (places free' bg eventQueue timerQueue running + {addr}).Nodup ∧ ∀ a ∈ free' ++ bg, a < EVENT_BUF_SIZE := by
  have split (free : List Nat) : places free bg eventQueue timerQueue running =
      free + (bg + eventQueue.map Node.addr + timerQueue.map Node.addr + (running : Multiset Nat)) := by
    unfold places
    abel
  have distinct := h.distinct
  rw [split] at distinct absent
  obtain ⟨addr,free',run,distinct',sub⟩ := alloc_spec distinct absent
  rw [← split] at distinct'
  refine ⟨addr,free',run,distinct',fun a member => h.small a ?_⟩
  exact List.mem_append.mpr ((List.mem_append.mp member).imp_left (sub a))

theorem Linked.allocBg (h : Linked free bg eventQueue eventLast timerQueue running)
    (absent : block ∉ places free bg eventQueue timerQueue running) : ∃ addr bg', allocEventNode bg block = (addr,bg') ∧
      (places free bg' eventQueue timerQueue running + {addr}).Nodup ∧ ∀ a ∈ free ++ bg', a < EVENT_BUF_SIZE := by
  have split (bg : List Nat) : places free bg eventQueue timerQueue running =
      bg + (free + eventQueue.map Node.addr + timerQueue.map Node.addr + (running : Multiset Nat)) := by
    unfold places
    abel
  have distinct := h.distinct
  rw [split] at distinct absent
  obtain ⟨addr,bg',run,distinct',sub⟩ := alloc_spec distinct absent
  rw [← split] at distinct'
  refine ⟨addr,bg',run,distinct',fun a member => h.small a ?_⟩
  exact List.mem_append.mpr ((List.mem_append.mp member).imp_right (sub a))

/-- A node is freed, or given back to the heap. -/
theorem free_places {addr : Nat} (distinct : (places free bg eventQueue timerQueue running + {addr}).Nodup)
    (small : ∀ a ∈ free ++ bg, a < EVENT_BUF_SIZE) :
    (places (if addr < EVENT_BUF_SIZE then addr :: free else free) bg eventQueue timerQueue running).Nodup ∧
      ∀ a ∈ (if addr < EVENT_BUF_SIZE then addr :: free else free) ++ bg, a < EVENT_BUF_SIZE := by
  split
  next inside =>
    have same : places (addr :: free) bg eventQueue timerQueue running = places free bg eventQueue timerQueue running + {addr} := by
      unfold places
      rw [← Multiset.cons_coe,← Multiset.singleton_add]
      abel
    refine ⟨by rwa [same],fun a member => ?_⟩
    rcases List.mem_cons.mp member with rfl | old
    · exact inside
    · exact small a old
  next => exact ⟨Multiset.nodup_of_le (Multiset.le_add_right ..) distinct,small⟩

theorem places_event : places free bg (before ++ ev :: behind) timerQueue running =
    places free bg (before ++ behind) timerQueue running + {ev.addr} := by
  unfold places
  simp only [List.map_append,List.map_cons,← Multiset.coe_add,← Multiset.cons_coe,← Multiset.singleton_add]
  abel

theorem places_timer : places free bg eventQueue (before ++ ev :: behind) running =
    places free bg eventQueue (before ++ behind) running + {ev.addr} := by
  unfold places
  simp only [List.map_append,List.map_cons,← Multiset.coe_add,← Multiset.cons_coe,← Multiset.singleton_add]
  abel

theorem shareFree_spec (free bg : List Nat) : ((shareFree free bg).1 : Multiset Nat) + (shareFree free bg).2 = (free : Multiset Nat) + bg := by
  induction free generalizing bg with
  | nil => rfl
  | cons addr free ih =>
    unfold shareFree
    split
    · rw [ih,← Multiset.cons_coe,← Multiset.cons_coe,← Multiset.singleton_add,← Multiset.singleton_add]
      abel
    · rfl

theorem Linked.queue_nodup (h : Linked free bg eventQueue eventLast timerQueue running) : (eventQueue.map Node.addr).Nodup := by
  apply Multiset.coe_nodup.mp
  apply Multiset.nodup_of_le _ h.distinct
  apply le_trans _ (Multiset.le_add_right ..)
  apply le_trans _ (Multiset.le_add_right ..)
  exact Multiset.le_add_left ..

theorem fresh_absent {s : State} (linked : Linked s.freeQueue s.freeBgQueue s.eventQueue s.eventLast s.timerQueue s.phase.addrs)
    (fresh : s.Fresh block) : block ∉ places s.freeQueue s.freeBgQueue s.eventQueue s.timerQueue s.phase.addrs := by
  obtain ⟨large,unused⟩ := fresh
  intro member
  simp only [places,Multiset.mem_add,Multiset.mem_coe,State.used,List.mem_append] at member unused
  have small := linked.small block
  rw [List.mem_append] at small
  have out : ¬block < EVENT_BUF_SIZE := Nat.not_lt.mpr large
  tauto

end Nodes

section Steps

variable {s : State}

theorem post_inv (inv : Inv s) (awake : s.phase ≠ .waiting) (fresh : s.Fresh block) :
    ∃ next, postEvent s handler arg block = .ok next ∧ Inv next := by
  obtain ⟨ordered,linked,_⟩ := inv
  obtain ⟨addr,free,alloc,distinct,small⟩ := linked.alloc (fresh_absent linked fresh)
  unfold postEvent
  rw [alloc]
  dsimp only
  generalize new : (⟨addr,⟨0,0⟩,handler,arg,s.serial,false,0⟩ : Node) = ev
  have fields : ev.addr = addr ∧ ev.id = s.serial ∧ ev.timed = false ∧ ev.runtime.sec = 0 ∧ ev.moved = 0 := by
    rw [← new]
    exact ⟨rfl,rfl,rfl,rfl,rfl⟩
  obtain ⟨place,id,timed,zero,moved⟩ := fields
  have ordered' := ordered.post id timed zero moved
  have distinct' : (places free s.freeBgQueue (s.eventQueue ++ [ev]) s.timerQueue s.phase.addrs).Nodup := by
    rw [places_event,List.append_nil,place]
    exact distinct
  have linked' : Linked free s.freeBgQueue (s.eventQueue ++ [ev]) (some addr) s.timerQueue s.phase.addrs :=
    ⟨by simp [place],distinct',small⟩
  by_cases empty : s.eventQueue = []
  · have none : s.eventLast = none := by
      rw [linked.last,empty]
      rfl
    rw [empty,List.nil_append] at ordered' linked'
    rw [if_pos empty,Code.require_bind_true none]
    exact ⟨_,rfl,ordered',linked',fun waits => absurd waits awake⟩
  · obtain ⟨last,ends⟩ := List.getLast?_isSome.mpr empty |> Option.isSome_iff_exists.mp
    have tail : s.eventLast = some last.addr := by rw [linked.last,ends]; rfl
    rw [if_neg empty,tail]
    dsimp only
    rw [linkAfter_last ends linked.queue_nodup]
    exact ⟨_,rfl,ordered',linked',fun waits => absurd waits awake⟩

theorem postEventWithDelay_inv {delay : Nat} (inv : Inv s) (fresh : s.Fresh block)
    (normal : now.Normal) (later : (timeAddUsec now delay).sec ≠ 0) :
    ∃ next, postEventWithDelay s handler arg now delay block = .ok next ∧ Inv next := by
  obtain ⟨ordered,linked,idle⟩ := inv
  obtain ⟨addr,free,alloc,distinct,small⟩ := linked.alloc (fresh_absent linked fresh)
  obtain ⟨before,behind,split,run,ordered'⟩ := ordered.insert
    ⟨addr,timeAddUsec now delay,handler,arg,s.serial,true,0⟩ rfl rfl later (timeAddUsec_normal normal delay)
  unfold postEventWithDelay
  rw [alloc]
  dsimp only
  rw [run]
  refine ⟨_,rfl,ordered',⟨linked.last,?_,small⟩,idle⟩
  rw [split] at distinct
  dsimp only
  rw [places_timer]
  exact distinct

theorem postFromBgThread_inv {delay : Nat} (inv : Inv s) (fresh : s.Fresh block)
    (normal : now.Normal) (later : (timeAddUsec now delay).sec ≠ 0) :
    ∃ next, postFromBgThread s handler arg now delay block = .ok next ∧ Inv next := by
  obtain ⟨ordered,linked,idle⟩ := inv
  unfold postFromBgThread
  dsimp only
  split
  · exact ⟨_,rfl,ordered.swallow rfl (by simp [Node.is]),linked,idle⟩
  obtain ⟨addr,bg,alloc,distinct,small⟩ := linked.allocBg (fresh_absent linked fresh)
  obtain ⟨before,behind,split,run,ordered'⟩ := ordered.insert
    ⟨addr,timeAddUsec now delay,handler,arg,s.serial,true,0⟩ rfl rfl later (timeAddUsec_normal normal delay)
  rw [alloc]
  dsimp only
  rw [run]
  refine ⟨_,rfl,ordered',⟨linked.last,?_,small⟩,idle⟩
  rw [split] at distinct
  dsimp only
  rw [places_timer]
  exact distinct

/-- A node is freed that is in no queue. -/
theorem freeNode_inv {addr : Nat} (ordered : Ordered s.eventQueue s.timerQueue s.eventCnt s.serial s.dispatched s.cancelled)
    (last : s.eventLast = s.eventQueue.getLast?.map Node.addr)
    (distinct : (places s.freeQueue s.freeBgQueue s.eventQueue s.timerQueue s.phase.addrs + {addr}).Nodup)
    (small : ∀ a ∈ s.freeQueue ++ s.freeBgQueue, a < EVENT_BUF_SIZE) (awake : s.phase ≠ .waiting) : Inv (s.freeNode addr) := by
  obtain ⟨distinct',small'⟩ := free_places distinct small
  unfold State.freeNode
  split
  next inside =>
    rw [if_pos inside] at distinct' small'
    exact ⟨ordered,⟨last,distinct',small'⟩,fun waits => absurd waits awake⟩
  next outside =>
    rw [if_neg outside] at distinct' small'
    exact ⟨ordered,⟨last,distinct',small'⟩,fun waits => absurd waits awake⟩

/-- What is left in the queues, and what `cancel_event` took. -/
def queued (s : State) : List Node := s.eventQueue ++ s.timerQueue

theorem freeNode_fields (s : State) (addr : Nat) : queued (s.freeNode addr) = queued s ∧
    (s.freeNode addr).cancelled = s.cancelled ∧ (s.freeNode addr).cancelHandler = s.cancelHandler := by
  unfold State.freeNode
  split
  · exact ⟨rfl,rfl,rfl⟩
  · exact ⟨rfl,rfl,rfl⟩

/-- One event is removed that is meant, or there is none. -/
theorem cancel_inv (arg : Nat) (wait : Bool) (inv : Inv s) (awake : s.phase ≠ .waiting) (named : handler ≠ 0)
    (free : s.cancelHandler = none) :
    ∃ next, cancelEvent s handler arg wait = .ok next ∧ Inv next ∧
      ((∃ ev, ev.is handler arg = true ∧ (queued s).Perm (ev :: queued next) ∧
          next.cancelled = s.cancelled ++ [((handler,arg),ev)] ∧ next.cancelHandler = none) ∨
        ((∀ ev ∈ queued s, ev.is handler arg = false) ∧ queued next = queued s ∧ next.cancelled = s.cancelled ∧
          next.cancelHandler = if wait then some (handler,arg) else none)) := by
  obtain ⟨ordered,linked,idle⟩ := inv
  unfold cancelEvent
  rw [Code.require_bind_true named,Code.require_bind_true free]
  rcases found : findEvent handler arg s.eventQueue with _ | ⟨before,ev,behind⟩
  · dsimp only
    rcases found' : findEvent handler arg s.timerQueue with _ | ⟨before,ev,behind⟩
    · have none : ∀ ev ∈ queued s, ev.is handler arg = false := by
        intro ev member
        rcases List.mem_append.mp member with ready | timer
        · exact findEvent_none found ev ready
        · exact findEvent_none found' ev timer
      refine ⟨_,rfl,?_,.inr ⟨none,?_⟩⟩
      · cases wait
        · exact ⟨ordered,linked,idle⟩
        · exact ⟨ordered,linked,idle⟩
      · cases wait
        · exact ⟨rfl,rfl,free⟩
        · exact ⟨rfl,rfl,rfl⟩
    · obtain ⟨split,meant⟩ := findEvent_some found'
      rw [split] at ordered
      have distinct := linked.distinct
      rw [split,places_timer] at distinct
      obtain ⟨queues,cancels,waits⟩ := freeNode_fields
        { s with timerQueue := before ++ behind, cancelled := s.cancelled ++ [((handler,arg),ev)] } ev.addr
      refine ⟨_,rfl,freeNode_inv (ordered.removeTimer meant) linked.last distinct linked.small awake,.inl ⟨ev,meant,?_,cancels,waits.trans free⟩⟩
      rw [queues]
      unfold queued
      rw [split,← List.append_assoc,← List.append_assoc]
      exact List.perm_middle
  · obtain ⟨split,meant⟩ := findEvent_some found
    have tail : behind = [] → s.eventLast = some ev.addr := by
      intro empty
      rw [linked.last,split,empty]
      simp
    rw [split] at ordered
    have distinct := linked.distinct
    rw [split,places_event] at distinct
    have last : (if behind = [] then before.getLast?.map Node.addr else s.eventLast) = (before ++ behind).getLast?.map Node.addr := by
      split
      next empty => rw [empty,List.append_nil]
      next some =>
        rw [linked.last,‹s.eventQueue = _›,List.getLast?_append_of_ne_nil _ (List.cons_ne_nil ev behind),
          List.getLast?_append_of_ne_nil _ some]
        obtain ⟨next,more,rfl⟩ := List.exists_cons_of_ne_nil some
        rw [List.getLast?_cons_cons]
    obtain ⟨queues,cancels,waits⟩ := freeNode_fields
      { s with
        eventQueue := before ++ behind
        eventLast := if behind = [] then before.getLast?.map Node.addr else s.eventLast
        cancelled := s.cancelled ++ [((handler,arg),ev)] } ev.addr
    dsimp only
    rw [Code.require_bind_true tail]
    refine ⟨_,rfl,freeNode_inv (ordered.remove meant) last distinct linked.small awake,.inl ⟨ev,meant,?_,cancels,waits.trans free⟩⟩
    rw [queues]
    unfold queued
    rw [‹s.eventQueue = _›,List.append_assoc,List.append_assoc]
    exact List.perm_middle

/-! The loop. -/

theorem gather_inv (inv : Inv s) (normal : now.Normal) (top : s.phase = .top)
    (plain : ∀ x ∈ s.eventQueue, x.timed = false) (restarted : s.eventCnt = 0) :
    ∃ next, gather s now = .ok next ∧ Inv next ∧ ((next.phase = .waiting ∧ next.eventQueue = []) ∨
      (next.phase = .top ∧ next.eventQueue ≠ [])) := by
  obtain ⟨ordered,linked,_⟩ := inv
  obtain ⟨due,later,run,split⟩ := dueTimers_spec normal (fun x member => (ordered.timers x member).2) ordered.sorted
  have quiet : s.phase.addrs = [] := by rw [top]; rfl
  unfold gather
  rw [run]
  dsimp only [Code.ok_bind]
  by_cases nothing : due = []
  · rw [if_pos nothing]
    by_cases empty : s.eventQueue = []
    · refine ⟨{ s with phase := .waiting },by rw [if_pos empty]; rfl,⟨ordered,⟨linked.last,?_,linked.small⟩,fun _ => ⟨empty,restarted⟩⟩,.inl ⟨rfl,empty⟩⟩
      have distinct := linked.distinct
      rw [quiet] at distinct
      exact distinct
    · refine ⟨s,by rw [if_neg empty]; rfl,⟨ordered,linked,fun waits => ?_⟩,.inr ⟨top,empty⟩⟩
      rw [top] at waits
      cases waits
  · have tail : s.eventQueue = [] → s.eventLast = none := by
      intro empty
      rw [linked.last,empty]
      rfl
    rw [split] at ordered
    have ordered' := ordered.move plain
    have distinct := linked.distinct
    have moved : (due.map (fun ev : Node => { ev with moved := s.serial })).map Node.addr = due.map Node.addr := by
      rw [List.map_map]
      rfl
    have same : places s.freeQueue s.freeBgQueue (due.map (fun ev : Node => { ev with moved := s.serial }) ++ s.eventQueue) later s.phase.addrs =
        places s.freeQueue s.freeBgQueue s.eventQueue s.timerQueue s.phase.addrs := by
      unfold places
      rw [split,List.map_append,List.map_append,moved,← Multiset.coe_add,← Multiset.coe_add]
      abel
    rw [← same] at distinct
    have last : (if s.eventQueue = [] then due.getLast?.map Node.addr else s.eventLast) =
        (due.map (fun ev : Node => { ev with moved := s.serial }) ++ s.eventQueue).getLast?.map Node.addr := by
      split
      next empty =>
        rw [empty,List.append_nil,List.getLast?_map,Option.map_map]
        rfl
      next some => rw [linked.last,List.getLast?_append_of_ne_nil _ some]
    rw [if_neg nothing,Code.require_bind_true tail]
    rw [← restarted] at ordered'
    refine ⟨_,rfl,⟨ordered',⟨last,distinct,linked.small⟩,fun waits => ?_⟩,.inr ⟨top,by simp [nothing]⟩⟩
    have other : s.phase = .waiting := waits
    rw [top] at other
    cases other

theorem callHandler_inv (inv : Inv s) (top : s.phase = .top) (some : s.eventQueue ≠ []) :
    ∃ next, callHandler s = .ok next ∧ Inv next := by
  obtain ⟨ordered,linked,_⟩ := inv
  obtain ⟨ev,rest,queue⟩ := List.exists_cons_of_ne_nil some
  have tail : rest = [] → s.eventLast = Option.some ev.addr := by
    intro empty
    rw [linked.last,queue,empty]
    rfl
  rw [queue] at ordered
  have distinct := linked.distinct
  rw [top] at distinct
  unfold callHandler
  rw [queue]
  dsimp only
  rw [Code.require_bind_true tail]
  refine ⟨_,rfl,ordered.dispatch,⟨?_,?_,linked.small⟩,nofun⟩
  · dsimp only
    split
    next empty =>
      rw [empty]
      rfl
    next more =>
      obtain ⟨next,later,rfl⟩ := List.exists_cons_of_ne_nil more
      rw [linked.last,queue,List.getLast?_cons_cons]
  · have same : places s.freeQueue s.freeBgQueue rest s.timerQueue [ev.addr] =
        places s.freeQueue s.freeBgQueue s.eventQueue s.timerQueue [] := by
      unfold places
      rw [queue,List.map_cons,Multiset.coe_singleton,← Multiset.cons_coe,← Multiset.singleton_add,Multiset.coe_nil]
      abel
    dsimp only [Phase.addrs]
    rw [same]
    exact distinct

theorem goOn_inv (inv : Inv s) (normal : now.Normal) (quiet : s.phase.addrs = [])
    (plain : ∀ x ∈ s.eventQueue, x.timed = false) (restarted : s.eventCnt = 0) :
    ∃ next, goOn s now = .ok next ∧ Inv next := by
  have inv' : Inv { s with phase := .top } := by
    have distinct := inv.linked.distinct
    rw [quiet] at distinct
    exact ⟨inv.ordered,⟨inv.linked.last,distinct,inv.linked.small⟩,nofun⟩
  obtain ⟨middle,run,invMiddle,waiting | ready⟩ := gather_inv inv' normal rfl plain restarted
  · refine ⟨middle,?_,invMiddle⟩
    simp only [goOn,run,Code.ok_bind,waiting.1,if_true]
    rfl
  · obtain ⟨next,call,inv''⟩ := callHandler_inv invMiddle ready.1 ready.2
    refine ⟨next,?_,inv''⟩
    simp only [goOn,run,Code.ok_bind,ready.1]
    exact call

theorem runEventLoop_inv {late : Bool} (inv : Inv s) (normal : now.Normal) (top : s.phase = .top) :
    ∃ next, runEventLoop s now late = .ok next ∧ Inv next := by
  unfold runEventLoop
  split
  next gathers =>
    have plain : ∀ x ∈ s.eventQueue, x.timed = false := by
      rcases gathers with empty | many | ⟨some,_⟩
      · rw [empty]
        exact nofun
      · exact inv.ordered.counted (by omega)
      · exact inv.ordered.counted some
    have shared := shareFree_spec s.freeQueue s.freeBgQueue
    generalize share : shareFree s.freeQueue s.freeBgQueue = lists at shared
    obtain ⟨free,bg⟩ := lists
    dsimp only at shared ⊢
    have inv' : Inv { s with eventCnt := 0, freeQueue := free, freeBgQueue := bg } := by
      have ordered := inv.ordered
      have linked := inv.linked
      refine ⟨⟨ordered.batch,nofun,ordered.timers,ordered.marked,ordered.sorted,ordered.order,ordered.ready,ordered.once,ordered.meant⟩,
        ⟨linked.last,?_,fun a member => ?_⟩,fun waits => ?_⟩
      · have distinct := linked.distinct
        unfold places at *
        rwa [shared]
      · have member' : a ∈ (s.freeQueue : Multiset Nat) + s.freeBgQueue := by
          rw [← shared]
          exact Multiset.mem_add.mpr (List.mem_append.mp member)
        exact linked.small a (List.mem_append.mpr (Multiset.mem_add.mp member'))
      · have other : s.phase = .waiting := waits
        rw [top] at other
        cases other
    exact goOn_inv inv' normal (by rw [top]; rfl) plain rfl
  next straight =>
    have some : s.eventQueue ≠ [] := fun empty => straight (.inl empty)
    exact callHandler_inv inv top some

theorem returned_inv (inv : Inv s) (running : s.phase ≠ .top ∧ s.phase ≠ .waiting) : ∃ next, handlerReturned s = .ok next ∧ Inv next := by
  unfold handlerReturned
  rcases phase : s.phase with _ | _ | ev
  · exact absurd phase running.1
  · exact absurd phase running.2
  · refine ⟨_,rfl,freeNode_inv inv.ordered inv.linked.last ?_ inv.linked.small nofun⟩
    have distinct := inv.linked.distinct
    rw [phase] at distinct
    have same : places s.freeQueue s.freeBgQueue s.eventQueue s.timerQueue [] + {ev.addr} =
        places s.freeQueue s.freeBgQueue s.eventQueue s.timerQueue (Phase.running ev).addrs := by
      unfold places Phase.addrs
      rw [Multiset.coe_nil,Multiset.coe_singleton,add_zero]
    dsimp only [Phase.addrs]
    rw [same]
    exact distinct

theorem step_inv {e : Event} (inv : Inv s) (can : Enabled s e) (later : AfterEpoch s e) : ∃ next, step s e = .ok next ∧ Inv next := by
  cases e with
  | post handler arg block => exact post_inv inv can.1 can.2.2
  | postDelayed handler arg now delay block => exact postEventWithDelay_inv inv can.2.2.1 can.2.2.2 later
  | postBg handler arg now delay block => exact postFromBgThread_inv inv can.1 can.2 later
  | cancel handler arg wait =>
    obtain ⟨next,run,inv',_⟩ := cancel_inv arg wait inv can.1 can.2.2 can.2.1
    exact ⟨next,run,inv'⟩
  | loop now late => exact runEventLoop_inv inv can.2.2 can.1
  | wake now =>
    obtain ⟨empty,restarted⟩ := inv.idle can.1
    apply goOn_inv inv can.2
    · rw [can.1]
      rfl
    · rw [empty]
      exact nofun
    · exact restarted
  | returned => exact returned_inv inv can.1
  | restart =>
    have ordered := inv.ordered
    refine ⟨_,rfl,⟨ordered.batch,nofun,ordered.timers,ordered.marked,ordered.sorted,ordered.order,ordered.ready,ordered.once,
      ordered.meant⟩,inv.linked,fun waits => ⟨(inv.idle waits).1,rfl⟩⟩

theorem initial_inv : Inv State.initial := by
  refine ⟨⟨List.Pairwise.nil,nofun,nofun,nofun,List.Pairwise.nil,List.Pairwise.nil,nofun,rfl,nofun⟩,⟨rfl,?_,fun a member => ?_⟩,nofun⟩
  · have same : places State.initial.freeQueue State.initial.freeBgQueue State.initial.eventQueue State.initial.timerQueue
        State.initial.phase.addrs = (((List.range EVENT_BUF_SIZE).reverse : List Nat) : Multiset Nat) := by
      simp [places,State.initial,Phase.addrs]
    rw [same]
    exact List.nodup_reverse.mpr List.nodup_range
  · simpa [State.initial] using member

theorem exec_inv {es : List Event} {final : State} (run : events.exec State.initial es = .ok final)
    (later : events.Meets AfterEpoch State.initial es) : Inv final := by
  apply events.exec_invariant Inv _ initial_inv run later
  intro s e next inv can later step
  obtain ⟨next',run,inv'⟩ := step_inv inv can later
  cases run.symm.trans step
  exact inv'

/-- A post that `cancel_event` waits for is not queued. -/
theorem post_waited {delay : Nat} (waited : s.cancelHandler = some (handler,arg)) :
    ∃ next ev, postFromBgThread s handler arg now delay block = .ok next ∧ ev.is handler arg = true ∧ queued next = queued s ∧
      next.cancelled = s.cancelled ++ [((handler,arg),ev)] ∧ next.cancelHandler = none := by
  unfold postFromBgThread
  exact ⟨_,⟨block,timeAddUsec now delay,handler,arg,s.serial,true,0⟩,if_pos waited,by simp [Node.is],rfl,rfl,rfl⟩

end Steps

/-- Every event is in one place: dispatched, queued, or cancelled. Events are dispatched in order, and those in the queues are
behind them. A call of `cancel_event` removes one event that is meant, or waits for one, and every call returns. -/
theorem events_in_order {es : List Event} {final : State} (run : events.exec State.initial es = .ok final)
    (later : events.Meets AfterEpoch State.initial es) :
    (((final.dispatched ++ queued final ++ final.cancelled.map Prod.snd).map Node.id : List Nat) : Multiset Nat) =
      List.range final.serial ∧
    (final.dispatched ++ final.eventQueue).Pairwise InOrder ∧
    (∀ y ∈ final.dispatched ++ final.eventQueue, ∀ x ∈ final.timerQueue, InOrder y x) ∧
    (∀ handler arg wait, Enabled final (.cancel handler arg wait) → ∃ next, cancelEvent final handler arg wait = .ok next ∧
      ((∃ ev, ev.is handler arg = true ∧ (queued final).Perm (ev :: queued next) ∧
          next.cancelled = final.cancelled ++ [((handler,arg),ev)] ∧ next.cancelHandler = none) ∨
        ((∀ ev ∈ queued final, ev.is handler arg = false) ∧ queued next = queued final ∧ next.cancelled = final.cancelled ∧
          next.cancelHandler = if wait then some (handler,arg) else none))) ∧
    (∀ handler arg now delay block, final.cancelHandler = some (handler,arg) →
      ∃ next ev, postFromBgThread final handler arg now delay block = .ok next ∧ ev.is handler arg = true ∧
        queued next = queued final ∧ next.cancelled = final.cancelled ++ [((handler,arg),ev)] ∧ next.cancelHandler = none) ∧
    ∀ e, Enabled final e → AfterEpoch final e → ∃ next, step final e = .ok next := by
  have inv := exec_inv run later
  refine ⟨?_,inv.ordered.order,fun y member => (inv.ordered.ready y member).2,fun handler arg wait can => ?_,
    fun handler arg now delay block waited => post_waited waited,fun e can clock => ?_⟩
  · rw [← inv.ordered.once,queued,List.map_append,List.map_append,List.map_append,List.map_map]
    simp only [← Multiset.coe_add,add_assoc]
    rfl
  · obtain ⟨next,run,_,outcome⟩ := cancel_inv arg wait inv can.1 can.2.2 can.2.1
    exact ⟨next,run,outcome⟩
  · obtain ⟨next,run,_⟩ := step_inv inv can clock
    exact ⟨next,run⟩

/-- Two timed events and one without a time; one is cancelled, and another is waited for. -/
def sixEvents : List Event :=
  [.postDelayed 1 0 ⟨5,0⟩ 20 1000,.postDelayed 2 0 ⟨5,0⟩ 10 1000,.post 3 0 1000,.postBg 4 0 ⟨5,0⟩ 30 1000,.loop ⟨5,50000⟩ false,.returned,
    .loop ⟨5,50000⟩ false,.cancel 4 0 false,.cancel 5 0 true,.postBg 5 0 ⟨5,0⟩ 0 1000,.returned,.loop ⟨6,0⟩ false,.returned,
    .loop ⟨6,0⟩ true,.postBg 6 0 ⟨6,0⟩ 0 1000,.wake ⟨6,0⟩]

theorem events_in_order_run : ∃ final, events.exec State.initial sixEvents = .ok final ∧
    final.dispatched.map Node.handler = [3,2,1,6] ∧ final.cancelled.map (fun c => c.2.handler) = [4,5] ∧
    (((final.dispatched ++ queued final ++ final.cancelled.map Prod.snd).map Node.id : List Nat) : Multiset Nat) =
      List.range final.serial ∧
    (final.dispatched ++ final.eventQueue).Pairwise InOrder ∧
    ∀ y ∈ final.dispatched ++ final.eventQueue, ∀ x ∈ final.timerQueue, InOrder y x := by
  have later : events.Meets AfterEpoch State.initial sixEvents := by decide +kernel
  obtain ⟨final,run,order,cancelled⟩ : ∃ final, events.exec State.initial sixEvents = .ok final ∧
      final.dispatched.map Node.handler = [3,2,1,6] ∧ final.cancelled.map (fun c => c.2.handler) = [4,5] := by decide +kernel
  obtain ⟨once,sorted,behind,_⟩ := events_in_order run later
  exact ⟨final,run,order,cancelled,once,sorted,behind⟩

/-- In the first second of the clock a timed event counts as one without a time. After 100 ms a later one is moved to the
front of one that is ready. -/
theorem events_first_second : ∃ final, events.exec State.initial
    [.postDelayed 1 0 ⟨0,0⟩ 10 1000,.postDelayed 2 0 ⟨0,0⟩ 20 1000,.loop ⟨0,30000⟩ false,.postDelayed 3 0 ⟨0,30000⟩ 10 1000,.returned,
      .loop ⟨0,200000000⟩ true,.returned,.loop ⟨0,200000000⟩ false] = .ok final ∧
    final.dispatched.map Node.handler = [1,3,2] ∧ ¬final.dispatched.Pairwise InOrder := by decide +kernel

end Tcf.Events
