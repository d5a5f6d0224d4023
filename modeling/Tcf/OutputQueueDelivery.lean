import Tcf.OutputQueue

/-! Output queues deliver the bytes added to them, in order and each once, with one request
at a time in flight. -/
namespace Tcf.OutputQueue

open Circular

variable {α : Type}

/-- Whose a buffer is. A buffer of nobody is on its way from one to another, or was freed. -/
inductive Owner where
  | pool
  | held
  | queue (k : Nat)
  deriving DecidableEq, Repr

/-- No buffer is in two places. -/
structure Owned (w : World α) (owner : Nat → Option Owner) : Prop where
  pool : ∀ id, id ∈ w.pool ↔ owner id = some .pool
  held : ∀ id, id ∈ w.held ↔ owner id = some .held
  queue : ∀ k id, id ∈ (w.queues k).queue ↔ owner id = some (.queue k)
  poolOnce : w.pool.Nodup
  heldOnce : w.held.Nodup
  queueOnce : ∀ k, (w.queues k).queue.Nodup
  fresh : ∀ id, w.fresh ≤ id → owner id = none

/-- A buffer that only the running function has. -/
def Loose (w : World α) (owner : Nat → Option Owner) (id : Nat) : Prop := owner id = none ∧ id < w.fresh

def World.ranges (w : World α) (ids : List Nat) : List α := (ids.map fun id => (w.heap id).range).flatten

/-- The request for the first buffer of a queue. -/
def World.request (w : World α) (k : Nat) : Option (Posted α) :=
  (w.queues k).queue.head?.map fun id => ⟨id,(w.heap id).bufPos,(w.heap id).range⟩

/-- The buffers of a queue hold what waits, except for data that is still to be stored. -/
structure Filled (b : Build) (w : World α) (k : Nat) (rest : List α) : Prop where
  accepted : (wire α).Accepts .idle (w.log k)
  pending : (w.wire k).pending = w.ranges (w.queues k).queue ++ rest
  bounds : ∀ id ∈ (w.queues k).queue, (w.heap id).bufPos ≤ (w.heap id).bufLen ∧ (w.heap id).bufLen ≤ b.bufSize
  waiting : ∀ id ∈ (w.queues k).queue.tail, (w.heap id).bufPos = 0
  failed : (w.wire k).failed = true ↔ (w.queues k).error ≠ 0
  stopped : (w.queues k).error ≠ 0 → (w.queues k).queue = []

/-- The first buffer is in flight, as it was posted. -/
structure Flows (b : Build) (w : World α) (k : Nat) (rest : List α) : Prop where
  filled : Filled b w k rest
  flight : (w.wire k).inFlight = w.request k

/-- What does not concern a queue. -/
structure Apart (w next : World α) (j : Nat) : Prop where
  queue : next.queues j = w.queues j
  log : next.log j = w.log j
  heap : ∀ id ∈ (w.queues j).queue, next.heap id = w.heap id

variable {j : Nat}

theorem Apart.trans {first second third : World α} (one : Apart first second j)
    (two : Apart second third j) : Apart first third j := by
  refine ⟨two.queue.trans one.queue,two.log.trans one.log,fun id member => ?_⟩
  rw [two.heap id (one.queue.symm ▸ member),one.heap id member]

variable {w next : World α}

theorem ranges_congr {ids : List Nat} (same : ∀ id ∈ ids, next.heap id = w.heap id) :
    next.ranges ids = w.ranges ids := by
  unfold World.ranges
  congr 1
  exact List.map_congr_left fun id member => by rw [same id member]

@[simp] theorem ranges_nil (w : World α) : w.ranges [] = [] := rfl

@[simp] theorem ranges_cons (w : World α) (id : Nat) (ids : List Nat) :
    w.ranges (id :: ids) = (w.heap id).range ++ w.ranges ids := rfl

@[simp] theorem ranges_append (w : World α) (one two : List Nat) :
    w.ranges (one ++ two) = w.ranges one ++ w.ranges two := by simp [World.ranges]

variable {b : Build} {rest : List α}

theorem Filled.apart (h : Filled b w j rest)
    (apart : Apart w next j) : Filled b next j rest := by
  obtain ⟨accepted,pending,bounds,waiting,failed,stopped⟩ := h
  obtain ⟨queue,log,heap⟩ := apart
  have seen : next.wire j = w.wire j := by rw [World.wire,World.wire,log]
  have ranges : next.ranges (next.queues j).queue = w.ranges (w.queues j).queue := by
    rw [queue]
    exact ranges_congr heap
  refine ⟨log ▸ accepted,?_,?_,?_,?_,?_⟩
  · rw [seen,ranges,pending]
  · intro id member
    rw [queue] at member
    rw [heap id member]
    exact bounds id member
  · intro id member
    rw [queue] at member
    rw [heap id (List.mem_of_mem_tail member)]
    exact waiting id member
  · rw [seen,queue]
    exact failed
  · rw [queue]
    exact stopped

theorem Flows.apart (h : Flows b w j rest)
    (apart : Apart w next j) : Flows b next j rest := by
  refine ⟨h.filled.apart apart,?_⟩
  rw [World.wire,apart.log,World.request,apart.queue]
  refine h.flight.trans ?_
  rw [World.request]
  cases first : (w.queues j).queue with
  | nil => rfl
  | cons id ids =>
    have member : id ∈ (w.queues j).queue := by simp [first]
    simp [apart.heap id member]

theorem append_range {bf : OutputBuffer α} (order : bf.bufPos ≤ bf.bufLen) (data : List α) :
    (bf.append data).range = bf.range ++ data := by
  have place : bf.bufPos + (bf.bufLen - bf.bufPos) = bf.bufLen := by omega
  have count : bf.bufLen + data.length - bf.bufPos = bf.bufLen - bf.bufPos + data.length := by omega
  have extend := block_store_extend bf.buf bf.bufPos (bf.bufLen - bf.bufPos) data
  rw [place] at extend
  simp only [OutputBuffer.range,OutputBuffer.append,count]
  exact extend

/-- A new entry of a queue's log. -/
theorem record_wire (w : World α) (k : Nat) (e : Entry α) :
    (w.record k e).wire k = (w.wire k).next e := by
  simp [World.wire,World.record,Monitor.after_append,wire]

variable {k : Nat}

theorem record_accepted {e : Entry α} (accepted : (wire α).Accepts .idle (w.log k))
    (allowed : (w.wire k).allows e) : (wire α).Accepts .idle ((w.record k e).log k) := by
  simp only [World.record,Function.update_self]
  exact ((wire α).accepts_append ..).mpr ⟨accepted,allowed,trivial⟩

theorem record_apart (w : World α) (other : j ≠ k) (e : Entry α) : Apart w (w.record k e) j :=
  ⟨rfl,by simp [World.record,other],fun _ _ => rfl⟩

variable {owner : Nat → Option Owner}

theorem record_owned (h : Owned w owner) (k : Nat) (e : Entry α) :
    Owned (w.record k e) owner := ⟨h.pool,h.held,h.queue,h.poolOnce,h.heldOnce,h.queueOnce,h.fresh⟩

/-- A loose buffer, or one of another place, is not in a queue. -/
theorem Owned.outside (h : Owned w owner) (id : Nat)
    (other : owner id ≠ some (.queue k)) {member : Nat} (inside : member ∈ (w.queues k).queue) : member ≠ id := by
  rintro rfl
  exact other ((h.queue k member).mp inside)

variable {id : Nat}

section

variable (h : Owned w owner)

include h

theorem setBuf_apart
    (other : owner id ≠ some (.queue j)) (bf : OutputBuffer α) : Apart w (w.setBuf id bf) j := by
  refine ⟨rfl,rfl,fun member inside => ?_⟩
  simp [World.setBuf,h.outside id other inside]

theorem setBuf_owned (id : Nat)
    (bf : OutputBuffer α) : Owned (w.setBuf id bf) owner :=
  ⟨h.pool,h.held,h.queue,h.poolOnce,h.heldOnce,h.queueOnce,h.fresh⟩

omit h in
theorem nodup_last {ids : List Nat} (absent : id ∉ ids) (once : ids.Nodup) : (ids ++ [id]).Nodup :=
  (List.perm_append_singleton id ids).nodup_iff.mpr (List.nodup_cons.mpr ⟨absent,once⟩)

/-- One buffer changes its place, all others stay. -/
theorem Owned.move (id : Nat)
    (place : Option Owner)
    (others : ∀ other, other ≠ id → (other ∈ next.pool ↔ other ∈ w.pool) ∧ (other ∈ next.held ↔ other ∈ w.held) ∧
      ∀ k, other ∈ (next.queues k).queue ↔ other ∈ (w.queues k).queue)
    (pool : id ∈ next.pool ↔ place = some .pool) (held : id ∈ next.held ↔ place = some .held)
    (queue : ∀ k, id ∈ (next.queues k).queue ↔ place = some (.queue k))
    (poolOnce : next.pool.Nodup) (heldOnce : next.held.Nodup) (queueOnce : ∀ k, (next.queues k).queue.Nodup)
    (grown : w.fresh ≤ next.fresh) (below : id < next.fresh) :
    Owned next (Function.update owner id place) := by
  refine ⟨?_,?_,?_,poolOnce,heldOnce,queueOnce,?_⟩
  · intro other
    by_cases same : other = id
    · simpa [same] using pool
    · simpa [same] using (others other same).1.trans (h.pool other)
  · intro other
    by_cases same : other = id
    · simpa [same] using held
    · simpa [same] using (others other same).2.1.trans (h.held other)
  · intro k other
    by_cases same : other = id
    · simpa [same] using queue k
    · simpa [same] using ((others other same).2.2 k).trans (h.queue k other)
  · intro other out
    have apart : other ≠ id := by omega
    simpa [apart] using h.fresh other (Nat.le_trans grown out)

theorem Loose.absent
    (loose : Loose w owner id) : id ∉ w.pool ∧ id ∉ w.held ∧ ∀ k, id ∉ (w.queues k).queue := by
  simp [h.pool,h.held,h.queue,loose.1]

/-- A free buffer goes to the pool, or back to the heap. -/
theorem free_spec
    (loose : Loose w owner id) :
    (∃ owner', Owned (outputQueueFreeObuf w id) owner' ∧ ∀ other, other ≠ id → owner' other = owner other) ∧
      (outputQueueFreeObuf w id).fresh = w.fresh ∧ ∀ j, Apart w (outputQueueFreeObuf w id) j := by
  obtain ⟨pool,held,queue⟩ := loose.absent h
  unfold outputQueueFreeObuf
  split
  · refine ⟨⟨_,?_,fun other apart => Function.update_of_ne apart (some .pool) owner⟩,rfl,
      fun j => ⟨rfl,rfl,fun _ _ => rfl⟩⟩
    refine h.move id (some .pool) ?_ ?_ ?_ ?_ (nodup_last pool h.poolOnce) h.heldOnce h.queueOnce
      (Nat.le_refl _) loose.2
    · intro other apart
      simp [apart]
    · simp
    · simp [held]
    · simp [queue]
  · exact ⟨⟨owner,h,fun _ _ => rfl⟩,rfl,fun j => ⟨rfl,rfl,fun _ _ => rfl⟩⟩

/-- An allocated buffer is in no place. -/
theorem alloc_spec [Inhabited α] :
    ∃ owner', Owned (outputQueueAllocObuf w).1 owner' ∧
      Loose (outputQueueAllocObuf w).1 owner' (outputQueueAllocObuf w).2 ∧
      ∀ j, Apart w (outputQueueAllocObuf w).1 j := by
  unfold outputQueueAllocObuf
  split
  next none_ =>
    have free : owner w.fresh = none := h.fresh _ (Nat.le_refl _)
    refine ⟨owner,?_,⟨free,Nat.lt_succ_self _⟩,fun j => ⟨rfl,rfl,fun id member => ?_⟩⟩
    · exact ⟨h.pool,h.held,h.queue,h.poolOnce,h.heldOnce,h.queueOnce,
        fun id out => h.fresh id (Nat.le_of_succ_le out)⟩
    · have apart := h.outside w.fresh (by simp [free]) member
      simp [World.setBuf,apart]
  next id rest some_ =>
    have mine : owner id = some .pool := (h.pool id).mp (by simp [some_])
    have held : id ∉ w.held := by simp [h.held,mine]
    have queue : ∀ k, id ∉ (w.queues k).queue := by simp [h.queue,mine]
    obtain ⟨first,once⟩ := List.nodup_cons.mp (some_ ▸ h.poolOnce)
    have below : id < w.fresh := by
      by_contra out
      have none_ := h.fresh id (Nat.not_lt.mp out)
      rw [mine] at none_
      cases none_
    refine ⟨_,h.move id none ?_ ?_ ?_ ?_ once h.heldOnce h.queueOnce (Nat.le_refl _) below,
      ⟨by simp,below⟩,fun j => ⟨rfl,rfl,fun member inside => ?_⟩⟩
    · intro other apart
      simp [World.setBuf,some_,apart]
    · simp [World.setBuf,first]
    · simpa [World.setBuf] using held
    · simpa [World.setBuf] using queue
    · have apart := h.outside id (by simp [mine]) inside
      simp [World.setBuf,apart]

omit h in
/-- The first buffer of an idle queue is posted. -/
theorem post_spec (filled : Filled b w k rest)
    (healthy : (w.queues k).error = 0) (first : (w.queues k).queue.head? = some id)
    (idle : (w.wire k).inFlight = none) : Flows b (postIoRequest w k id) k rest := by
  obtain ⟨accepted,pending,bounds,waiting,failed,stopped⟩ := filled
  let request : Posted α := ⟨id,(w.heap id).bufPos,(w.heap id).range⟩
  have open_ : (w.wire k).failed = false := by
    have not_failed := mt failed.mp (by simp [healthy])
    simpa using not_failed
  have front : request.bytes <+: (w.wire k).pending := by
    obtain ⟨ids,queue⟩ := List.head?_eq_some_iff.mp first
    rw [pending,queue,ranges_cons,List.append_assoc]
    exact List.prefix_append ..
  have seen : (postIoRequest w k id).wire k = (w.wire k).next (.posted request) := record_wire ..
  refine ⟨⟨record_accepted accepted ⟨open_,idle,front⟩,?_,bounds,waiting,?_,stopped⟩,?_⟩
  · rw [seen]
    exact pending
  · rw [seen]
    exact failed
  · rw [seen,World.request]
    change some request = ((w.queues k).queue.head?).map _
    rw [first]
    rfl

/-- A buffer added to a queue, with data that was still to be stored. -/
theorem addLast_spec
    (loose : Loose w owner id) (small : (w.heap id).bufLen ≤ b.bufSize)
    (healthy : (w.queues k).error = 0)
    (flows : Flows b w k (block (w.heap id).buf 0 (w.heap id).bufLen ++ rest)) :
    (∃ owner', Owned (addLast w k id) owner') ∧ Flows b (addLast w k id) k rest ∧
      ((addLast w k id).queues k).error = 0 ∧ ∀ j, j ≠ k → Apart w (addLast w k id) j := by
  obtain ⟨pool,held,queue⟩ := loose.absent h
  let middle := (w.setBuf id { w.heap id with bufPos := 0 }).setQueue k ((w.queues k).queue ++ [id])
  have mine : (middle.queues k).queue = (w.queues k).queue ++ [id] := by simp [middle,World.setQueue,World.setBuf]
  have owned : Owned middle (Function.update owner id (some (.queue k))) := by
    apply h.move id (some (.queue k))
    · intro other apart
      refine ⟨Iff.rfl,Iff.rfl,fun j => ?_⟩
      by_cases here : j = k
      · subst here
        simp [mine,apart]
      · simp [middle,World.setQueue,World.setBuf,here]
    · simpa [middle,World.setQueue,World.setBuf] using pool
    · simpa [middle,World.setQueue,World.setBuf] using held
    · intro j
      by_cases here : j = k
      · subst here
        simp [mine]
      · have other : ¬k = j := fun eq => here eq.symm
        simp [middle,World.setQueue,World.setBuf,here,queue,other]
    · exact h.poolOnce
    · exact h.heldOnce
    · intro j
      by_cases here : j = k
      · subst here
        rw [mine]
        exact nodup_last (queue j) (h.queueOnce j)
      · have same : middle.queues j = w.queues j := by simp [middle,World.setQueue,World.setBuf,here]
        rw [same]
        exact h.queueOnce j
    · exact Nat.le_refl _
    · exact loose.2
  have heap : ∀ other ∈ (w.queues k).queue, middle.heap other = w.heap other := by
    intro other member
    have apart : other ≠ id := fun same => queue k (same ▸ member)
    simp [middle,World.setQueue,World.setBuf,apart]
  have here : middle.heap id = { w.heap id with bufPos := 0 } := by simp [middle,World.setQueue,World.setBuf]
  have range : (middle.heap id).range = block (w.heap id).buf 0 (w.heap id).bufLen := by
    rw [here]
    rfl
  have apart : ∀ j, j ≠ k → Apart w middle j := by
    intro j other
    refine ⟨by simp [middle,World.setQueue,World.setBuf,other],rfl,fun member inside => ?_⟩
    have differs : member ≠ id := fun same => queue j (same ▸ inside)
    simp [middle,World.setQueue,World.setBuf,differs]
  have error : (middle.queues k).error = 0 := by simpa [middle,World.setQueue,World.setBuf] using healthy
  have filled : Filled b middle k rest := by
    obtain ⟨accepted,pending,bounds,waiting,failed,stopped⟩ := flows.filled
    refine ⟨accepted,?_,?_,?_,?_,?_⟩
    · change (w.wire k).pending = _
      rw [pending,mine,ranges_append,ranges_congr heap,ranges_cons,ranges_nil,range]
      simp
    · intro other member
      rw [mine] at member
      rcases List.mem_append.mp member with old | new
      · rw [heap other old]
        exact bounds other old
      · rw [List.mem_singleton.mp new,here]
        exact ⟨Nat.zero_le _,small⟩
    · intro other member
      rw [mine] at member
      cases first : (w.queues k).queue with
      | nil => simp [first] at member
      | cons one ids =>
        rw [first,List.cons_append,List.tail_cons] at member
        rcases List.mem_append.mp member with old | new
        · have inside : other ∈ (w.queues k).queue := by simp [first,old]
          rw [heap other inside]
          exact waiting other (by simp [first,old])
        · rw [List.mem_singleton.mp new,here]
    · rw [error]
      exact failed.trans (by rw [healthy])
    · intro bad
      exact absurd error bad
  cases first : (w.queues k).queue with
  | nil =>
    have head : (middle.queues k).queue.head? = some id := by rw [mine,first]; rfl
    have idle : (middle.wire k).inFlight = none := by
      change (w.wire k).inFlight = none
      rw [flows.flight,World.request,first]
      rfl
    have posts : addLast w k id = postIoRequest middle k id := if_pos head
    rw [posts]
    exact ⟨⟨_,record_owned owned ..⟩,post_spec filled error head idle,error,
      fun j other => (apart j other).trans (record_apart middle other _)⟩
  | cons one ids =>
    have head : (middle.queues k).queue.head? = some one := by rw [mine,first]; rfl
    have differs : one ≠ id := fun same => queue k (by simp [first,same])
    have keeps : addLast w k id = middle := if_neg (by
      change ¬(middle.queues k).queue.head? = some id
      simpa [head] using differs)
    rw [keeps]
    refine ⟨⟨_,owned⟩,⟨filled,?_⟩,error,apart⟩
    change (w.wire k).inFlight = _
    rw [flows.flight,World.request,World.request,head,first]
    simp [heap one (by simp [first])]

omit h in
/-- The ends of the list differ exactly when a buffer waits behind the first one. -/
theorem behind_split {q : Queue} (behind : q.behind) :
    ∃ one ids, q.queue = one :: (ids ++ [q.last]) := by
  cases first : q.queue with
  | nil => exact absurd (by simp [first]) behind
  | cons one rest =>
    rcases List.eq_nil_or_concat rest with none_ | ⟨ids,last,some_⟩
    · exact absurd (by simp [first,none_]) behind
    · refine ⟨one,ids,?_⟩
      have last_ : (one :: (ids ++ [last])).getLast? = some last := by
        rw [← List.cons_append]
        exact List.getLast?_concat
      simp [Queue.last,first,some_,last_]

/-- What is appended to the last buffer is not the first one's. -/
theorem append_spec {data : List α}
    (behind : (w.queues k).behind)
    (fits : data.length ≤ b.bufSize - (w.heap (w.queues k).last).bufLen) (flows : Flows b w k (data ++ rest)) :
    let last := (w.queues k).last
    let next := w.setBuf last ((w.heap last).append data)
    Owned next owner ∧ Flows b next k rest ∧ ∀ j, j ≠ k → Apart w next j := by
  intro last next
  obtain ⟨one,ids,queue⟩ := behind_split behind
  have queue : (w.queues k).queue = (one :: ids) ++ [last] := queue
  have once := h.queueOnce k
  rw [queue] at once
  have absent : ∀ other ∈ one :: ids, other ≠ last := by
    intro other member same
    exact List.nodup_append.mp once |>.2.2 other member last (List.mem_singleton_self _) same
  have mine : owner last = some (.queue k) := (h.queue k last).mp (by simp [queue])
  have heap : ∀ other ∈ one :: ids, next.heap other = w.heap other := by
    intro other member
    simp [next,World.setBuf,absent other member]
  have here : next.heap last = (w.heap last).append data := by simp [next,World.setBuf]
  obtain ⟨⟨accepted,pending,bounds,waiting,failed,stopped⟩,flight⟩ := flows
  have order := bounds last (by simp [queue])
  have fits : data.length ≤ b.bufSize - (w.heap last).bufLen := fits
  refine ⟨setBuf_owned h last _,⟨⟨accepted,?_,?_,?_,failed,stopped⟩,?_⟩,fun j other => ?_⟩
  · change (w.wire k).pending = next.ranges (w.queues k).queue ++ rest
    rw [pending,queue,ranges_append,ranges_append,ranges_congr heap]
    simp [here,append_range order.1]
  · intro other member
    by_cases same : other = last
    · rw [same,here]
      simp only [OutputBuffer.append]
      omega
    · have same_ : next.heap other = w.heap other := by simp [next,World.setBuf,same]
      rw [same_]
      exact bounds other member
  · intro other member
    by_cases same : other = last
    · rw [same,here]
      exact waiting last (by simp [queue])
    · have same_ : next.heap other = w.heap other := by simp [next,World.setBuf,same]
      rw [same_]
      exact waiting other member
  · change (w.wire k).inFlight = _
    rw [flight,World.request,World.request]
    change _ = ((w.queues k).queue.head?).map _
    rw [queue]
    simp [heap one List.mem_cons_self]
  · exact setBuf_apart h (by simp [mine,Ne.symm other]) _

/-- A loop that makes a new buffer for each block. -/
theorem addBlocks_spec [Inhabited α] {fuel : Nat}
    {data : List α} (enough : data.length < fuel) (healthy : (w.queues k).error = 0)
    (flows : Flows b w k data) :
    ∃ next owner', addBlocks b k fuel w data = .ok next ∧ Owned next owner' ∧ Flows b next k [] ∧
      ∀ j, j ≠ k → Apart w next j := by
  induction fuel generalizing w owner data with
  | zero => omega
  | succ fuel ih =>
    by_cases empty : data = []
    · subst empty
      exact ⟨w,owner,rfl,h,flows,fun j _ => ⟨rfl,rfl,fun _ _ => rfl⟩⟩
    · obtain ⟨owner',owned,loose,apart⟩ := alloc_spec h
      let id := (outputQueueAllocObuf w).2
      let len := min data.length b.bufSize
      let bf := (outputQueueAllocObuf w).1.heap id
      let filled := (outputQueueAllocObuf w).1.setBuf id { bf with
        buf := store bf.buf 0 (data.take len), bufLen := len }
      have count : (data.take len).length = len := List.length_take_of_le (Nat.min_le_left ..)
      have apart' : ∀ j, Apart w filled j := fun j =>
        (apart j).trans (setBuf_apart owned (by simp [id,loose.1]) _)
      have here : filled.heap id = ⟨store bf.buf 0 (data.take len),len,bf.bufPos⟩ := by
        simp [filled,World.setBuf]
      have chunk : block (filled.heap id).buf 0 (filled.heap id).bufLen = data.take len := by
        rw [here]
        have stored := block_store_same bf.buf 0 (data.take len)
        rwa [count] at stored
      have flows' : Flows b filled k (block (filled.heap id).buf 0 (filled.heap id).bufLen ++ data.drop len) := by
        rw [chunk,List.take_append_drop]
        exact flows.apart (apart' k)
      have small : (filled.heap id).bufLen ≤ b.bufSize := by
        rw [here]
        exact Nat.min_le_right ..
      have healthy' : (filled.queues k).error = 0 := by
        rw [(apart' k).queue]
        exact healthy
      obtain ⟨⟨owner₂,owned₂⟩,flows₂,healthy₂,apart₂⟩ := addLast_spec (setBuf_owned owned id _) loose small healthy' flows'
      have positive := b.positive
      have nonempty := List.length_pos_of_ne_nil empty
      have shorter : (data.drop len).length < fuel := by
        rw [List.length_drop]
        omega
      obtain ⟨next,owner₃,run,owned₃,flows₃,apart₃⟩ := ih owned₂ shorter healthy₂ flows₂
      refine ⟨next,owner₃,?_,owned₃,flows₃,fun j other => ?_⟩
      · rw [addBlocks,if_neg empty]
        exact run
      · exact ((apart' j).trans (apart₂ j other)).trans (apart₃ j other)

theorem outputQueueAdd_spec [Inhabited α]
    {data : List α} (healthy : (w.queues k).error = 0) (flows : Flows b w k data) :
    ∃ next owner', outputQueueAdd b w k data = .ok next ∧ Owned next owner' ∧ Flows b next k [] ∧
      ∀ j, j ≠ k → Apart w next j := by
  have open_ : ¬(w.queues k).error ≠ 0 := by simp [healthy]
  by_cases behind : (w.queues k).behind
  · let last := (w.queues k).last
    let gap := b.bufSize - (w.heap last).bufLen
    obtain ⟨one,ids,queue⟩ := behind_split behind
    have start : (w.heap last).bufPos = 0 := flows.filled.waiting last (by simp [queue,last])
    have split : Flows b w k (data.take gap ++ data.drop gap) := by rwa [List.take_append_drop]
    obtain ⟨owned,flows',apart⟩ := append_spec h behind (List.length_take_le ..) split
    obtain ⟨next,owner',run,owned',flows₂,apart₂⟩ :=
      addBlocks_spec owned (Nat.lt_succ_self _) healthy flows'
    refine ⟨next,owner',?_,owned',flows₂,fun j other => (apart j other).trans (apart₂ j other)⟩
    rw [outputQueueAdd,if_neg open_,appendLast,if_pos behind]
    simp only [require_true start,Code.ok_bind,Code.pure_eq,last]
    exact run
  · obtain ⟨next,owner',run,owned,flows',apart⟩ := addBlocks_spec h (Nat.lt_succ_self _) healthy flows
    refine ⟨next,owner',?_,owned,flows',apart⟩
    rw [outputQueueAdd,if_neg open_,appendLast,if_neg behind]
    exact run

theorem outputQueueAddObuf_spec
    (loose : Loose w owner id) (small : (w.heap id).bufLen ≤ b.bufSize)
    (healthy : (w.queues k).error = 0) (flows : Flows b w k (block (w.heap id).buf 0 (w.heap id).bufLen)) :
    ∃ next owner', outputQueueAddObuf b w k id = .ok next ∧ Owned next owner' ∧ Flows b next k [] ∧
      ∀ j, j ≠ k → Apart w next j := by
  have flows : Flows b w k (block (w.heap id).buf 0 (w.heap id).bufLen ++ []) := by rwa [List.append_nil]
  have linked := addLast_spec h loose small healthy flows
  by_cases behind : (w.queues k).behind
  · let last := (w.queues k).last
    obtain ⟨one,ids,queue⟩ := behind_split behind
    have start : (w.heap last).bufPos = 0 := flows.filled.waiting last (by simp [queue,last])
    by_cases fits : b.bufSize - (w.heap last).bufLen ≥ (w.heap id).bufLen
    · have short : (block (w.heap id).buf 0 (w.heap id).bufLen).length ≤ b.bufSize - (w.heap last).bufLen := by
        rwa [block_length]
      obtain ⟨owned,flows',apart⟩ := append_spec h behind short flows
      obtain ⟨⟨owner',owned',_⟩,_,freed⟩ := free_spec owned loose
      refine ⟨_,owner',?_,owned',flows'.apart (freed k),fun j other => (apart j other).trans (freed j)⟩
      rw [outputQueueAddObuf,if_pos behind]
      simp only [require_true start,Code.ok_bind,last]
      exact if_pos fits
    · obtain ⟨⟨owner',owned⟩,flows',_,apart⟩ := linked
      refine ⟨_,owner',?_,owned,flows',apart⟩
      rw [outputQueueAddObuf,if_pos behind]
      simp only [require_true start,Code.ok_bind,last]
      exact if_neg fits
  · obtain ⟨⟨owner',owned⟩,flows',_,apart⟩ := linked
    refine ⟨_,owner',?_,owned,flows',apart⟩
    rw [outputQueueAddObuf,if_neg behind]
    rfl

/-- Buffers are freed one by one. -/
theorem freeAll_spec {ids : List Nat}
    (loose : ∀ id ∈ ids, Loose w owner id) (once : ids.Nodup) :
    (∃ owner', Owned (ids.foldl outputQueueFreeObuf w) owner') ∧
      ∀ j, Apart w (ids.foldl outputQueueFreeObuf w) j := by
  induction ids generalizing w owner with
  | nil => exact ⟨⟨owner,h⟩,fun j => ⟨rfl,rfl,fun _ _ => rfl⟩⟩
  | cons id rest ih =>
    obtain ⟨first,once⟩ := List.nodup_cons.mp once
    obtain ⟨⟨owner',owned,same⟩,fresh,apart⟩ := free_spec h (loose id List.mem_cons_self)
    have loose' : ∀ other ∈ rest, Loose (outputQueueFreeObuf w id) owner' other := by
      intro other member
      have differs : other ≠ id := fun eq => first (eq ▸ member)
      have before := loose other (List.mem_cons_of_mem _ member)
      exact ⟨(same other differs).trans before.1,by rw [fresh]; exact before.2⟩
    obtain ⟨owned',apart'⟩ := ih owned loose' once
    exact ⟨owned',fun j => (apart j).trans (apart' j)⟩

omit h in
theorem free_setQueue (w : World α) (k id : Nat) (queue : List Nat) :
    outputQueueFreeObuf (w.setQueue k queue) id = (outputQueueFreeObuf w id).setQueue k queue := by
  unfold outputQueueFreeObuf World.setQueue
  split <;> rfl

omit h in
theorem freeAll_setQueue (w : World α) (k : Nat) (queue ids : List Nat) :
    ids.foldl outputQueueFreeObuf (w.setQueue k queue) = (ids.foldl outputQueueFreeObuf w).setQueue k queue := by
  induction ids generalizing w with
  | nil => rfl
  | cons id rest ih => rw [List.foldl_cons,free_setQueue,ih,List.foldl_cons]

/-- Buffers taken off a queue are loose. -/
theorem takeOff_owned
    {queue gone : List Nat} (split : (w.queues k).queue = gone ++ queue) :
    ∃ owner', Owned (w.setQueue k queue) owner' ∧ ∀ id ∈ gone, Loose (w.setQueue k queue) owner' id := by
  have once := h.queueOnce k
  rw [split] at once
  obtain ⟨_,once,differ⟩ := List.nodup_append.mp once
  have mine : ∀ id ∈ gone, owner id = some (.queue k) := fun id member =>
    (h.queue k id).mp (by simp [split,member])
  have known : ∀ id ∈ gone, id < w.fresh := by
    intro id member
    by_contra out
    have none_ := h.fresh id (Nat.not_lt.mp out)
    rw [mine id member] at none_
    cases none_
  refine ⟨fun id => if id ∈ gone then none else owner id,?_,fun id member => ⟨if_pos member,known id member⟩⟩
  constructor
  · intro id
    by_cases member : id ∈ gone
    · simp [member,World.setQueue,h.pool,mine id member]
    · simpa [member,World.setQueue] using h.pool id
  · intro id
    by_cases member : id ∈ gone
    · simp [member,World.setQueue,h.held,mine id member]
    · simpa [member,World.setQueue] using h.held id
  · intro j id
    have before := h.queue j id
    by_cases here : j = k
    · subst here
      by_cases member : id ∈ gone
      · have absent : id ∉ queue := fun inside => differ id member id inside rfl
        simp [member,World.setQueue,absent]
      · rw [split] at before
        simpa [member,World.setQueue] using before
    · by_cases member : id ∈ gone
      · have other : ¬k = j := fun eq => here eq.symm
        simp [member,World.setQueue,here,before,mine id member,other]
      · simpa [member,World.setQueue,here] using before
  · exact h.poolOnce
  · exact h.heldOnce
  · intro j
    by_cases here : j = k
    · subst here
      simpa [World.setQueue] using once
    · simpa [World.setQueue,here] using h.queueOnce j
  · intro id out
    by_cases member : id ∈ gone
    · simp [member]
    · simpa [member] using h.fresh id out

omit h in
theorem setQueue_apart (w : World α) (other : j ≠ k) (queue : List Nat) :
    Apart w (w.setQueue k queue) j := ⟨by simp [World.setQueue,other],rfl,fun _ _ => rfl⟩

theorem outputQueueClear_spec :
    (∃ owner', Owned (outputQueueClear w k) owner') ∧ ((outputQueueClear w k).queues k).queue = [] ∧
      ((outputQueueClear w k).queues k).error = (w.queues k).error ∧ (outputQueueClear w k).log k = w.log k ∧
      ∀ j, j ≠ k → Apart w (outputQueueClear w k) j := by
  have split : (w.queues k).queue = (w.queues k).queue ++ [] := (List.append_nil _).symm
  obtain ⟨owner',owned,loose⟩ := takeOff_owned h split
  obtain ⟨owned',apart⟩ := freeAll_spec owned loose (h.queueOnce k)
  rw [freeAll_setQueue] at owned' apart
  have same := (apart k).queue
  refine ⟨owned',?_,?_,(apart k).log,fun j other => (setQueue_apart w other []).trans (apart j)⟩
  · change (((List.foldl outputQueueFreeObuf w (w.queues k).queue).setQueue k []).queues k).queue = []
    rw [same]
    simp [World.setQueue]
  · change (((List.foldl outputQueueFreeObuf w (w.queues k).queue).setQueue k []).queues k).error = _
    rw [same]
    simp [World.setQueue]

/-- The first buffer after a completed request: nothing is in flight until it is posted again. -/
theorem advanceFirst_spec {size : Nat}
    {request : Posted α} (flows : Flows b w k []) (healthy : (w.queues k).error = 0)
    (flight : (w.wire k).inFlight = some request) (within : size ≤ request.bytes.length) :
    let next := advanceFirst (w.record k (.completed size)) k size
    (∃ owner', Owned next owner') ∧ Filled b next k [] ∧ (next.wire k).inFlight = none ∧
      (next.queues k).error = 0 ∧ ∀ j, j ≠ k → Apart w next j := by
  obtain ⟨⟨accepted,pending,bounds,waiting,failed,stopped⟩,posted⟩ := flows
  obtain ⟨one,first,request_⟩ := Option.map_eq_some_iff.mp (posted.symm.trans flight)
  obtain ⟨ids,queue⟩ := List.head?_eq_some_iff.mp first
  subst request_
  have within : size ≤ (w.heap one).range.length := within
  have order := (bounds one (by simp [queue])).1
  have mine : owner one = some (.queue k) := (h.queue k one).mp (by simp [queue])
  have once := h.queueOnce k
  rw [queue] at once
  obtain ⟨absent,_⟩ := List.nodup_cons.mp once
  let noted := w.record k (.completed size)
  have seen : noted.wire k = (w.wire k).next (.completed size) := record_wire ..
  have accepted' : (wire α).Accepts .idle (noted.log k) := record_accepted accepted ⟨_,flight,within⟩
  have range : (w.heap one).range.length = (w.heap one).bufLen - (w.heap one).bufPos := block_length ..
  have first_ : (noted.queues k).first = one := by
    change (w.queues k).first = one
    simp [Queue.first,queue]
  let moved := noted.setBuf one { w.heap one with bufPos := (w.heap one).bufPos + size }
  have apart : ∀ j, j ≠ k → Apart w moved j := fun j other =>
    (record_apart w other _).trans (setBuf_apart (record_owned h ..) (by simp [mine,Ne.symm other]) _)
  have tail : ∀ other ∈ ids, moved.heap other = w.heap other := by
    intro other member
    have differs : other ≠ one := fun same => absent (same ▸ member)
    simp [moved,noted,World.setBuf,World.record,differs]
  have here : moved.heap one = { w.heap one with bufPos := (w.heap one).bufPos + size } := by
    simp [moved,World.setBuf]
  have left : ((w.wire k).next (.completed size)).pending =
      (w.heap one).range.drop size ++ w.ranges ids := by
    change (w.wire k).pending.drop size = _
    rw [pending,queue,ranges_cons,List.append_nil,List.drop_append_of_le_length within]
  by_cases more : (w.heap one).bufPos + size < (w.heap one).bufLen
  · have kept : advanceFirst noted k size = moved := by
      rw [advanceFirst,first_]
      exact if_pos more
    rw [kept]
    have dropped : (moved.heap one).range = (w.heap one).range.drop size := by
      rw [here]
      simp only [OutputBuffer.range]
      rw [block_drop _ _ _ _ (by omega),Nat.sub_sub]
    refine ⟨⟨owner,setBuf_owned (record_owned h ..) ..⟩,⟨accepted',?_,?_,?_,?_,stopped⟩,?_,healthy,apart⟩
    · change (noted.wire k).pending = moved.ranges (w.queues k).queue ++ []
      rw [seen,left,queue,ranges_cons,dropped,ranges_congr tail,List.append_nil]
    · intro other member
      have bound := bounds other member
      by_cases same : other = one
      · subst same
        rw [here]
        exact ⟨Nat.le_of_lt more,bound.2⟩
      · have differs : moved.heap other = w.heap other := by simp [moved,noted,World.setBuf,World.record,same]
        rw [differs]
        exact bound
    · intro other member
      have member' : other ∈ (w.queues k).queue.tail := member
      rw [tail other (by simpa [queue] using member')]
      exact waiting other member'
    · change (noted.wire k).failed = true ↔ _
      rw [seen]
      exact failed
    · change (noted.wire k).inFlight = none
      rw [seen]
      rfl
  · have kept : advanceFirst noted k size = outputQueueFreeObuf (moved.setQueue k ids) one := by
      rw [advanceFirst,first_]
      refine (if_neg more).trans ?_
      change outputQueueFreeObuf (moved.setQueue k (w.queues k).queue.tail) one = _
      rw [queue]
      rfl
    rw [kept]
    have split : (moved.queues k).queue = [one] ++ ids := queue
    obtain ⟨owner',owned,loose⟩ := takeOff_owned (setBuf_owned (record_owned h ..) ..) split
    obtain ⟨⟨owner₂,owned₂,_⟩,_,freed⟩ := free_spec owned (loose one (by simp))
    let off := moved.setQueue k ids
    have queue' : (off.queues k).queue = ids := by simp [off,World.setQueue]
    have error' : (off.queues k).error = 0 := by
      simp only [off,World.setQueue,Function.update_self]
      exact healthy
    have all : (w.heap one).range.drop size = [] := List.drop_eq_nil_of_le (by omega)
    have filled : Filled b off k [] := by
      refine ⟨accepted',?_,?_,?_,?_,fun bad => absurd error' bad⟩
      · change (noted.wire k).pending = moved.ranges (off.queues k).queue ++ []
        rw [seen,left,queue',all,ranges_congr tail,List.nil_append,List.append_nil]
      · intro other member
        rw [queue'] at member
        change (moved.heap other).bufPos ≤ (moved.heap other).bufLen ∧ (moved.heap other).bufLen ≤ _
        rw [tail other member]
        exact bounds other (by simp [queue,member])
      · intro other member
        rw [queue'] at member
        change (moved.heap other).bufPos = 0
        rw [tail other (List.mem_of_mem_tail member)]
        exact waiting other (by simp [queue,List.mem_of_mem_tail member])
      · change (noted.wire k).failed = true ↔ _
        rw [seen,error']
        exact failed.trans (by rw [healthy])
    have idle : (off.wire k).inFlight = none := by
      change (noted.wire k).inFlight = none
      rw [seen]
      rfl
    have same := freed k
    refine ⟨⟨owner₂,owned₂⟩,filled.apart same,?_,?_,fun j other =>
      ((apart j other).trans (setQueue_apart moved other ids)).trans (freed j)⟩
    · rw [World.wire,same.log]
      exact idle
    · rw [same.queue]
      exact error'

/-- The queue after a completed request goes on with its first buffer. -/
theorem outputQueueDone_spec {size : Nat}
    {error : Int} {request : Posted α} (flows : Flows b w k [])
    (flight : (w.wire k).inFlight = some request) (within : error = 0 → size ≤ request.bytes.length) :
    ∃ next, outputQueueDone (w.record k (if error ≠ 0 then .failed else .completed size)) k error size = .ok next ∧
      (∃ owner', Owned next owner') ∧ Flows b next k [] ∧ ∀ j, j ≠ k → Apart w next j := by
  have healthy : (w.queues k).error = 0 := by
    by_contra bad
    have posted := flows.flight
    rw [flight,World.request,flows.filled.stopped bad] at posted
    cases posted
  by_cases fails : error ≠ 0
  · let noted := w.record k (.failed : Entry α)
    let marked : World α := { noted with queues := Function.update noted.queues k { noted.queues k with error } }
    have sameQueue : ∀ j, (marked.queues j).queue = (w.queues j).queue := by
      intro j
      by_cases here : j = k
      · subst here
        simp [marked,noted,World.record]
      · simp [marked,noted,World.record,here]
    have owned : Owned marked owner := by
      refine ⟨h.pool,h.held,?_,h.poolOnce,h.heldOnce,?_,h.fresh⟩
      · intro j id
        rw [sameQueue]
        exact h.queue j id
      · intro j
        rw [sameQueue]
        exact h.queueOnce j
    obtain ⟨owned',queue,error',log,apart⟩ := outputQueueClear_spec (k := k) owned
    have seen : (outputQueueClear marked k).wire k = (w.wire k).next .failed := by
      rw [World.wire,log]
      exact record_wire w k .failed
    have error_ : ((outputQueueClear marked k).queues k).error = error := by
      rw [error']
      simp [marked]
    refine ⟨outputQueueClear marked k,?_,owned',⟨⟨?_,?_,?_,?_,?_,fun _ => queue⟩,?_⟩,fun j other => ?_⟩
    · have open_ : ((w.record k (if error ≠ 0 then Entry.failed else .completed size)).queues k).error = 0 := healthy
      rw [outputQueueDone,require_true open_,Code.ok_bind,if_pos fails,if_pos fails]
      change Except.ok (postFirst (outputQueueClear marked k) k) = _
      rw [postFirst,if_pos queue]
    · rw [log]
      exact record_accepted flows.filled.accepted (by
        change (w.wire k).inFlight ≠ none
        rw [flight]
        nofun)
    · rw [seen,queue]
      rfl
    · simp [queue]
    · simp [queue]
    · rw [seen,error_]
      simp [Wire.next,fails]
    · rw [seen,World.request,queue]
      rfl
    · have marked_ : Apart w marked j := ⟨by simp [marked,noted,World.record,other],by
        simp [marked,noted,World.record,other],fun _ _ => rfl⟩
      exact marked_.trans (apart j other)
  · have zero : error = 0 := by simpa using fails
    obtain ⟨⟨owner',owned⟩,filled,idle,healthy',apart⟩ :=
      advanceFirst_spec h flows healthy flight (within zero)
    let next := advanceFirst (w.record k (.completed size)) k size
    have open_ : ((w.record k (Entry.completed size)).queues k).error = 0 := healthy
    refine ⟨postFirst next k,?_,?_⟩
    · rw [outputQueueDone,if_neg fails,require_true open_,Code.ok_bind,if_neg fails]
      rfl
    · unfold postFirst
      split
      next empty =>
        refine ⟨⟨owner',owned⟩,⟨filled,?_⟩,apart⟩
        rw [idle,World.request,empty]
        rfl
      next some_ =>
        obtain ⟨one,ids,queue⟩ := List.exists_cons_of_ne_nil some_
        have head : (next.queues k).queue.head? = some (next.queues k).first := by simp [Queue.first,queue]
        exact ⟨⟨owner',record_owned owned ..⟩,post_spec filled healthy' head idle,
          fun j other => (apart j other).trans (record_apart next other _)⟩

end

/-- Bytes that a healthy queue is to deliver. -/
theorem noteAdded_spec (flows : Flows b w k [])
    (healthy : (w.queues k).error = 0) (bytes : List α) :
    w.noteAdded k bytes = w.record k (.added bytes) ∧ Flows b (w.noteAdded k bytes) k bytes := by
  have noted : w.noteAdded k bytes = w.record k (.added bytes) := if_pos healthy
  obtain ⟨⟨accepted,pending,bounds,waiting,failed,stopped⟩,flight⟩ := flows
  have open_ : (w.wire k).failed = false := by
    have not_failed := mt failed.mp (by simp [healthy])
    simpa using not_failed
  refine ⟨noted,?_⟩
  rw [noted]
  refine ⟨⟨record_accepted accepted open_,?_,bounds,waiting,?_,stopped⟩,?_⟩
  · rw [record_wire]
    change (w.wire k).pending ++ bytes = _
    rw [pending,List.append_nil]
    rfl
  · rw [record_wire]
    exact failed
  · rw [record_wire]
    exact flight

/-- The state between the calls. -/
def Sound (b : Build) (w : World α) : Prop := ∃ owner, Owned w owner ∧ ∀ k, Flows b w k []

theorem Sound.of_apart
    (owned : Owned next owner) (flows : ∀ j, Flows b w j []) (here : Flows b next k [])
    (apart : ∀ j, j ≠ k → Apart w next j) : Sound b next := by
  refine ⟨owner,owned,fun j => ?_⟩
  by_cases same : j = k
  · exact same ▸ here
  · exact (flows j).apart (apart j same)

/-- A buffer that a channel gives away. -/
theorem giveAway (h : Owned w owner) (held : id ∈ w.held) :
    ∃ owner', Owned { w with held := w.held.erase id } owner' ∧ Loose { w with held := w.held.erase id } owner' id := by
  have mine := (h.held id).mp held
  have known : id < w.fresh := by
    by_contra out
    have none_ := h.fresh id (Nat.not_lt.mp out)
    rw [mine] at none_
    cases none_
  refine ⟨_,h.move id none ?_ ?_ ?_ ?_ h.poolOnce (h.heldOnce.erase id) h.queueOnce (Nat.le_refl _) known,
    by simp,known⟩
  · intro other apart
    exact ⟨Iff.rfl,List.mem_erase_of_ne apart,fun _ => Iff.rfl⟩
  · simp [h.pool,mine]
  · simpa using h.heldOnce.not_mem_erase
  · simp [h.queue,mine]

theorem step_sound [Inhabited α] (h : Sound b w) {e : Event α}
    (can : Enabled b w e) (healthy : Healthy w e) : ∃ next, w.step b e = .ok next ∧ Sound b next := by
  obtain ⟨owner,owned,flows⟩ := h
  cases e with
  | alloc =>
    obtain ⟨owner',owned',loose,apart⟩ := alloc_spec owned
    obtain ⟨pool,held,queue⟩ := loose.absent owned'
    let made := outputQueueAllocObuf w
    let next : World α := { made.1 with held := made.1.held ++ [made.2] }
    have owned₂ : Owned next (Function.update owner' made.2 (some .held)) := by
      apply owned'.move made.2 (some .held)
      · intro other differs
        refine ⟨Iff.rfl,?_,fun _ => Iff.rfl⟩
        have differs : other ≠ (outputQueueAllocObuf w).2 := differs
        simp [next,made,differs]
      · simpa [next] using pool
      · simp [next]
      · simpa [next] using queue
      · exact owned'.poolOnce
      · exact nodup_last held owned'.heldOnce
      · exact owned'.queueOnce
      · exact Nat.le_refl _
      · exact loose.2
    exact ⟨next,rfl,_,owned₂,fun j => (flows j).apart ⟨(apart j).queue,(apart j).log,(apart j).heap⟩⟩
  | fill id data =>
    have mine := (owned.held id).mp can.1
    exact ⟨_,rfl,owner,setBuf_owned owned ..,fun j => (flows j).apart (setBuf_apart owned (by simp [mine]) _)⟩
  | release id =>
    obtain ⟨owner',owned',loose⟩ := giveAway owned can
    obtain ⟨⟨owner₂,owned₂,_⟩,_,apart⟩ := free_spec owned' loose
    refine ⟨_,rfl,owner₂,owned₂,fun j => ?_⟩
    have moved : Apart w { w with held := w.held.erase id } j := ⟨rfl,rfl,fun _ _ => rfl⟩
    exact (flows j).apart (moved.trans (apart j))
  | add k data =>
    by_cases open_ : (w.queues k).error = 0
    · obtain ⟨noted,flows'⟩ := noteAdded_spec (flows k) open_ data
      have owned' : Owned (w.noteAdded k data) owner := noted ▸ record_owned owned ..
      have open' : ((w.noteAdded k data).queues k).error = 0 := by rw [noted]; exact open_
      obtain ⟨next,owner₂,run,owned₂,flows₂,apart⟩ := outputQueueAdd_spec owned' open' flows'
      refine ⟨next,run,.of_apart owned₂ flows flows₂ fun j other => ?_⟩
      rw [noted] at apart
      exact (record_apart w other _).trans (apart j other)
    · have same : w.noteAdded k data = w := if_neg open_
      refine ⟨w,?_,owner,owned,flows⟩
      change outputQueueAdd b (w.noteAdded k data) k data = _
      rw [same,outputQueueAdd,if_pos open_]
      rfl
  | addObuf k id =>
    obtain ⟨owner',owned',loose⟩ := giveAway owned can.1
    let given : World α := { w with held := w.held.erase id }
    let bytes := block (w.heap id).buf 0 (w.heap id).bufLen
    have apart' : ∀ j, Apart w given j := fun j => ⟨rfl,rfl,fun _ _ => rfl⟩
    obtain ⟨noted,flows'⟩ := noteAdded_spec ((flows k).apart (apart' k)) healthy bytes
    have owned₁ : Owned (given.noteAdded k bytes) owner' := noted ▸ record_owned owned' ..
    have open' : ((given.noteAdded k bytes).queues k).error = 0 := by rw [noted]; exact healthy
    have loose' : Loose (given.noteAdded k bytes) owner' id := by rw [noted]; exact loose
    have heap : (given.noteAdded k bytes).heap id = w.heap id := by rw [noted]; rfl
    obtain ⟨next,owner₂,run,owned₂,flows₂,apart⟩ := outputQueueAddObuf_spec owned₁ loose' (by rw [heap]; exact can.2)
      open' (by rw [heap]; exact flows')
    refine ⟨next,run,.of_apart owned₂ flows flows₂ fun j other => ?_⟩
    rw [noted] at apart
    exact ((apart' j).trans (record_apart given other _)).trans (apart j other)
  | done k error size =>
    have can : Completes w k error size := can
    cases flight : (w.wire k).inFlight with
    | none => simp [Completes,flight] at can
    | some request =>
      simp only [Completes,flight] at can
      obtain ⟨next,run,⟨owner',owned'⟩,flows',apart⟩ := outputQueueDone_spec owned (flows k) flight can
      exact ⟨next,run,.of_apart owned' flows flows' apart⟩

theorem start_sound [Inhabited α] (b : Build) : Sound b (World.start : World α) := by
  refine ⟨fun _ => none,⟨?_,?_,?_,List.nodup_nil,List.nodup_nil,fun _ => List.nodup_nil,fun _ _ => rfl⟩,fun k => ?_⟩
  · simp [World.start]
  · simp [World.start]
  · simp [World.start]
  · exact ⟨⟨trivial,rfl,by simp [World.start],by simp [World.start],by simp [World.start,World.wire,Wire.idle],
      fun _ => rfl⟩,rfl⟩

/-- A request in flight is for bytes that wait. -/
def Wire.Good (s : Wire α) : Prop := ∀ request, s.inFlight = some request → request.bytes <+: s.pending

/-- After an error nothing happens any more. -/
theorem failed_last {s : Wire α} {log : List (Entry α)} (failed : s.failed = true) (idle : s.inFlight = none)
    (accepted : (wire α).Accepts s log) : log = [] := by
  cases log with
  | nil => rfl
  | cons e rest =>
    have allowed : s.allows e := accepted.1
    cases e with
    | added bytes => simp [Wire.allows,failed] at allowed
    | posted request => simp [Wire.allows,failed] at allowed
    | completed size => simp [Wire.allows,idle] at allowed
    | failed => simp [Wire.allows,idle] at allowed

/-- What went out and what waits, in order, is what was added. -/
theorem wire_conserves {s : Wire α} {log : List (Entry α)} (good : s.Good) (accepted : (wire α).Accepts s log) :
    ((wire α).after s log).sent <+: s.sent ++ s.pending ++ added log ∧
      (((wire α).after s log).failed = false →
        ((wire α).after s log).sent ++ ((wire α).after s log).pending = s.sent ++ s.pending ++ added log) := by
  induction log generalizing s with
  | nil =>
    rw [added,List.flatMap_nil,List.append_nil]
    exact ⟨List.prefix_append ..,fun _ => rfl⟩
  | cons e rest ih =>
    obtain ⟨allowed,accepted⟩ := accepted
    rw [Monitor.after_cons]
    cases e with
    | added bytes =>
      have good' : (s.next (.added bytes)).Good := fun request flight =>
        (good request flight).trans (List.prefix_append ..)
      have whole : s.sent ++ s.pending ++ added (.added bytes :: rest) =
          (s.next (.added bytes)).sent ++ (s.next (.added bytes)).pending ++ added rest := by
        simp [added,Wire.next]
      rw [whole]
      exact ih good' accepted
    | posted request =>
      have good' : (s.next (.posted request)).Good := by
        rintro _ ⟨⟩
        exact allowed.2.2
      exact ih good' accepted
    | completed size =>
      obtain ⟨request,flight,within⟩ := allowed
      have good' : (s.next (.completed size)).Good := nofun
      obtain ⟨more,split⟩ := good request flight
      have whole : s.sent ++ s.pending = (s.next (.completed size)).sent ++ (s.next (.completed size)).pending := by
        have taken : request.bytes.take size = s.pending.take size := by
          rw [← split,List.take_append_of_le_length within]
        simp [Wire.next,flight,taken]
      have same : added (.completed size :: rest) = added rest := rfl
      rw [whole,same]
      exact ih good' accepted
    | failed =>
      have none_ : rest = [] := failed_last rfl rfl accepted
      subst none_
      refine ⟨?_,nofun⟩
      rw [List.append_assoc]
      exact List.prefix_append ..

/-- What a queue's log says: every request in flight is the first buffer, unchanged since it was
posted; the bytes that went out are the first of those added, and the buffers hold the others;
an error leaves nothing. -/
structure Lossless (w : World α) (k : Nat) : Prop where
  accepted : (wire α).Accepts .idle (w.log k)
  flight : (w.wire k).inFlight = w.request k
  inOrder : (w.wire k).sent <+: added (w.log k)
  conserved : (w.queues k).error = 0 → (w.wire k).sent ++ w.ranges (w.queues k).queue = added (w.log k)
  stopped : (w.queues k).error ≠ 0 → (w.queues k).queue = [] ∧ (w.wire k).inFlight = none

theorem Flows.lossless (h : Flows b w k []) : Lossless w k := by
  obtain ⟨⟨accepted,pending,_,_,failed,stopped⟩,flight⟩ := h
  have good : (Wire.idle : Wire α).Good := nofun
  obtain ⟨inOrder,conserved⟩ := wire_conserves good accepted
  refine ⟨accepted,flight,inOrder,fun healthy => ?_,fun bad => ⟨stopped bad,?_⟩⟩
  · have open_ : (w.wire k).failed = false := by
      have not_failed := mt failed.mp (by simp [healthy])
      simpa using not_failed
    rw [List.append_nil] at pending
    rw [← pending]
    exact conserved open_
  · rw [flight,World.request,stopped bad]
    rfl

/-- As long as no buffer is added to a queue that failed, the queues are lossless and no
assertion fails. -/
theorem exec_lossless [Inhabited α] (b : Build) (events : List (Event α))
    (meets : (process α b).Meets Healthy .start events) :
    (process α b).exec .start events ≠ .error .assertion ∧
      ∀ final, (process α b).exec .start events = .ok final → ∀ k, Lossless final k := by
  have preserved : ∀ (w : World α) e next, Sound b w → (process α b).enabled w e → Healthy w e →
      (process α b).step w e = .ok next → Sound b next := by
    intro w e next sound can healthy step
    obtain ⟨next',step',sound'⟩ := step_sound sound can healthy
    cases step.symm.trans step'
    exact sound'
  refine ⟨(process α b).exec_safe (Sound b) preserved ?_ (start_sound b) meets,fun final run k => ?_⟩
  · intro w e sound can healthy stopped
    obtain ⟨next,step,_⟩ := step_sound sound can healthy
    cases stopped.symm.trans step
  · obtain ⟨_,_,flows⟩ := (process α b).exec_invariant (Sound b) preserved (start_sound b) run meets
    exact (flows k).lossless

/-- Partial writes, a merge into the last buffer, two queues and an error. -/
theorem lossless_two_queues :
    (process Nat ⟨2,by decide⟩).exec .start
        [.add 0 [1,2,3],.alloc,.fill 2 [4],.addObuf 0 2,.done 0 0 1,.done 0 0 0,.add 1 [9],.done 0 0 1,.done 1 5 0,
          .add 1 [8]] ≠ .error .assertion ∧
      ∀ final, (process Nat ⟨2,by decide⟩).exec .start
        [.add 0 [1,2,3],.alloc,.fill 2 [4],.addObuf 0 2,.done 0 0 1,.done 0 0 0,.add 1 [9],.done 0 0 1,.done 1 5 0,
          .add 1 [8]] = .ok final → ∀ k, Lossless final k :=
  exec_lossless ⟨2,by decide⟩ _ (by decide +kernel)

/-- A buffer added after an error is posted. -/
theorem posts_after_error :
    ∃ final, (process Nat ⟨2,by decide⟩).exec .start
        [.alloc,.add 0 [7],.done 0 5 0,.fill 0 [8],.addObuf 0 0] = .ok final ∧
      final.log 0 = [.added [7],.posted ⟨1,0,[7]⟩,.failed,.posted ⟨0,0,[8]⟩] := by
  decide +kernel

end Tcf.OutputQueue
