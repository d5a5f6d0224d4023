import Tcf.MemoryCache
import Mathlib.Data.List.Nodup

/-! Where the flushes find every block with bytes, no byte that a client gets came before the last
event for its memory space, and every block is freed once, with its clients notified. -/
namespace Tcf.MemoryCache

variable {w : World} {s t : State}

/-- Blocks are on the list of their context until they are disposed, and freed once, when they wait for no reply. -/
structure Books (w : World) (s : State) : Prop where
  nodup : ∀ c, (s.lists c).Nodup
  member : ∀ c m, m ∈ s.lists c ↔ m < s.next ∧ (s.heap m).ctx = c ∧ (s.heap m).disposed = false
  once : s.freed.Nodup
  freed : ∀ m ∈ s.freed, m < s.next ∧ (s.heap m).disposed = true ∧ (s.heap m).pending = false
  clients : ∀ m < s.next, (s.heap m).joined = (s.heap m).notified ++ (s.heap m).waiting ∧
    ((s.heap m).pending = false → (s.heap m).waiting = [])
  blank : ∀ m < s.next, (s.heap m).pending = true → (s.heap m).error = false ∧ (s.heap m).errorsAddress = []
  size : ∀ m < s.next, (s.heap m).buf.length = (s.heap m).size ∧ (s.heap m).size < 2^64
  home : ∀ m < s.next, (s.heap m).ctx ∈ w.root

/-- A disposed block that waits for no reply was freed. -/
def Settled (s : State) (m : Nat) : Prop := (s.heap m).disposed = true → (s.heap m).pending = false → m ∈ s.freed

/-- The block off its list, and freed unless it waits. -/
def State.dispose (s : State) (m : Nat) : State :=
  { s with
    heap := Function.update s.heap m { s.heap m with disposed := true }
    lists := Function.update s.lists (s.heap m).ctx ((s.lists (s.heap m).ctx).erase m)
    freed := if (s.heap m).pending then s.freed else s.freed ++ [m] }

theorem freeMemoryCache_eq {m : Nat} (kept : m ∉ s.freed) (idle : (s.heap m).pending = false → (s.heap m).waiting = []) :
    freeMemoryCache s m = .ok (s.dispose m) := by
  unfold freeMemoryCache State.dispose State.setBlock
  cases pending : (s.heap m).pending with
  | true => simp [kept,pending]
  | false => simp [kept,pending,idle pending]

/-- Blocks are only taken away. -/
structure Trimmed (s t : State) : Prop where
  heap : ∀ m, ∃ disposed, t.heap m = { s.heap m with disposed }
  lists : ∀ c m, m ∈ t.lists c → m ∈ s.lists c
  rest : ∃ lists heap freed, t = { s with lists, heap, freed }

theorem Trimmed.refl (s : State) : Trimmed s s := ⟨fun m => ⟨(s.heap m).disposed,rfl⟩,fun _ _ h => h,⟨_,_,_,rfl⟩⟩

theorem Trimmed.trans {u : State} (first : Trimmed s t) (second : Trimmed t u) : Trimmed s u := by
  refine ⟨fun m => ?_,fun c m h => first.lists c m (second.lists c m h),?_⟩
  · obtain ⟨d,one⟩ := first.heap m
    obtain ⟨d',two⟩ := second.heap m
    exact ⟨d',by rw [two,one]⟩
  · obtain ⟨_,_,_,rfl⟩ := first.rest
    obtain ⟨_,_,_,rfl⟩ := second.rest
    exact ⟨_,_,_,rfl⟩

theorem Trimmed.pending (trimmed : Trimmed s t) (m : Nat) : (t.heap m).pending = (s.heap m).pending := by
  obtain ⟨d,eq⟩ := trimmed.heap m
  rw [eq]

theorem dispose_trimmed (s : State) (m : Nat) : Trimmed s (s.dispose m) := by
  refine ⟨fun k => ?_,fun c k h => ?_,⟨_,_,_,rfl⟩⟩
  · by_cases same : k = m
    · subst same
      exact ⟨true,by simp [State.dispose]⟩
    · exact ⟨(s.heap k).disposed,by simp [State.dispose,same]⟩
  · by_cases same : c = (s.heap m).ctx
    · subst same
      simp only [State.dispose,Function.update_self] at h
      exact List.mem_of_mem_erase h
    · simpa [State.dispose,same] using h

theorem dispose_settled {m k : Nat} (settled : k ≠ m → Settled s k) : Settled (s.dispose m) k := by
  intro disposed pending
  by_cases same : k = m
  · subst same
    simp only [State.dispose,Function.update_self] at pending ⊢
    simp [pending]
  · simp only [State.dispose,Function.update_of_ne same] at disposed pending ⊢
    have member := settled same disposed pending
    split
    · exact member
    · exact List.mem_append_left _ member

theorem dispose_books {m : Nat} (books : Books w s) (live : m < s.next) (kept : m ∉ s.freed) : Books w (s.dispose m) := by
  have trimmed := dispose_trimmed s m
  constructor
  · intro c
    by_cases same : c = (s.heap m).ctx
    · subst same
      simpa [State.dispose] using (books.nodup _).erase m
    · simpa [State.dispose,same] using books.nodup c
  · intro c k
    have old := books.member c k
    by_cases same : k = m
    · subst same
      have gone : k ∉ (s.dispose k).lists c := by
        by_cases here : c = (s.heap k).ctx
        · subst here
          simpa [State.dispose] using (books.nodup _).not_mem_erase
        · simpa [State.dispose,here,old] using fun _ eq => absurd eq.symm here
      constructor
      · exact fun h => absurd h gone
      · rintro ⟨_,_,disposed⟩
        simp [State.dispose] at disposed
    · have stays : k ∈ (s.dispose m).lists c ↔ k ∈ s.lists c := by
        by_cases here : c = (s.heap m).ctx
        · subst here
          simpa [State.dispose] using List.mem_erase_of_ne same
        · simp [State.dispose,here]
      rw [stays,old]
      simp [State.dispose,same]
  · simp only [State.dispose]
    split
    · exact books.once
    · simpa using List.Nodup.concat kept books.once
  · intro k h
    by_cases same : k = m
    · subst same
      have pending : (s.heap k).pending = false := by
        cases pending : (s.heap k).pending with
        | false => rfl
        | true => simp [State.dispose,pending,kept] at h
      simp [State.dispose,live,pending]
    · have old : k ∈ s.freed := by
        simp only [State.dispose] at h
        split at h
        · exact h
        · simpa [same] using h
      simpa [State.dispose,same] using books.freed k old
  · intro k h
    obtain ⟨d,eq⟩ := trimmed.heap k
    rw [eq]
    exact books.clients k h
  · intro k h
    obtain ⟨d,eq⟩ := trimmed.heap k
    rw [eq]
    exact books.blank k h
  · intro k h
    obtain ⟨d,eq⟩ := trimmed.heap k
    rw [eq]
    exact books.size k h
  · intro k h
    obtain ⟨d,eq⟩ := trimmed.heap k
    rw [eq]
    exact books.home k h

/-- A block on a list can be freed. -/
theorem free_listed {c m : Nat} (books : Books w s) (listed : m ∈ s.lists c) :
    freeMemoryCache s m = .ok (s.dispose m) ∧ Books w (s.dispose m) := by
  obtain ⟨live,_,disposed⟩ := (books.member c m).mp listed
  have kept : m ∉ s.freed := by
    intro freed
    have gone := (books.freed m freed).2.1
    rw [disposed] at gone
    cases gone
  exact ⟨freeMemoryCache_eq kept (books.clients m live).2,dispose_books books live kept⟩

/-- A list whose head waits for a reply stays as it is. -/
theorem flushLoop_waiting {ctx m : Nat} {rest : List Nat} (head : s.lists ctx = m :: rest)
    (pending : (s.heap m).pending = true) (l : List Nat) : flushLoop false ctx l s = .ok s := by
  induction l with
  | nil => rfl
  | cons _ l ih =>
    rw [flushLoop,head]
    simpa [pending] using ih

/-- What a flush leaves on a list. -/
def leaves (pendingToo : Bool) (s : State) (list : List Nat) : List Nat :=
  if pendingToo then [] else list.dropWhile fun m => !(s.heap m).pending

/-- The loop frees blocks up to the first one that it is to leave. -/
theorem flushLoop_spec {ctx : Nat} (pendingToo : Bool) (l : List Nat) (books : Books w s) (settled : ∀ m, Settled s m)
    (whole : s.lists ctx = l) :
    ∃ t, flushLoop pendingToo ctx l s = .ok t ∧ Books w t ∧ (∀ m, Settled t m) ∧ Trimmed s t ∧
      t.lists ctx = leaves pendingToo s l ∧ ∀ c, c ≠ ctx → t.lists c = s.lists c := by
  induction l generalizing s with
  | nil => exact ⟨s,rfl,books,settled,.refl s,by cases pendingToo <;> simp [leaves,whole],fun _ _ => rfl⟩
  | cons m l ih =>
    have listed : m ∈ s.lists ctx := by simp [whole]
    have home := ((books.member ctx m).mp listed).2.1
    by_cases goes : (pendingToo || !(s.heap m).pending) = true
    · obtain ⟨run,books'⟩ := free_listed books listed
      have rest : (s.dispose m).lists ctx = l := by simp [State.dispose,home,whole]
      obtain ⟨t,run',booksT,settledT,trimmed,left,others⟩ := ih books' (fun k => dispose_settled fun _ => settled k) rest
      have first := dispose_trimmed s m
      refine ⟨t,?_,booksT,settledT,first.trans trimmed,?_,fun c other => ?_⟩
      · rw [flushLoop,whole]
        simp only [if_pos goes,run,Code.ok_bind]
        exact run'
      · have same : leaves pendingToo (s.dispose m) l = leaves pendingToo s l := by
          simp only [leaves,first.pending]
        rw [left,same]
        cases pendingToo with
        | true => rfl
        | false =>
          have filled : (s.heap m).pending = false := by simpa using goes
          simp [leaves,filled]
      · rw [others c other]
        simp [State.dispose,home,other]
    · have stays : pendingToo = false ∧ (s.heap m).pending = true := by simpa using goes
      obtain ⟨rfl,pending⟩ := stays
      exact ⟨s,flushLoop_waiting whole pending _,books,settled,.refl s,by simp [leaves,whole,pending],fun _ _ => rfl⟩

/-- A flush of contexts: from each list goes what the loop frees. -/
theorem flushAll_spec (pendingToo : Bool) (contexts : List Nat) (books : Books w s) (settled : ∀ m, Settled s m) :
    ∃ t, contexts.foldlM (fun s ctx => flushLoop pendingToo ctx (s.lists ctx) s) s = .ok t ∧ Books w t ∧
      (∀ m, Settled t m) ∧ Trimmed s t ∧
      ∀ ctx ∈ contexts, ∀ m ∈ t.lists ctx, m ∈ leaves pendingToo s (s.lists ctx) := by
  induction contexts generalizing s with
  | nil => exact ⟨s,rfl,books,settled,.refl s,nofun⟩
  | cons ctx contexts ih =>
    obtain ⟨u,run,booksU,settledU,trimmedU,left,others⟩ := flushLoop_spec pendingToo (s.lists ctx) books settled rfl
    obtain ⟨t,run',booksT,settledT,trimmedT,all⟩ := ih booksU settledU
    refine ⟨t,?_,booksT,settledT,trimmedU.trans trimmedT,?_⟩
    · rw [List.foldlM_cons,run]
      exact run'
    · intro c member m listed
      have here := trimmedT.lists c m listed
      by_cases same : c = ctx
      · subst same
        exact left ▸ here
      · have later := all c ((List.mem_cons.mp member).resolve_left same) m listed
        rw [others c same] at later
        simpa only [leaves,trimmedU.pending] using later

theorem flushSpace_spec (pendingToo : Bool) (space : Nat) (books : Books w s) (settled : ∀ m, Settled s m) :
    ∃ t, flushSpace w pendingToo space s = .ok t ∧ Books w t ∧ (∀ m, Settled t m) ∧ Trimmed s t ∧
      ∀ ctx ∈ w.root, w.mem ctx = space → ∀ m ∈ t.lists ctx, m ∈ leaves pendingToo s (s.lists ctx) := by
  obtain ⟨t,run,books',settled',trimmed,left⟩ :=
    flushAll_spec pendingToo (w.root.filter fun ctx => w.mem ctx = space) books settled
  exact ⟨t,run,books',settled',trimmed,fun ctx member same => left ctx (List.mem_filter.mpr ⟨member,by simpa using same⟩)⟩

/-! Freshness. -/

/-- The bytes of a block up to n are younger than a time, and these are all that clients may get. -/
def FreshBlock (time : Time) (b : Block) : Prop :=
  ∃ n, (∀ cell ∈ b.buf.take n, time < cell.2) ∧ (b.error = false → b.size ≤ n) ∧
    ∀ e ∈ b.errorsAddress, e.stat = 0 → e.addr.toNat + e.size.toNat ≤ b.addr.toNat + n

/-- What clients got and may get is fresh. -/
structure Live (w : World) (s : State) : Prop where
  none : s.rcDone = false → s.next = 0
  past : ∀ space, s.flushed space ≤ s.clock
  fresh : ∀ c m, m ∈ s.lists c → (s.heap m).pending = false → FreshBlock (s.flushed (w.mem c)) (s.heap m)
  returned : ∀ r ∈ s.returned, r.ok = true → ∀ cell ∈ r.bytes, r.flushed < cell.2

theorem Live.trim (live : Live w s) (trimmed : Trimmed s t) : Live w t := by
  have heap := trimmed.heap
  have lists := trimmed.lists
  obtain ⟨newLists,newHeap,freed,rfl⟩ := trimmed.rest
  refine ⟨live.none,live.past,fun c m listed filled => ?_,live.returned⟩
  obtain ⟨d,eq⟩ := heap m
  rw [eq] at filled ⊢
  exact live.fresh c m (lists c m listed) filled

structure Inv (w : World) (s : State) : Prop where
  books : Books w s
  settled : ∀ m, Settled s m
  live : Live w s

/-- An event for a memory space, after which no block with bytes is left there. -/
theorem flushed_inv {c : Nat} {intercepted : Nat → Bool} (inv : Inv w s)
    (trimmed : Trimmed { s with flushed := Function.update s.flushed (w.mem c) s.clock, intercepted } t)
    (books : Books w t) (settled : ∀ m, Settled t m)
    (gone : ∀ ctx ∈ w.root, w.mem ctx = w.mem c → ∀ m ∈ t.lists ctx, (t.heap m).pending = true) : Inv w t := by
  have heap := trimmed.heap
  have lists := trimmed.lists
  obtain ⟨newLists,newHeap,freed,rfl⟩ := trimmed.rest
  refine ⟨books,settled,inv.live.none,fun space => ?_,fun ctx m listed filled => ?_,inv.live.returned⟩
  · by_cases same : space = w.mem c
    · simp [same]
    · simpa [same] using inv.live.past space
  · obtain ⟨small,home,_⟩ := (books.member ctx m).mp listed
    have rooted := books.home m small
    rw [home] at rooted
    by_cases same : w.mem ctx = w.mem c
    · have waits := gone ctx rooted same m listed
      rw [filled] at waits
      cases waits
    · obtain ⟨d,eq⟩ := heap m
      dsimp only at eq filled ⊢
      rw [Function.update_of_ne same]
      rw [eq] at filled ⊢
      exact inv.live.fresh ctx m (lists ctx m listed) filled

theorem Books.keep (books : Books w s) (rcDone : Bool) (intercepted : Nat → Bool) (clock : Time) (flushed : Nat → Time)
    (returned : List Returned) : Books w { s with rcDone, intercepted, clock, flushed, returned } :=
  ⟨books.nodup,books.member,books.once,books.freed,books.clients,books.blank,books.size,books.home⟩

theorem suspend_inv {c : Nat} (inv : Inv w s) (flushes : Flushes w s c) : ∃ t, suspend w s c = .ok t ∧ Inv w t := by
  unfold suspend
  by_cases known : c ∈ w.root
  · have keep (intercepted) := inv.books.keep s.rcDone intercepted s.clock (Function.update s.flushed (w.mem c) s.clock) s.returned
    have empty (rcDone : s.rcDone = false) (ctx m : Nat) : m ∉ s.lists ctx := by
      intro listed
      have small := ((inv.books.member ctx m).mp listed).1
      rw [inv.live.none rcDone] at small
      exact absurd small (Nat.not_lt_zero m)
    have flushes := flushes known
    simp only [if_pos known]
    cases running : s.intercepted c with
    | true =>
      refine ⟨_,rfl,flushed_inv inv (.refl _) (keep s.intercepted) inv.settled fun ctx rooted same m listed => ?_⟩
      cases rcDone : s.rcDone with
      | false => exact absurd listed (empty rcDone ctx m)
      | true =>
        have waits := flushes rcDone ctx rooted same m
        rw [running,if_pos rfl] at waits
        exact waits listed
    | false =>
      simp only [onContextSuspended,Bool.false_eq_true,if_false]
      by_cases rcDone : s.rcDone = true
      · obtain ⟨t,run,books,settled,trimmed,left⟩ :=
          flushSpace_spec false (w.mem c) (keep (Function.update s.intercepted c true)) inv.settled
        refine ⟨t,by simpa only [if_pos rcDone] using run,flushed_inv inv trimmed books settled fun ctx rooted same m listed => ?_⟩
        have waits := flushes rcDone ctx rooted same m
        rw [running,if_neg (by decide)] at waits
        rw [trimmed.pending]
        exact waits (left ctx rooted same m listed)
      · simp only [if_neg rcDone,Code.pure_eq]
        exact ⟨_,rfl,flushed_inv inv (.refl _) (keep (Function.update s.intercepted c true)) inv.settled
          fun ctx rooted same m listed => absurd listed (empty (Bool.eq_false_iff.mpr rcDone) ctx m)⟩
  · exact ⟨s,by simp [known],inv⟩

theorem suspendAll_inv {ids : List Nat} (inv : Inv w s) (flushes : FlushAll w s ids) :
    ∃ t, ids.foldlM (suspend w) s = .ok t ∧ Inv w t := by
  induction ids generalizing s with
  | nil => exact ⟨s,rfl,inv⟩
  | cons c ids ih =>
    obtain ⟨next,run,inv'⟩ := suspend_inv inv flushes.1
    obtain ⟨t,run',final⟩ := ih inv' (flushes.2 next run)
    exact ⟨t,by rw [List.foldlM_cons,run]; exact run',final⟩

theorem memoryChanged_inv (c : Nat) (inv : Inv w s) : ∃ t, eventMemoryChanged w s c = .ok t ∧ Inv w t := by
  unfold eventMemoryChanged
  by_cases known : c ∈ w.root ∧ s.rcDone = true
  · obtain ⟨t,run,books,settled,trimmed,left⟩ := flushSpace_spec true (w.mem c)
      (inv.books.keep s.rcDone s.intercepted s.clock (Function.update s.flushed (w.mem c) s.clock) s.returned) inv.settled
    refine ⟨t,by simpa only [if_pos known] using run,flushed_inv inv trimmed books settled fun ctx rooted same m listed => ?_⟩
    exact absurd (left ctx rooted same m listed) List.not_mem_nil
  · exact ⟨s,by simp only [if_neg known,Code.pure_eq],inv⟩

/-- The block with the reply's bytes. -/
def answered (s : State) (m : Nat) (reply : Reply) : Block :=
  { s.heap m with
    pending := false
    buf := (reply.data.take (s.heap m).size).map (fun byte => (byte,s.clock)) ++
      (s.heap m).buf.drop (reply.data.take (s.heap m).size).length
    error := reply.error
    errorsAddress := reply.errorsAddress
    waiting := []
    notified := (s.heap m).notified ++ (s.heap m).waiting }

theorem answered_fresh {m : Nat} {reply : Reply} {time : Time} (length : (s.heap m).buf.length = (s.heap m).size)
    (complete : Complete (s.heap m) reply) (later : time < s.clock) : FreshBlock time (answered s m reply) := by
  refine ⟨reply.data.length,fun cell member => ?_,complete.1,complete.2⟩
  by_cases short : reply.data.length ≤ (s.heap m).size
  · have whole : reply.data.take (s.heap m).size = reply.data := List.take_of_length_le short
    have front : (answered s m reply).buf.take reply.data.length = reply.data.map fun byte => (byte,s.clock) := by
      simp only [answered,whole]
      exact List.take_left' (by simp)
    rw [front] at member
    obtain ⟨byte,_,rfl⟩ := List.mem_map.mp member
    exact later
  · have all : (answered s m reply).buf = (reply.data.take (s.heap m).size).map fun byte => (byte,s.clock) := by
      have none : (s.heap m).buf.drop (reply.data.take (s.heap m).size).length = [] := by
        rw [List.drop_eq_nil_iff,List.length_take]
        omega
      simp only [answered,none,List.append_nil]
    rw [all] at member
    obtain ⟨byte,_,rfl⟩ := List.mem_map.mp (List.mem_of_mem_take member)
    exact later

theorem validate_inv {m : Nat} {reply : Reply} (inv : Inv w s) (small : m < s.next) (pending : (s.heap m).pending = true)
    (complete : Complete (s.heap m) reply) (past : ∀ space, s.flushed space < s.clock) :
    ∃ t, validateMemoryCache s m reply = .ok t ∧ Inv w t := by
  obtain ⟨noError,noRanges⟩ := inv.books.blank m small pending
  obtain ⟨length,bound⟩ := inv.books.size m small
  have kept : m ∉ s.freed := by
    intro freed
    have done := (inv.books.freed m freed).2.2
    rw [pending] at done
    cases done
  let s' := s.setBlock m (answered s m reply)
  have at_m : s'.heap m = answered s m reply := by simp [s',State.setBlock]
  have other {k : Nat} (differs : k ≠ m) : s'.heap k = s.heap k := by simp [s',State.setBlock,differs]
  have fields (k : Nat) : (s'.heap k).ctx = (s.heap k).ctx ∧ (s'.heap k).disposed = (s.heap k).disposed ∧
      (s'.heap k).size = (s.heap k).size := by
    by_cases same : k = m
    · subst same
      rw [at_m]
      exact ⟨rfl,rfl,rfl⟩
    · rw [other same]
      exact ⟨rfl,rfl,rfl⟩
  have books : Books w s' := by
    refine ⟨inv.books.nodup,fun c k => ?_,inv.books.once,fun k freed => ?_,fun k h => ?_,fun k h waits => ?_,fun k h => ?_,fun k h => ?_⟩
    · rw [(fields k).1,(fields k).2.1]
      exact inv.books.member c k
    · rw [other (fun same => kept (same ▸ freed))]
      exact inv.books.freed k freed
    · by_cases same : k = m
      · subst same
        rw [at_m]
        exact ⟨by simpa [answered] using (inv.books.clients k h).1,fun _ => rfl⟩
      · rw [other same]
        exact inv.books.clients k h
    · by_cases same : k = m
      · subst same
        rw [at_m] at waits
        cases waits
      · rw [other same] at waits ⊢
        exact inv.books.blank k h waits
    · by_cases same : k = m
      · subst same
        rw [at_m]
        refine ⟨?_,bound⟩
        simp only [answered,List.length_append,List.length_map,List.length_drop,List.length_take,length]
        omega
      · rw [other same]
        exact inv.books.size k h
    · rw [(fields k).1]
      exact inv.books.home k h
  have settled {k : Nat} (differs : k ≠ m) : Settled s' k := by
    rw [Settled,other differs]
    exact inv.settled k
  have live : Live w s' := by
    refine ⟨inv.live.none,inv.live.past,fun c k listed filled => ?_,inv.live.returned⟩
    by_cases same : k = m
    · subst same
      rw [at_m]
      exact answered_fresh length complete (past _)
    · rw [other same] at filled ⊢
      exact inv.live.fresh c k listed filled
  have start : validateMemoryCache s m reply = if (s.heap m).disposed then freeMemoryCache s' m else pure s' := by
    simp only [validateMemoryCache,pending,noError,noRanges,require_trivial,Code.ok_bind]
    rfl
  rw [start]
  cases disposed : (s.heap m).disposed with
  | true =>
    have idle : (s'.heap m).pending = false → (s'.heap m).waiting = [] := by
      rw [at_m]
      exact fun _ => rfl
    exact ⟨_,freeMemoryCache_eq kept idle,dispose_books books small kept,fun k => dispose_settled settled,
      live.trim (dispose_trimmed s' m)⟩
  | false =>
    refine ⟨s',rfl,books,fun k => ?_,live⟩
    by_cases same : k = m
    · subst same
      intro gone
      rw [at_m] at gone
      exact absurd (disposed.symm.trans gone) (by decide)
    · exact settled same

/-- A range that does not reach the end of the address space lies in one that the code takes for it. -/
theorem inside_bound {address addr room : BitVec 64} {size : Nat} (low : address.toNat + size < 2^64)
    (within : inside address size addr room = true) :
    addr.toNat ≤ address.toNat ∧ address.toNat + size ≤ addr.toNat + room.toNat ∧
      (address - addr).toNat = address.toNat - addr.toNat := by
  simp only [inside,Bool.and_eq_true,decide_eq_true_eq,BitVec.le_def,BitVec.toNat_add,BitVec.toNat_ofNat] at within
  obtain ⟨above,below⟩ := within
  have wrapped : (addr.toNat + room.toNat) % 2^64 ≤ addr.toNat + room.toNat := Nat.mod_le _ _
  rw [Nat.mod_eq_of_lt (show size < 2^64 by omega),Nat.mod_eq_of_lt low] at below
  refine ⟨above,by omega,?_⟩
  rw [BitVec.toNat_sub]
  have := address.isLt
  omega

theorem copy_inv {ctx m : Nat} {address : BitVec 64} {size : Nat} (inv : Inv w s) (listed : m ∈ s.lists ctx)
    (filled : (s.heap m).pending = false) (low : address.toNat + size < 2^64)
    (within : inside address size (s.heap m).addr (BitVec.ofNat 64 (s.heap m).size) = true) :
    ∃ t, s.copy w ctx m address size = .ok t ∧ Inv w t := by
  obtain ⟨small,_,_⟩ := (inv.books.member ctx m).mp listed
  obtain ⟨length,bound⟩ := inv.books.size m small
  obtain ⟨above,below,offset⟩ := inside_bound low within
  obtain ⟨n,young,whole,parts⟩ := inv.live.fresh ctx m listed filled
  rw [BitVec.toNat_ofNat,Nat.mod_eq_of_lt bound] at below
  have room : (address - (s.heap m).addr).toNat + size ≤ (s.heap m).buf.length := by
    rw [length,offset]
    omega
  let got : Returned := ⟨ctx,!(s.heap m).error || (s.heap m).valid address size,
    ((s.heap m).buf.drop (address - (s.heap m).addr).toNat).take size,s.flushed (w.mem ctx)⟩
  have run : s.copy w ctx m address size = .ok { s with returned := s.returned ++ [got] } := by
    simp only [State.copy,if_pos room,Code.pure_eq]
    rfl
  refine ⟨_,run,inv.books.keep s.rcDone s.intercepted s.clock s.flushed (s.returned ++ [got]),inv.settled,
    ⟨inv.live.none,inv.live.past,inv.live.fresh,fun r member ok cell taken => ?_⟩⟩
  rcases List.mem_append.mp member with old | new
  · exact inv.live.returned r old ok cell taken
  · rw [List.mem_singleton] at new
    subst new
    have far : address.toNat - (s.heap m).addr.toNat + size ≤ n := by
      cases error : (s.heap m).error with
      | false =>
        have all := whole error
        omega
      | true =>
        simp only [got,error,Bool.not_true,Bool.false_or,Block.valid,Bool.true_and,List.any_eq_true,Bool.and_eq_true,
          decide_eq_true_eq] at ok
        obtain ⟨e,named,good,part⟩ := ok
        have far := parts e named good
        obtain ⟨above',below',_⟩ := inside_bound low part
        omega
    have taken' : cell ∈ (s.heap m).buf.take n := by
      rw [List.mem_take_iff_getElem]
      obtain ⟨i,bound',eq⟩ := List.mem_iff_getElem.mp taken
      rw [List.length_take,List.length_drop] at bound'
      rw [List.getElem_take,List.getElem_drop] at eq
      exact ⟨_,by omega,eq⟩
    exact young cell taken'

theorem wait_inv {m : Nat} (inv : Inv w s) (pending : (s.heap m).pending = true) (client : Option Client) :
    Inv w (s.wait m client) := by
  let t := s.wait m client
  have at_m : t.heap m = { s.heap m with
      waiting := (s.heap m).waiting ++ client.toList, joined := (s.heap m).joined ++ client.toList } := by
    simp [t,State.wait,State.setBlock]
  have other {k : Nat} (differs : k ≠ m) : t.heap k = s.heap k := by simp [t,State.wait,State.setBlock,differs]
  have fields (k : Nat) : ∃ waiting joined, t.heap k = { s.heap k with waiting, joined } := by
    by_cases same : k = m
    · subst same
      exact ⟨_,_,at_m⟩
    · exact ⟨(s.heap k).waiting,(s.heap k).joined,other same⟩
  refine ⟨⟨inv.books.nodup,fun c k => ?_,inv.books.once,fun k freed => ?_,fun k h => ?_,fun k h => ?_,fun k h => ?_,fun k h => ?_⟩,
    fun k => ?_,⟨inv.live.none,inv.live.past,fun c k listed => ?_,inv.live.returned⟩⟩
  · obtain ⟨_,_,eq⟩ := fields k
    rw [eq]
    exact inv.books.member c k
  · obtain ⟨_,_,eq⟩ := fields k
    rw [eq]
    exact inv.books.freed k freed
  · by_cases same : k = m
    · subst same
      obtain ⟨split,_⟩ := inv.books.clients k h
      rw [at_m]
      refine ⟨?_,fun filled => absurd (pending.symm.trans filled) (by decide)⟩
      simp only [split,List.append_assoc]
    · rw [other same]
      exact inv.books.clients k h
  · obtain ⟨_,_,eq⟩ := fields k
    rw [eq]
    exact inv.books.blank k h
  · obtain ⟨_,_,eq⟩ := fields k
    rw [eq]
    exact inv.books.size k h
  · obtain ⟨_,_,eq⟩ := fields k
    rw [eq]
    exact inv.books.home k h
  · obtain ⟨_,_,eq⟩ := fields k
    rw [Settled,eq]
    exact inv.settled k
  · obtain ⟨_,_,eq⟩ := fields k
    rw [eq]
    exact inv.live.fresh c k listed

/-- A new block, which waits for its reply, at the head of a list. -/
theorem newBlock_inv {ctx : Nat} (inv : Inv w s) (done : s.rcDone = true) (rooted : ctx ∈ w.root) {b : Block}
    (home : b.ctx = ctx) (pending : b.pending = true) (used : b.disposed = false) (blank : b.error = false ∧ b.errorsAddress = [])
    (size : b.buf.length = b.size ∧ b.size < 2^64) (clients : b.joined = b.notified ++ b.waiting) :
    Inv w { s.setBlock s.next b with lists := Function.update s.lists ctx (s.next :: s.lists ctx), next := s.next + 1 } := by
  let t : State :=
    { s.setBlock s.next b with lists := Function.update s.lists ctx (s.next :: s.lists ctx), next := s.next + 1 }
  have at_new : t.heap s.next = b := by simp [t,State.setBlock]
  have other {k : Nat} (small : k < s.next) : t.heap k = s.heap k := by simp [t,State.setBlock,Nat.ne_of_lt small]
  have old {k : Nat} (small : k < t.next) : k < s.next ∨ k = s.next := Nat.lt_succ_iff_lt_or_eq.mp small
  have unlisted (c : Nat) : s.next ∉ s.lists c := fun listed => absurd ((inv.books.member c _).mp listed).1 (Nat.lt_irrefl _)
  have lists (c k : Nat) : k ∈ t.lists c ↔ k ∈ s.lists c ∨ k = s.next ∧ c = ctx := by
    by_cases here : c = ctx
    · subst here
      simp [t,or_comm]
    · simp [t,here]
  refine ⟨⟨fun c => ?_,fun c k => ?_,inv.books.once,fun k freed => ?_,fun k small => ?_,fun k small => ?_,fun k small => ?_,
    fun k small => ?_⟩,fun k => ?_,⟨fun undone => ?_,inv.live.past,fun c k listed filled => ?_,inv.live.returned⟩⟩
  · by_cases here : c = ctx
    · subst here
      simpa [t] using ⟨unlisted c,inv.books.nodup c⟩
    · simpa [t,here] using inv.books.nodup c
  · rw [lists,inv.books.member]
    constructor
    · rintro (⟨small,rest⟩ | ⟨rfl,rfl⟩)
      · rw [other small]
        exact ⟨Nat.lt_succ_of_lt small,rest⟩
      · rw [at_new]
        exact ⟨Nat.lt_succ_self _,home,used⟩
    · rintro ⟨small,rest⟩
      rcases old small with small | rfl
      · rw [other small] at rest
        exact .inl ⟨small,rest⟩
      · rw [at_new] at rest
        exact .inr ⟨rfl,rest.1.symm.trans home⟩
  · obtain ⟨small,rest⟩ := inv.books.freed k freed
    rw [other small]
    exact ⟨Nat.lt_succ_of_lt small,rest⟩
  · rcases old small with small | rfl
    · rw [other small]
      exact inv.books.clients k small
    · rw [at_new]
      exact ⟨clients,fun filled => absurd (pending.symm.trans filled) (by decide)⟩
  · rcases old small with small | rfl
    · rw [other small]
      exact inv.books.blank k small
    · rw [at_new]
      exact fun _ => blank
  · rcases old small with small | rfl
    · rw [other small]
      exact inv.books.size k small
    · rw [at_new]
      exact size
  · rcases old small with small | rfl
    · rw [other small]
      exact inv.books.home k small
    · rw [at_new,home]
      exact rooted
  · by_cases same : k = s.next
    · subst same
      intro gone
      rw [at_new,used] at gone
      cases gone
    · have heap : t.heap k = s.heap k := by simp [t,State.setBlock,same]
      rw [Settled,heap]
      exact inv.settled k
  · exact absurd (done.symm.trans undone) (by decide)
  · rcases (lists c k).mp listed with here | ⟨rfl,_⟩
    · have heap : t.heap k = s.heap k := other ((inv.books.member c k).mp here).1
      rw [heap] at filled ⊢
      exact inv.live.fresh c k here filled
    · rw [at_new,pending] at filled
      cases filled

theorem read_inv {client : Option Client} {ctx : Nat} {address : BitVec 64} {size : Nat} {junk : List Cell} (inv : Inv w s)
    (rooted : ctx ∈ w.root) (length : junk.length = size) (low : address.toNat + size < 2^64) :
    ∃ t, contextReadMem w s client ctx address size junk = .ok t ∧ Inv w t := by
  unfold contextReadMem
  by_cases done : s.rcDone = true
  · have not_false : ¬s.rcDone = false := by simp [done]
    simp only [if_neg not_false]
    cases found : (s.lists ctx).find? fun m => inside address size (s.heap m).addr (BitVec.ofNat 64 (s.heap m).size) with
    | none =>
      have fits : size < 2^64 := by omega
      exact ⟨_,rfl,newBlock_inv inv done rooted rfl rfl rfl ⟨rfl,rfl⟩ ⟨length,fits⟩ rfl⟩
    | some m =>
      have within := List.find?_some found
      have listed := List.mem_of_find?_eq_some found
      cases pending : (s.heap m).pending with
      | true => exact ⟨_,by simp [pending],wait_inv inv pending client⟩
      | false =>
        obtain ⟨t,run,inv'⟩ := copy_inv inv listed pending low within
        exact ⟨t,by simpa [pending] using run,inv'⟩
  · exact ⟨s,by simp [Bool.eq_false_iff.mpr done],inv⟩

theorem step_inv {e : Event} (inv : Inv w s) (can : Enabled w s e) (orderly : Orderly w s e) :
    ∃ t, step w s e = .ok t ∧ Inv w t := by
  have later : Inv w { s with clock := s.clock + 1 } :=
    ⟨inv.books.keep s.rcDone s.intercepted (s.clock + 1) s.flushed s.returned,inv.settled,
      ⟨inv.live.none,fun space => Nat.le_succ_of_le (inv.live.past space),inv.live.fresh,inv.live.returned⟩⟩
  cases e with
  | rcDone =>
    exact ⟨_,rfl,later.books.keep true s.intercepted (s.clock + 1) s.flushed s.returned,later.settled,
      ⟨nofun,later.live.past,later.live.fresh,later.live.returned⟩⟩
  | read client ctx address size junk => exact read_inv later can.1 can.2.1 orderly
  | reply m reply => exact validate_inv later can.1 can.2 orderly fun space => Nat.lt_succ_of_le (inv.live.past space)
  | suspended c => exact suspend_inv later orderly
  | containerSuspended c ids => exact suspendAll_inv later orderly
  | resumed c =>
    refine ⟨_,rfl,?_⟩
    unfold resume
    split
    next =>
      exact ⟨later.books.keep _ _ _ _ _,later.settled,
        ⟨later.live.none,later.live.past,later.live.fresh,later.live.returned⟩⟩
    next => exact later
  | memoryChanged c => exact memoryChanged_inv c later

theorem initial_inv (w : World) : Inv w State.initial := by
  constructor
  · constructor <;> simp [State.initial]
  · intro m gone
    cases gone
  · constructor <;> simp [State.initial]

/-- Two contexts of one memory space. -/
def twoThreads : World := ⟨[1,2],fun _ => 1⟩

def junk : List Cell := [(0xaa,0),(0xaa,0)]

/-- A block that waits does not survive a change of memory, and one with bytes does not survive a stop. -/
def orderlyRun : List Event :=
  [.rcDone,.read (some 7) 1 0 2 junk,.reply 0 ⟨[1,2],false,[]⟩,.read (some 7) 1 0 2 junk,.read (some 8) 2 16 2 junk,
    .memoryChanged 1,.reply 1 ⟨[3,4],false,[]⟩,.read (some 8) 2 16 2 junk,.reply 2 ⟨[5,6],false,[]⟩,
    .containerSuspended 1 [2],.read (some 8) 2 16 2 junk,.reply 3 ⟨[7,8],false,[]⟩,.read (some 8) 2 16 2 junk]

end Tcf.MemoryCache
