import Tcf.ChannelInput

/-! What the handlers got, against the tokens received, and what a read, a start or a
request of a handler changes. -/
namespace Tcf.ChannelInput

open Framing InputBuf

/-- The tokens left when handlers got these entries; a peek leaves its token. -/
def replay : List Got → List Token → Option (List Token)
  | [], toks => some toks
  | (peeking,item) :: entries, t :: rest =>
    if t = item.token then replay entries (if peeking then t :: rest else rest) else none
  | _ :: _, [] => none

def log (s : Chan) : List Got := s.handed.reverse.flatten

/-- What a handler read, peeks left out. -/
def readsOf (entries : List Got) : List Item :=
  entries.filterMap fun entry => if entry.1 then none else some entry.2

/-- Every message handed out was read to its end, except the one being read. -/
def Shaped : Bool → List (List Got) → Prop
  | true, current :: past => (∃ bytes : List UInt8, readsOf current = bytes.map .byte) ∧ Shaped false past
  | true, [] => False
  | false, handed => ∀ entries ∈ handed, ∃ bytes : List UInt8, readsOf entries = bytes.map .byte ++ [.eom]

variable {w : Build}

/-- The buffer holds the unread tokens, counts their messages, and the handlers got the rest. -/
structure Live (w : Build) (s : Chan) (lit : Nat) (m : Mode) (toks : List Token) : Prop where
  held : Holds w.int s.arrived s.b lit m toks
  counted : Counted s.b.counter s.reading toks
  replayed : replay (log s) (tokens w.int .plain s.arrived) = some toks
  shaped : Shaped s.reading s.handed
  served : s.b.eof = false → s.b.readPending = none → 0 < s.b.messageCount
  between : s.reading = false → lit = 0

theorem replay_append (first second : List Got) (toks : List Token) :
    replay (first ++ second) toks = (replay first toks).bind (replay second) := by
  induction first generalizing toks with
  | nil => rfl
  | cons entry rest ih =>
    obtain ⟨peeking,item⟩ := entry
    cases toks with
    | nil => rfl
    | cons t more =>
      simp only [List.cons_append,replay]
      split
      · exact ih _
      · rfl

variable {toks : List Token}

/-- Tokens that arrive later come last. -/
theorem replay_more {entries : List Got} {left : List Token} (more : List Token)
    (h : replay entries toks = some left) : replay entries (toks ++ more) = some (left ++ more) := by
  induction entries generalizing toks with
  | nil => simpa [replay] using congrArg (· ++ more) (Option.some.inj h)
  | cons entry rest ih =>
    obtain ⟨peeking,item⟩ := entry
    cases toks with
    | nil => cases h
    | cons t others =>
      simp only [replay,List.cons_append] at h ⊢
      split at h
      · rename_i same
        rw [if_pos same]
        cases peeking with
        | true => exact ih h
        | false => exact ih h
      · cases h

/-- Only reads take tokens. -/
theorem replay_reads {entries : List Got} {left : List Token} (h : replay entries toks = some left) :
    toks = (readsOf entries).map Item.token ++ left := by
  induction entries generalizing toks with
  | nil => exact Option.some.inj h
  | cons entry rest ih =>
    obtain ⟨peeking,item⟩ := entry
    cases toks with
    | nil => cases h
    | cons t others =>
      simp only [replay] at h
      split at h
      · rename_i same
        have tail := ih h
        cases peeking with
        | true => exact tail
        | false =>
          simp only [Bool.false_eq_true,if_false] at tail
          simp [readsOf,same] at tail ⊢
          exact tail
      · cases h

theorem record_log {current : List Got} {past : List (List Got)} (entry : Got) :
    (record (current :: past) entry).reverse.flatten = (current :: past).reverse.flatten ++ [entry] := by
  simp [record]

theorem shaped_old {handed : List (List Got)} : Shaped false handed ↔ ∀ entries ∈ handed,
    ∃ bytes : List UInt8, readsOf entries = bytes.map .byte ++ [.eom] := by
  cases handed <;> exact Iff.rfl

theorem shaped_cons {handed : List (List Got)} (h : Shaped true handed) :
    ∃ current past, handed = current :: past := by
  cases handed with
  | nil => exact h.elim
  | cons current past => exact ⟨current,past,rfl⟩

variable {s : Chan} {lit : Nat} {m : Mode}

/-- A handler that goes on, or ends its message, leaves the channel live. -/
theorem deliver_item {item : Item} {rest : List Token}
    (h : Live w s lit m (item.token :: rest)) (busy : s.reading = true) {next : InputBuf} {peeking : Bool}
    (reads : Reads w.int s.arrived s.b next peeking item rest) (goes : item ≠ .eos) :
    ∃ lit m, Live w (deliver s peeking (next,some item)) lit m
        (if peeking then item.token :: rest else rest) ∧ next.stop = next.cur + lit := by
  obtain ⟨lit,m,held,settled,between⟩ := reads.contents
  obtain ⟨current,past,handed⟩ := shaped_cons (busy ▸ h.shaped)
  have shaped := h.shaped
  rw [busy,handed] at shaped
  have counted := h.counted
  rw [busy] at counted
  have counter := reads.counter
  have counted' : Counted next.counter (goesOn peeking item) (if peeking then item.token :: rest else rest) := by
    cases peeking with
    | true =>
      rw [if_pos rfl] at counter ⊢
      rw [counter]
      cases item with
      | byte ch => exact counted
      | eom => exact counted
      | eos => exact absurd rfl goes
    | false =>
      rw [if_neg (by decide)] at counter ⊢
      rw [counter]
      cases item with
      | byte ch => exact counted.readByte
      | eom => exact counted.readEom
      | eos => exact absurd rfl goes
  refine ⟨lit,m,⟨held,counted',?_,?_,?_,?_⟩,settled⟩
  · have before := h.replayed
    change replay (record s.handed (peeking,item)).reverse.flatten _ = _
    rw [handed,record_log,← handed]
    change replay (log s ++ _) _ = _
    rw [replay_append]
    change (replay (log s) (tokens w.int .plain s.arrived)).bind _ = _
    rw [before]
    simp [replay]
  · change Shaped (goesOn peeking item) (record s.handed (peeking,item))
    rw [handed]
    obtain ⟨⟨bytes,soFar⟩,old⟩ := shaped
    cases item with
    | byte ch =>
      cases peeking with
      | true => exact ⟨⟨bytes,by simpa [readsOf] using soFar⟩,old⟩
      | false => exact ⟨⟨bytes ++ [ch],by simpa [readsOf] using soFar⟩,old⟩
    | eom =>
      cases peeking with
      | true => exact ⟨⟨bytes,by simpa [readsOf] using soFar⟩,old⟩
      | false =>
        intro entries member
        rcases List.mem_cons.mp member with rfl | earlier
        · exact ⟨bytes,by simpa [readsOf] using soFar⟩
        · exact shaped_old.mp old entries earlier
    | eos => exact absurd rfl goes
  · intro open_ none_
    cases more : goesOn peeking item with
    | true =>
      rw [more] at counted'
      exact counted'.busy.1
    | false =>
      cases item with
      | byte ch => cases more
      | eom =>
        have posted := reads.posted rfl more open_
        rw [show next.readPending = none from none_] at posted
        cases posted
      | eos => exact absurd rfl goes
  · intro done
    refine between ?_
    cases item with
    | byte ch => cases done
    | eom | eos => rfl

/-- What becomes of a handler that asks for the next item. -/
inductive Asked (w : Build) (s : Chan) (toks : List Token) (peeking : Bool) : Chan → Prop
  | item {next : Chan} {lit : Nat} {m : Mode} (item : Item) (rest : List Token)
      (first : toks = item.token :: rest) (goes : item ≠ .eos)
      (live : Live w next lit m (if peeking then toks else rest))
      (settled : next.b.stop = next.b.cur + lit) (waiting : next.waiting = none)
      (arrived : next.arrived = s.arrived)
      (counter : next.b.counter = if peeking then s.b.counter else s.b.counter.read item) :
      Asked w s toks peeking next
  | ended {next : Chan} (eof : s.b.eof = true) (first : toks = [] ∨ ∃ rest, toks = .eos :: rest)
      (reading : next.reading = false) (waiting : next.waiting = none)
      (counter : next.b.counter = s.b.counter) (idle : next.b.readPending = none) :
      Asked w s toks peeking next
  | blocked {next : Chan} {m : Mode} (live : Live w next 0 m []) (reading : next.reading = true)
      (waiting : next.waiting = some peeking) (open_ : next.b.eof = false)
      (posted : next.b.readPending.isSome) (none_ : toks = []) (arrived : next.arrived = s.arrived)
      (counter : next.b.counter = s.b.counter) : Asked w s toks peeking next

theorem token_cases (t : Token) : t = .bad ∨ ∃ item : Item, t = item.token := by
  cases t with
  | byte ch => exact .inr ⟨.byte ch,rfl⟩
  | eom => exact .inr ⟨.eom,rfl⟩
  | eos => exact .inr ⟨.eos,rfl⟩
  | bad => exact .inl rfl

theorem asked_item {item : Item} {rest : List Token}
    (h : Live w s lit m (item.token :: rest)) (busy : s.reading = true) {next : InputBuf} {peeking : Bool}
    (reads : Reads w.int s.arrived s.b next peeking item rest) :
    Asked w s (item.token :: rest) peeking (deliver s peeking (next,some item)) := by
  by_cases goes : item = .eos
  · subst goes
    have counter : next.counter = s.b.counter := by
      have := reads.counter
      cases peeking <;> exact this
    have eof : s.b.eof = true := h.counted.eos_eof
    obtain ⟨lit,m,held,_⟩ := reads.contents
    exact .ended eof (.inr ⟨rest,rfl⟩) rfl rfl counter
      (held.idle ((congrArg Counter.eof counter).trans eof))
  · obtain ⟨lit,m,live,settled⟩ := deliver_item h busy reads goes
    exact .item item rest rfl goes live settled rfl rfl reads.counter

/-- A handler that finds nothing before the end of the stream waits, where the next byte will be stored. -/
theorem resume_blocks (h : Live w s 0 m []) (busy : s.reading = true) (open_ : s.b.eof = false)
    (peeking : Bool) :
    ∃ next m', resume w s.b peeking = .ok (next,none) ∧ Live w (deliver s peeking (next,none)) 0 m' [] ∧
      next.counter = s.b.counter ∧ next.readPending.isSome ∧ next.cur = next.inp := by
  have counted := h.counted
  rw [busy] at counted
  obtain ⟨long,one⟩ := counted.drained
  obtain ⟨next,m',run,held,counter,posted,here⟩ := resume_wait peeking h.held.settle open_ long (one open_)
  refine ⟨next,m',run,⟨held,?_,h.replayed,h.shaped,?_,fun _ => rfl⟩,counter,posted,here⟩
  · change Counted next.counter s.reading []
    rw [counter]
    exact h.counted
  · intro _ none_
    rw [show next.readPending = none from none_] at posted
    cases posted

/-- A resumed handler gets the next item, the end of the stream, or waits. -/
theorem ask_resumed (h : Live w s 0 m toks)
    (busy : s.reading = true) (peeking : Bool) :
    ∃ r, resume w s.b peeking = .ok r ∧ Asked w s toks peeking (deliver s peeking r) := by
  have counted := h.counted
  have at_ := h.held.settle
  rw [busy] at counted
  cases toks with
  | nil =>
    cases eof : s.b.eof with
    | true =>
      obtain ⟨next,run,counter,idle⟩ := resume_eof peeking at_ eof
      exact ⟨_,run,.ended eof (.inl rfl) rfl rfl counter (idle.trans (h.held.idle eof))⟩
    | false =>
      obtain ⟨next,m',run,live,counter,posted,_⟩ := resume_blocks h busy eof peeking
      exact ⟨_,run,.blocked live busy rfl ((congrArg Counter.eof counter).trans eof) posted rfl rfl counter⟩
  | cons t rest =>
    rcases token_cases t with rfl | ⟨item,rfl⟩
    · exact counted.no_bad.elim
    · obtain ⟨next,run,reads⟩ := resume_item peeking at_
      exact ⟨_,run,asked_item h busy reads⟩

/-- So does one that reads or peeks. -/
theorem ask_reads (h : Live w s lit m toks)
    (busy : s.reading = true) (settled : s.b.stop = s.b.cur + lit) (peeking : Bool) :
    ∃ r, readStream w s.b peeking = .ok r ∧ Asked w s toks peeking (deliver s peeking r) := by
  cases lit with
  | zero =>
    have counted := h.counted
    rw [busy] at counted
    rw [readStream_resume peeking h.held settled (Nat.ne_of_gt counted.busy.1) counted.busy.2]
    exact ask_resumed h busy peeking
  | succ lit =>
    obtain ⟨next,rest,rfl,run,reads⟩ := readStream_literal peeking h.held settled
    exact ⟨_,run,asked_item h busy reads⟩

/-- The tokens that received bytes add. -/
def newTokens (w : Build) (s : Chan) (bytes : List UInt8) : List Token :=
  tokens w.int (modeOf s.b.inpFlags) bytes

/-- The count after a read, unless the buffer is full. -/
def countRead (c : Counter) (bytes : List UInt8) (more : List Token) : Counter :=
  if bytes = [] then c.endOfStream else c.arriveAll more

def receive (s : Chan) (b : InputBuf) (bytes : List UInt8) : Chan :=
  { s with b, arrived := s.arrived ++ bytes, closed := s.closed || bytes.isEmpty }

/-- The input scan is in the mode all received bytes lead to. -/
theorem Live.mode (h : Live w s lit m toks) :
    modeOf s.b.inpFlags = after w.int .plain s.arrived := by
  obtain ⟨front,all,mode⟩ := h.held.scan
  rw [h.held.inpFlags,modeOf_flags _ (after_valid w.int m _ h.held.valid),← all,after_append,mode]

theorem Live.more (h : Live w s lit m toks)
    (bytes : List UInt8) :
    tokens w.int .plain (s.arrived ++ bytes) = tokens w.int .plain s.arrived ++ newTokens w s bytes := by
  rw [tokens_append,newTokens,h.mode]

/-- A read that brings only what a long message may bring keeps the channel live. -/
theorem receive_live (h : Live w s lit m toks)
    {bytes : List UInt8} {position size : Nat} (pending : s.b.readPending = some (position,size))
    (fit : bytes.length ≤ size) (safe : s.b.longMsg = true → longSafe (newTokens w s bytes)) :
    ∃ b, ibufReadDone w (received s.b position bytes) bytes.length = .ok b ∧
      Live w (receive s b bytes) lit m (toks ++ newTokens w s bytes) ∧
      (s.b.stop = s.b.cur + lit → b.stop = b.cur + lit) ∧
      (b.counter = countRead s.b.counter bytes (newTokens w s bytes) ∨
        (s.reading = false ∧ b.longMsg = true ∧ b.eof = false ∧ span b b.cur + 1 = b.bufSize)) := by
  have open_ : s.b.eof = false := (h.held.posted _ _ pending).1
  have replayed : replay (log s) (tokens w.int .plain (s.arrived ++ bytes)) =
      some (toks ++ newTokens w s bytes) := by
    rw [h.more]
    exact replay_more _ h.replayed
  by_cases empty : bytes = []
  · subst empty
    have counted := h.counted.closed open_
    have idle : received s.b position [] = { s.b with readPending := none } := by simp [received]
    refine ⟨(received s.b position []).setCounter s.b.counter.endOfStream,?_,⟨?_,?_,replayed,h.shaped,?_,h.between⟩,
      ?_,.inl rfl⟩
    · unfold ibufReadDone
      rw [if_pos List.length_nil,ibufEof_eq]
      rfl
    · rw [idle]
      change Holds w.int (s.arrived ++ []) _ lit m (toks ++ [])
      rw [List.append_nil,List.append_nil]
      refine h.held.transport rfl rfl rfl rfl rfl rfl rfl ?_
      intro position size pending
      cases pending
    · change Counted _ s.reading (toks ++ [])
      rw [List.append_nil]
      exact counted
    · intro closed
      have closed' : s.b.counter.endOfStream.eof = false := closed
      rw [Counter.endOfStream_eof] at closed'
      cases closed'
    · rw [idle]
      exact id
  · have marked : s.b.counter.eof = true → s.b.counter.longMsg = true → firstMarker toks = some .eos := by
      intro eof
      rw [show s.b.counter.eof = false from open_] at eof
      cases eof
    obtain ⟨accepts,counted⟩ := h.counted.arriveAll (Counter.safeAll _ open_ _ safe) marked
    obtain ⟨b,run,held,counter,stop,served⟩ := ibufReadDone_spec w h.held pending fit empty accepts
    have same : countRead s.b.counter bytes (newTokens w s bytes) =
        s.b.counter.arriveAll (newTokens w s bytes) := if_neg empty
    refine ⟨b,run,⟨held,?_,replayed,h.shaped,served,h.between⟩,stop,?_⟩
    · rcases counter with counter | ⟨none_,counter,_⟩
      · exact counter ▸ counted
      · exact counter ▸ counted.full none_
    · rw [same]
      rcases counter with counter | ⟨none_,counter,tight⟩
      · exact .inl counter
      · obtain ⟨rest,open_⟩ := counted.unoccupied none_
        have open' : b.eof = false := (congrArg Counter.eof counter).trans open_
        exact .inr ⟨rest,congrArg Counter.longMsg counter,open',tight open'⟩

/-- A handler starts on a message, or is refused after the end of the stream. -/
theorem start_live (h : Live w s lit m toks)
    (triggered : s.b.handlingMsg = .triggered) (rest : s.reading = false) :
    if s.b.eof then handleChannelMsg s = .ok { s with b := { s.b with handlingMsg := .idle } }
    else handleChannelMsg s = .ok { s with
        b := { s.b with handlingMsg := .active }, reading := true, handed := [] :: s.handed } ∧
      Live w { s with
        b := { s.b with handlingMsg := .active }, reading := true, handed := [] :: s.handed } lit m toks := by
  have counted := h.counted
  rw [rest] at counted
  have some_ : s.b.messageCount ≠ 0 := by
    intro none_
    have idle : s.b.handlingMsg = .idle := counted.idle.mpr none_
    rw [triggered] at idle
    cases idle
  cases eof : s.b.eof with
  | true =>
    simp [handleChannelMsg,ibufStartMessage,require_true triggered,some_,eof]
  | false =>
    simp only [Bool.false_eq_true,if_false]
    constructor
    · simp [handleChannelMsg,ibufStartMessage,require_true triggered,some_,eof]
    · have shaped := h.shaped
      rw [rest] at shaped
      refine ⟨h.held.transport rfl rfl rfl rfl rfl rfl rfl h.held.posted,counted.start triggered eof,?_,
        ⟨⟨[],rfl⟩,shaped⟩,h.served,by simp⟩
      simpa [log] using h.replayed

end Tcf.ChannelInput
