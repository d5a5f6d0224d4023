import Tcf.ChannelInputSafety

/-! The end of the stream: a handler that got its marker and reads on. -/
namespace Tcf.ChannelInput

open Framing InputBuf

/-- The message being handled, or the last one, gave an end of stream. -/
def sawEnd (s : Chan) : Prop := ∃ entry ∈ s.handed.head?.getD [], entry.2 = .eos

instance (s : Chan) : Decidable (sawEnd s) :=
  inferInstanceAs (Decidable (∃ entry ∈ s.handed.head?.getD [], entry.2 = .eos))

/-- A handler may read on behind the end of the stream. -/
def onward (w : Build) : Process Chan Event where
  enabled s
    | .arrive bytes => fits s bytes
    | .start => s.b.handlingMsg = .triggered ∧ s.reading = false ∧ s.waiting = none
    | .read _ => (s.reading = true ∨ sawEnd s) ∧ s.waiting = none
  decide s
    | .arrive bytes => inferInstanceAs (Decidable (fits s bytes))
    | .start => inferInstanceAs (Decidable (s.b.handlingMsg = .triggered ∧ s.reading = false ∧ s.waiting = none))
    | .read _ => inferInstanceAs (Decidable ((s.reading = true ∨ sawEnd s) ∧ s.waiting = none))
  step := (process w).step

/-- Behind an end of stream comes nothing else. -/
def Sticky (entries : List Got) : Prop := entries.Pairwise fun first later => first.2 = .eos → later.2 = .eos

/-- The peer sends nothing behind its end of stream. -/
def EndLast (toks : List Token) : Prop := toks.Pairwise fun first later => first = .eos → later = .eos

instance (toks : List Token) : Decidable (EndLast toks) :=
  inferInstanceAs (Decidable (toks.Pairwise fun first later => first = .eos → later = .eos))

/-- No token is unread: what is left is at most an escape that is cut off. -/
def Drained (w : Build) (b : InputBuf) : Prop :=
  b.cur = b.stop ∧ tokens w.int (modeOf b.outFlags) (ahead b b.cur) = []

instance (w : Build) (b : InputBuf) : Decidable (Drained w b) :=
  inferInstanceAs (Decidable (b.cur = b.stop ∧ tokens w.int (modeOf b.outFlags) (ahead b b.cur) = []))

/-- When the stream ends, its reader stands at the very place where the next byte would have been stored,
not at the end of the buffer before it wraps, nor before an escape that is cut off. -/
def EndsClean (w : Build) (s : Chan) : Event → Prop
  | .arrive bytes => EndLast (tokens w.int .plain (s.arrived ++ bytes)) ∧
      (bytes = [] → s.waiting ≠ none → s.b.cur = s.b.stop)
  | .start => True
  | .read _ => s.b.eof = true → Drained w s.b → s.b.cur = s.b.inp

instance (w : Build) (s : Chan) (e : Event) : Decidable (EndsClean w s e) :=
  match e with
  | .arrive bytes => inferInstanceAs (Decidable (EndLast (tokens w.int .plain (s.arrived ++ bytes)) ∧
      (bytes = [] → s.waiting ≠ none → s.b.cur = s.b.stop)))
  | .start => isTrue trivial
  | .read _ => inferInstanceAs (Decidable (s.b.eof = true → Drained w s.b → s.b.cur = s.b.inp))

variable {w : Build} {s : Chan}

/-- A handler got an end of stream, and stands behind it. -/
structure AtEnd (w : Build) (s : Chan) (toks : List Token) : Prop where
  held : ∃ m, Holds w.int s.arrived s.b 0 m toks
  only : ∀ t ∈ toks, t = .eos
  settled : s.b.stop = s.b.cur
  eof : s.b.eof = true
  active : s.b.handlingMsg = .active
  counted : s.b.messageCount ≠ 0
  reading : s.reading = false
  waiting : s.waiting = none
  begun : s.handed ≠ []
  sticky : Sticky (log s)

/-- An invalid escape came in a long message: the handler stops at it, before any end of stream. -/
structure Doomed (w : Build) (s : Chan) (toks : List Token) : Prop where
  held : ∃ lit m, Holds w.int s.arrived s.b lit m toks ∧ s.b.stop = s.b.cur + lit
  bad : firstMarker toks = some .bad
  eof : s.b.eof = true
  waiting : s.waiting = none
  begun : s.reading = true → s.handed ≠ []

/-- No handler got an end of stream yet. -/
def Fresh (s : Chan) : Prop := ∀ entry ∈ log s, entry.2 ≠ .eos

/-- States between steps, and where the end of the stream is in them. -/
inductive Onward (w : Build) (s : Chan) : Prop
  | ready {lit : Nat} {m : Mode} {toks : List Token} (live : Live w s lit m toks)
      (settled : s.b.stop = s.b.cur + lit) (waiting : s.waiting = none) (fresh : Fresh s)
      (last : EndLast (tokens w.int .plain s.arrived))
  | blocked {m : Mode} {peeking : Bool} (live : Live w s 0 m []) (reading : s.reading = true)
      (waiting : s.waiting = some peeking) (open_ : s.b.eof = false) (here : s.b.cur = s.b.inp) (fresh : Fresh s)
      (last : EndLast (tokens w.int .plain s.arrived))
  | refused (reading : s.reading = false) (idle : s.b.readPending = none)
      (rest : s.b.handlingMsg ≠ .triggered) (fresh : Fresh s)
  | doomed {toks : List Token} (bad : Doomed w s toks) (idle : s.b.readPending = none) (fresh : Fresh s)
  | ended {toks : List Token} (at_ : AtEnd w s toks) (idle : s.b.readPending = none)

theorem fresh_not_saw (fresh : Fresh s) : ¬sawEnd s := by
  rintro ⟨entry,inside,end_⟩
  refine fresh entry ?_ end_
  cases handed : s.handed with
  | nil => simp [handed] at inside
  | cons current past =>
    simp only [handed,List.head?_cons,Option.getD_some] at inside
    simp [log,handed,inside]

theorem fresh_sticky (fresh : Fresh s) : Sticky (log s) := by
  refine List.Pairwise.imp_of_mem ?_ (List.pairwise_of_forall (R := fun _ _ => True) fun _ _ => trivial)
  intro first later inside _ _ end_
  exact absurd end_ (fresh first inside)

theorem log_deliver (begun : s.handed ≠ []) (next : InputBuf) (peeking : Bool) (item : Item) :
    log (deliver s peeking (next,some item)) = log s ++ [(peeking,item)] := by
  obtain ⟨current,past,handed⟩ := List.exists_cons_of_ne_nil begun
  change (record s.handed (peeking,item)).reverse.flatten = s.handed.reverse.flatten ++ _
  rw [handed,record_log]

theorem handed_deliver (next : InputBuf) (peeking : Bool) (item : Item) (begun : s.handed ≠ []) :
    (deliver s peeking (next,some item)).handed ≠ [] := by
  obtain ⟨current,past,handed⟩ := List.exists_cons_of_ne_nil begun
  simp [deliver,handed,record]

theorem fresh_deliver (fresh : Fresh s) (begun : s.handed ≠ []) {item : Item} (goes : item ≠ .eos) (next : InputBuf)
    (peeking : Bool) : Fresh (deliver s peeking (next,some item)) := by
  intro entry inside
  rw [log_deliver begun,List.mem_append,List.mem_singleton] at inside
  rcases inside with before | rfl
  · exact fresh entry before
  · exact goes

theorem endLast_tail {first second : List Token} (last : EndLast (first ++ second)) : EndLast second :=
  (List.pairwise_append.mp last).2.1

theorem endLast_eos {rest : List Token} (last : EndLast (.eos :: rest)) : ∀ t ∈ .eos :: rest, t = .eos := by
  intro t inside
  rcases List.mem_cons.mp inside with rfl | later
  · rfl
  · exact (List.pairwise_cons.mp last).1 t later rfl

variable {toks : List Token}

/-- An end of message does not come behind an end of stream. -/
theorem endLast_eom (last : EndLast toks) (first : firstMarker toks = some .eos) : .eom ∉ toks := by
  induction toks with
  | nil => simp
  | cons t rest ih =>
    cases t with
    | byte ch => simpa using ih (@endLast_tail [.byte ch] _ last) first
    | eos =>
      intro inside
      cases endLast_eos last _ inside
    | eom | bad => cases first

variable {m : Mode}

theorem Live.endLast {lit : Nat} (h : Live w s lit m toks)
    (last : EndLast (tokens w.int .plain s.arrived)) : EndLast toks := by
  rw [replay_reads h.replayed] at last
  exact endLast_tail last

variable {peeking : Bool} {r : InputBuf × Option Item}

section Reading

variable {b : InputBuf} {whole : List UInt8} {lit : Nat} {m : Mode} {toks rest : List Token}

/-- A read that returns without a literal byte found a message being handled. -/
theorem readStream_busy (none_ : ¬b.cur < b.stop)
    (run : readStream w b peeking = .ok r) :
    b.messageCount ≠ 0 ∧ b.handlingMsg = .active ∧ resume w b peeking = .ok r := by
  unfold readStream ibufGetMore at run
  rw [if_neg none_] at run
  obtain ⟨counted,run⟩ := Code.require_bind_ok.mp run
  obtain ⟨active,run⟩ := Code.require_bind_ok.mp run
  obtain ⟨_,run⟩ := Code.require_bind_ok.mp run
  obtain ⟨_,run⟩ := Code.require_bind_ok.mp run
  exact ⟨Nat.pos_iff_ne_zero.mp counted,active,run⟩

/-- At the end of the stream a reader with nothing left stays where it is. -/
theorem resume_here (held : Holds w.int whole b 0 m toks) (eof : b.eof = true) (here : b.cur = b.inp) (peeking : Bool) :
    resume w b peeking = .ok (b,some .eos) := by
  have stays : place b b.inp b.stop = b := by
    rw [← here]
    rfl
  unfold resume getMoreLoop
  rw [here,getMoreStep_empty peeking held.inside (.inr eof),if_pos eof,stays]
  rfl

/-- What is left when the end of the stream was read. -/
theorem reads_end {next : InputBuf} (reads : Reads w.int whole b next peeking .eos rest)
    (only : ∀ t ∈ Token.eos :: rest, t = .eos) :
    next.counter = b.counter ∧ ∃ toks, (∃ m, Holds w.int whole next 0 m toks) ∧ (∀ t ∈ toks, t = .eos) ∧
      next.stop = next.cur := by
  obtain ⟨lit,m,contents,stop,literal⟩ := reads.contents
  obtain rfl := literal rfl
  have counter := reads.counter
  refine ⟨by cases peeking <;> exact counter,_,⟨m,contents⟩,?_,stop⟩
  intro t inside
  cases peeking with
  | true => exact only t inside
  | false => exact only t (List.mem_cons_of_mem _ inside)

theorem drained_iff (held : Holds w.int whole b 0 m toks) (settled : b.stop = b.cur) : Drained w b ↔ toks = [] := by
  have mode : modeOf b.outFlags = m := by rw [held.outFlags,modeOf_flags m held.valid]
  have left := held.toks
  simp only [Circular.slice_zero,List.map_nil,List.nil_append,Nat.add_zero] at left
  rw [Drained,mode,left]
  simp [settled]

end Reading

/-- A handler that got the end of the stream stands behind it. -/
theorem deliver_end {next : InputBuf} (counter : next.counter = s.b.counter)
    (held : ∃ m, Holds w.int s.arrived next 0 m toks) (only : ∀ t ∈ toks, t = .eos) (settled : next.stop = next.cur)
    (eof : s.b.eof = true) (active : s.b.handlingMsg = .active) (counted : s.b.messageCount ≠ 0) (begun : s.handed ≠ [])
    (sticky : Sticky (log s)) : Onward w (deliver s peeking (next,some .eos)) := by
  have eof' : next.eof = true := (congrArg Counter.eof counter).trans eof
  refine Onward.ended ⟨held,only,settled,eof',?_,?_,rfl,rfl,handed_deliver next peeking .eos begun,?_⟩ ?_
  · exact (congrArg Counter.handlingMsg counter).trans active
  · exact ne_of_eq_of_ne (congrArg Counter.messageCount counter) counted
  · rw [log_deliver begun]
    exact List.pairwise_append.mpr ⟨sticky,List.pairwise_singleton _ _,fun _ _ later inside _ => by
      rw [List.mem_singleton.mp inside]⟩
  · obtain ⟨m,held⟩ := held
    exact held.idle eof'

theorem Live.begun {lit : Nat} (h : Live w s lit m toks) (busy : s.reading = true) :
    s.handed ≠ [] := by
  obtain ⟨current,past,handed⟩ := shaped_cons (busy ▸ h.shaped)
  simp [handed]

/-- A resumed handler that is not past the end of the stream. -/
theorem resume_onward (live : Live w s 0 m toks) (busy : s.reading = true)
    (fresh : Fresh s) (last : EndLast (tokens w.int .plain s.arrived)) (peeking : Bool)
    (here : toks = [] → s.b.eof = true → s.b.cur = s.b.inp ∧ s.b.stop = s.b.cur) :
    ∃ r, resume w s.b peeking = .ok r ∧ Onward w (deliver s peeking r) := by
  have begun := live.begun busy
  have counted := live.counted
  rw [busy] at counted
  obtain ⟨some_,active⟩ := counted.busy
  cases toks with
  | nil =>
    cases eof : s.b.eof with
    | true =>
      obtain ⟨at_,settled⟩ := here rfl eof
      exact ⟨_,resume_here live.held eof at_ peeking,deliver_end rfl ⟨m,live.held⟩ (by simp) settled eof active
        (Nat.ne_of_gt some_) begun (fresh_sticky fresh)⟩
    | false =>
      obtain ⟨next,m',run,live',counter,_,at_⟩ := resume_blocks live busy eof peeking
      exact ⟨_,run,.blocked live' busy rfl ((congrArg Counter.eof counter).trans eof) at_ fresh last⟩
  | cons t rest =>
    rcases token_cases t with rfl | ⟨item,rfl⟩
    · exact counted.no_bad.elim
    obtain ⟨next,run,reads⟩ := resume_item peeking live.held.settle
    refine ⟨_,run,?_⟩
    by_cases goes : item = .eos
    · subst goes
      obtain ⟨counter,toks,held,only,settled⟩ := reads_end reads (endLast_eos (live.endLast last))
      exact deliver_end counter held only settled counted.eos_eof active (Nat.ne_of_gt some_) begun (fresh_sticky fresh)
    · obtain ⟨lit,m,live',settled⟩ := deliver_item live busy reads goes
      exact .ready live' settled rfl (fresh_deliver fresh begun goes next peeking) last

theorem handlerReads_eq (run : readStream w s.b peeking = .ok r) :
    handlerReads w s peeking = .ok (deliver s peeking r) := by
  rw [handlerReads,run]
  rfl

/-- So does one that reads or peeks. -/
theorem read_onward {lit : Nat} (live : Live w s lit m toks) (busy : s.reading = true)
    (settled : s.b.stop = s.b.cur + lit) (fresh : Fresh s) (last : EndLast (tokens w.int .plain s.arrived))
    (peeking : Bool) (here : s.b.eof = true → Drained w s.b → s.b.cur = s.b.inp) :
    ∃ r, readStream w s.b peeking = .ok r ∧ Onward w (deliver s peeking r) := by
  cases lit with
  | zero =>
    have counted := live.counted
    rw [busy] at counted
    obtain ⟨some_,active⟩ := counted.busy
    rw [readStream_resume peeking live.held settled (Nat.ne_of_gt some_) active]
    refine resume_onward live busy fresh last peeking fun none_ eof => ⟨here eof ?_,settled⟩
    exact (drained_iff live.held settled).mpr none_
  | succ lit =>
    obtain ⟨next,rest,rfl,run,reads⟩ := readStream_literal peeking live.held settled
    obtain ⟨lit,m,live',settled⟩ := deliver_item live busy reads (by simp)
    exact ⟨_,run,.ready live' settled rfl (fresh_deliver fresh (live.begun busy) (by simp) next peeking) last⟩

/-- Behind the end of the stream a reader gets it again. -/
theorem end_read (h : AtEnd w s toks) (peeking : Bool)
    (here : s.b.eof = true → Drained w s.b → s.b.cur = s.b.inp) :
    ∃ next, readStream w s.b peeking = .ok (next,some .eos) ∧ Onward w (deliver s peeking (next,some .eos)) := by
  obtain ⟨m,held⟩ := h.held
  rw [readStream_resume peeking held h.settled h.counted h.active]
  cases toks with
  | nil =>
    have at_ := here h.eof ((drained_iff held h.settled).mpr rfl)
    exact ⟨_,resume_here held h.eof at_ peeking,deliver_end rfl ⟨m,held⟩ h.only h.settled h.eof h.active h.counted
      h.begun h.sticky⟩
  | cons t rest =>
    obtain rfl : t = .eos := h.only t List.mem_cons_self
    have at_ : Holds w.int s.arrived (s.b.seek s.b.cur) 0 m (Item.eos.token :: rest) := held.settle
    obtain ⟨next,run,reads⟩ := resume_item peeking at_
    obtain ⟨counter,toks,held,only,settled⟩ := reads_end reads h.only
    exact ⟨next,run,deliver_end counter held only settled h.eof h.active h.counted h.begun h.sticky⟩

section Bad

variable {lit : Nat} {m : Mode} {toks rest : List Token}

theorem bad_first (bad : firstMarker toks = some .bad) :
    (∃ rest, toks = .bad :: rest) ∨ ∃ ch rest, toks = (Item.byte ch).token :: rest ∧ firstMarker rest = some .bad := by
  cases toks with
  | nil => cases bad
  | cons t rest =>
    cases t with
    | byte ch => exact .inr ⟨ch,rest,rfl,bad⟩
    | bad => exact .inl ⟨rest,rfl⟩
    | eom | eos => cases bad

/-- Bytes before an invalid escape are read, and the handler is no further from it. -/
theorem deliver_doomed {ch : UInt8} {next : InputBuf}
    (reads : Reads w.int s.arrived s.b next peeking (.byte ch) rest) (bad : firstMarker rest = some .bad)
    (eof : s.b.eof = true) (begun : s.handed ≠ []) (fresh : Fresh s) :
    Onward w (deliver s peeking (next,some (.byte ch))) := by
  obtain ⟨lit,m,held,settled,_⟩ := reads.contents
  have counter : next.counter = s.b.counter := by
    have := reads.counter
    cases peeking <;> exact this
  have eof' : next.eof = true := (congrArg Counter.eof counter).trans eof
  refine Onward.doomed ⟨⟨lit,m,held,settled⟩,?_,eof',rfl,fun _ => handed_deliver next peeking _ begun⟩ (held.idle eof')
    (fresh_deliver fresh begun (by simp) next peeking)
  cases peeking <;> exact bad

/-- A resumed handler that will stop at an invalid escape. -/
theorem resume_doomed (held : Holds w.int s.arrived s.b 0 m toks) (bad : firstMarker toks = some .bad)
    (eof : s.b.eof = true) (begun : s.handed ≠ []) (fresh : Fresh s)
    (run : resume w s.b peeking = .ok r) : Onward w (deliver s peeking r) := by
  rcases bad_first bad with ⟨rest,rfl⟩ | ⟨ch,rest,rfl,bad⟩
  · rw [resume_bad peeking held.settle] at run
    cases run
  · obtain ⟨next,run',reads⟩ := resume_item peeking held.settle
    obtain rfl := Except.ok.inj (run.symm.trans run')
    exact deliver_doomed reads bad eof begun fresh

theorem read_doomed (h : Doomed w s toks) (busy : s.reading = true) (fresh : Fresh s)
    (run : readStream w s.b peeking = .ok r) : Onward w (deliver s peeking r) := by
  obtain ⟨lit,m,held,settled⟩ := h.held
  cases lit with
  | zero =>
    obtain ⟨_,_,run⟩ := readStream_busy (Nat.not_lt.mpr (Nat.le_of_eq settled)) run
    exact resume_doomed held h.bad h.eof (h.begun busy) fresh run
  | succ lit =>
    obtain ⟨next,rest,rfl,run',reads⟩ := readStream_literal peeking held settled
    obtain rfl := Except.ok.inj (run.symm.trans run')
    exact deliver_doomed reads h.bad h.eof (h.begun busy) fresh

/-- A read that brings what a long message may not bring brings an invalid escape first. -/
theorem receive_doomed {bytes : List UInt8} {position size : Nat} {b : InputBuf} (live : Live w s lit m toks)
    (last : EndLast (tokens w.int .plain (s.arrived ++ bytes))) (pending : s.b.readPending = some (position,size))
    (fit : bytes.length ≤ size) (unsafe_ : ¬(s.b.longMsg = true → longSafe (newTokens w s bytes)))
    (run : ibufReadDone w (received s.b position bytes) bytes.length = .ok b) :
    Holds w.int (s.arrived ++ bytes) b lit m (toks ++ newTokens w s bytes) ∧
      firstMarker (toks ++ newTokens w s bytes) = some .bad ∧ b.eof = true ∧
      (s.b.stop = s.b.cur + lit → b.stop = b.cur + lit) := by
  obtain ⟨long,not_safe⟩ := Classical.not_imp.mp unsafe_
  have open_ : s.b.eof = false := (live.held.posted _ _ pending).1
  have some_ : bytes ≠ [] := by
    rintro rfl
    exact not_safe ⟨by simp [newTokens],by simp [newTokens]⟩
  have new : EndLast (newTokens w s bytes) := by
    rw [live.more] at last
    exact endLast_tail last
  have bad : firstMarker (newTokens w s bytes) = some .bad := by
    by_contra other
    exact not_safe ⟨other,endLast_eom new⟩
  have first : firstMarker (toks ++ newTokens w s bytes) = some .bad := by
    rw [firstMarker_append,live.counted.open_first open_ long]
    exact bad
  obtain ⟨b',run',held,counter,stop,_⟩ := ibufReadDone_spec w live.held pending fit some_
    (ibufReadDone_accepts w live.held pending fit some_ run)
  obtain rfl := Except.ok.inj (run.symm.trans run')
  refine ⟨held,first,?_,stop⟩
  have ended : (s.b.counter.arriveAll (newTokens w s bytes)).eof = true :=
    Counter.arriveAll_ended (.inr (firstMarker_mem bad))
  rcases counter with counter | ⟨_,counter,_⟩
  · exact (congrArg Counter.eof counter).trans ended
  · exact (congrArg Counter.eof counter).trans ended

end Bad

/-- A read that completes brings the handler no further than the end of the stream. -/
theorem receive_onward {lit : Nat} {bytes : List UInt8} {position size : Nat} {next : Chan}
    (live : Live w s lit m toks) (fresh : Fresh s) (last : EndLast (tokens w.int .plain (s.arrived ++ bytes)))
    (pending : s.b.readPending = some (position,size)) (fit : bytes.length ≤ size)
    (state : (s.waiting = none ∧ s.b.stop = s.b.cur + lit) ∨
      (∃ peeking, s.waiting = some peeking) ∧ s.reading = true ∧ lit = 0 ∧ toks = [] ∧ s.b.cur = s.b.inp ∧
        (bytes = [] → s.b.cur = s.b.stop))
    (run : channelReadDone w s bytes = .ok next) : Onward w next := by
  by_cases safe : s.b.longMsg = true → longSafe (newTokens w s bytes)
  · obtain ⟨b,done,later,stop,counter⟩ := receive_live live pending fit safe
    rw [channelReadDone_eq pending done] at run
    rcases state with ⟨waiting,settled⟩ | ⟨⟨peeking,waiting⟩,busy,rfl,rfl,here,closing⟩
    · rw [waiting] at run
      obtain rfl := Except.ok.inj run
      exact .ready later (stop settled) waiting fresh last
    · rw [waiting] at run
      have at_ : newTokens w s bytes = [] → b.eof = true → b.cur = b.inp ∧ b.stop = b.cur := by
        intro none_ eof
        have open_ : s.b.eof = false := (live.held.posted _ _ pending).1
        have empty : bytes = [] := by
          by_contra some_
          rcases counter with counter | ⟨_,_,open',_⟩
          · rw [countRead,if_neg some_,none_] at counter
            rw [show b.eof = s.b.eof from congrArg Counter.eof counter,open_] at eof
            cases eof
          · rw [open'] at eof
            cases eof
        subst empty
        have closed : ibufReadDone w (received s.b position []) 0 =
            .ok ((received s.b position []).setCounter s.b.counter.endOfStream) := by
          rw [ibufReadDone,if_pos rfl,ibufEof_eq]
          rfl
        obtain rfl := Except.ok.inj (done.symm.trans closed)
        exact ⟨here,(closing rfl).symm⟩
      obtain ⟨r,resumed,onward⟩ := resume_onward (s := receive s b bytes) later busy fresh last peeking at_
      obtain ⟨r',resumed',run⟩ := Code.bind_ok_iff.mp run
      obtain rfl := Except.ok.inj run
      obtain rfl := Except.ok.inj (resumed'.symm.trans resumed)
      exact onward
  · have done : ∃ b, ibufReadDone w (received s.b position bytes) bytes.length = .ok b := by
      simp only [channelReadDone,pending] at run
      obtain ⟨b,done,_⟩ := Code.bind_ok_iff.mp run
      exact ⟨b,done⟩
    obtain ⟨b,done⟩ := done
    rw [channelReadDone_eq pending done] at run
    obtain ⟨held,bad,eof,stop⟩ := receive_doomed live last pending fit safe done
    rcases state with ⟨waiting,settled⟩ | ⟨⟨peeking,waiting⟩,busy,rfl,rfl,here,closing⟩
    · rw [waiting] at run
      obtain rfl := Except.ok.inj run
      exact .doomed ⟨⟨lit,m,held,stop settled⟩,bad,eof,waiting,live.begun⟩ (held.idle eof) fresh
    · rw [waiting] at run
      obtain ⟨r,resumed,run⟩ := Code.bind_ok_iff.mp run
      obtain rfl := Except.ok.inj run
      exact resume_doomed (s := receive s b bytes) held bad eof (live.begun busy) fresh resumed

theorem log_started : log (started s) = log s := by simp [log,started]

/-- A step of a run that ends clean. -/
theorem step_onward {next : Chan} {e : Event} (h : Onward w s) (can : (onward w).enabled s e) (clean : EndsClean w s e)
    (run : (onward w).step s e = .ok next) : Onward w next := by
  cases h with
  | ready live settled waiting fresh last =>
    cases e with
    | arrive bytes =>
      obtain ⟨⟨position,size⟩,pending,fit⟩ := can
      exact receive_onward live fresh clean.1 pending fit (.inl ⟨waiting,settled⟩) run
    | start =>
      obtain ⟨triggered,rest,_⟩ := can
      have result := start_live live triggered rest
      cases eof : s.b.eof with
      | true =>
        rw [if_pos eof] at result
        obtain rfl := Except.ok.inj (run.symm.trans result)
        exact .refused rest (live.held.idle eof) (by simp) fresh
      | false =>
        rw [if_neg (by simp [eof])] at result
        obtain rfl := Except.ok.inj (run.symm.trans result.1)
        exact .ready result.2 settled waiting (fun entry inside => fresh entry (log_started ▸ inside)) last
    | read peeking =>
      have busy := can.1.resolve_right (fresh_not_saw fresh)
      obtain ⟨r,read,after⟩ := read_onward live busy settled fresh last peeking clean
      obtain rfl := Except.ok.inj (run.symm.trans (handlerReads_eq read))
      exact after
  | @blocked m peeking live reading waiting open_ here fresh last =>
    cases e with
    | arrive bytes =>
      obtain ⟨⟨position,size⟩,pending,fit⟩ := can
      exact receive_onward live fresh clean.1 pending fit
        (.inr ⟨⟨peeking,waiting⟩,reading,rfl,rfl,here,fun empty => clean.2 empty (by simp [waiting])⟩) run
    | start => exact absurd can.2.1 (by simp [reading])
    | read peeking => exact absurd can.2 (by simp [waiting])
  | refused reading idle rest fresh =>
    cases e with
    | arrive bytes =>
      obtain ⟨posted,pending,_⟩ := can
      rw [idle] at pending
      cases pending
    | start => exact absurd can.1 rest
    | read peeking => exact absurd (can.1.resolve_right (fresh_not_saw fresh)) (by simp [reading])
  | doomed bad idle fresh =>
    cases e with
    | arrive bytes =>
      obtain ⟨posted,pending,_⟩ := can
      rw [idle] at pending
      cases pending
    | start =>
      obtain ⟨triggered,rest,_⟩ := can
      have refused : handleChannelMsg s = .ok { s with b := { s.b with handlingMsg := .idle } } := by
        obtain ⟨_,run⟩ := Code.require_bind_ok.mp run
        obtain ⟨some_,_⟩ := Code.require_bind_ok.mp run
        simp [handleChannelMsg,ibufStartMessage,require_true triggered,some_,bad.eof]
      obtain rfl := Except.ok.inj (run.symm.trans refused)
      exact .refused rest idle (by simp) fresh
    | read peeking =>
      have busy := can.1.resolve_right (fresh_not_saw fresh)
      obtain ⟨r,read,run⟩ := Code.bind_ok_iff.mp run
      obtain rfl := Except.ok.inj run
      exact read_doomed bad busy fresh read
  | ended at_ idle =>
    cases e with
    | arrive bytes =>
      obtain ⟨posted,pending,_⟩ := can
      rw [idle] at pending
      cases pending
    | start => exact absurd can.1 (by simp [at_.active])
    | read peeking =>
      obtain ⟨_,read,after⟩ := end_read at_ peeking clean
      obtain rfl := Except.ok.inj (run.symm.trans (handlerReads_eq read))
      exact after

theorem initial_onward : Onward w (initial w) :=
  .ready initial_live rfl rfl (by simp [Fresh,log,initial]) (by simp [initial,EndLast])

/-- In a run that ends clean, whatever reads behind the end of the stream gets the end of the stream. -/
theorem end_of_stream_sticky {events : List Event} (run : (onward w).exec (initial w) events = .ok s)
    (meets : (onward w).Meets (EndsClean w) (initial w) events) :
    Sticky (log s) ∧ ((∃ entry ∈ log s, entry.2 = .eos) → ∀ peeking, EndsClean w s (.read peeking) →
      ∃ b, readStream w s.b peeking = .ok (b,some .eos)) := by
  have reached := (onward w).exec_invariant (Onward w)
    (fun _ _ _ before can clean step => step_onward before can clean step) initial_onward run meets
  have unread (fresh : Fresh s) : Sticky (log s) ∧ ((∃ entry ∈ log s, entry.2 = .eos) → ∀ peeking,
      EndsClean w s (.read peeking) → ∃ b, readStream w s.b peeking = .ok (b,some .eos)) := by
    refine ⟨fresh_sticky fresh,?_⟩
    rintro ⟨entry,inside,end_⟩
    exact absurd end_ (fresh entry inside)
  cases reached with
  | ready live settled waiting fresh last => exact unread fresh
  | blocked live reading waiting open_ here fresh last => exact unread fresh
  | refused reading idle rest fresh => exact unread fresh
  | doomed bad idle fresh => exact unread fresh
  | ended at_ idle =>
    refine ⟨at_.sticky,fun _ peeking clean => ?_⟩
    obtain ⟨b,read,_⟩ := end_read at_ peeking clean
    exact ⟨b,read⟩

/-- A long message in a buffer of 256 bytes, cut off when its reader waits. -/
theorem end_of_stream_sticky_long :
    ∃ s, (onward targetBuild).exec (initial targetBuild) (longMessage ++ [.arrive [],.read true,.read false]) = .ok s ∧
      (∃ entry ∈ log s, entry.2 = .eos) ∧ Sticky (log s) := by
  have saw : ∃ s, (onward targetBuild).exec (initial targetBuild) (longMessage ++ [.arrive [],.read true,.read false]) =
      .ok s ∧ ∃ entry ∈ log s, entry.2 = .eos := by decide +kernel
  obtain ⟨s,run,saw⟩ := saw
  exact ⟨s,run,saw,(end_of_stream_sticky run (by decide +kernel)).1⟩

/-- A message as long as the buffer: its last two bytes follow an escape, and are the last of the buffer. -/
def endsWithBuffer : List Event :=
  .arrive (List.replicate 252 65 ++ [3,0,66]) :: .start :: .read false :: .arrive [67] ::
    List.replicate 254 (.read false) ++ [.arrive [],.read false]

/-- Its first byte is read again behind the end of the stream. -/
theorem old_byte_behind_end :
    ∃ s, (onward targetBuild).exec (initial targetBuild) (endsWithBuffer ++ [.read false]) = .ok s ∧
      (log s).drop 255 = [(false,.eos),(false,.byte 65)] ∧ ¬Sticky (log s) := by
  have seen : ∃ s, (onward targetBuild).exec (initial targetBuild) (endsWithBuffer ++ [.read false]) = .ok s ∧
      (log s).drop 255 = [(false,.eos),(false,.byte 65)] := by decide +kernel
  obtain ⟨s,run,tail⟩ := seen
  refine ⟨s,run,tail,fun sticky => ?_⟩
  have last := sticky.sublist (List.drop_sublist 255 _)
  rw [tail] at last
  simp at last

end Tcf.ChannelInput
