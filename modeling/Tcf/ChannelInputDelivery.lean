import Tcf.Base.Terminated
import Tcf.ChannelInputSafety

/-! Which messages are handed out before the end of a well formed stream. -/
namespace Tcf.ChannelInput

open Framing InputBuf Terminated

/-- Messages, then an end of stream or a closed connection. Where a message ends, its
bytes end. -/
structure MessageStream (int : IntShift) where
  body : List UInt8
  messages : List (List UInt8)
  marked : Bool
  plain : after int .plain body = .plain
  decoded : tokens int .plain body = sequence .byte .eom messages
  tight : ∀ front last, body = front ++ [last] → tokens int .plain front ≠ tokens int .plain body

namespace MessageStream

variable {int : IntShift} (stream : MessageStream int)

def bytes : List UInt8 := stream.body ++ if stream.marked then [ESC,2] else []

def ending : List Token := if stream.marked then [.eos] else []

theorem ending_clean : .eom ∉ stream.ending ∧ .bad ∉ stream.ending := by
  unfold ending
  split <;> simp

theorem tokens_bytes : tokens int .plain stream.bytes = sequence .byte .eom stream.messages ++ stream.ending := by
  rw [bytes,tokens_append,stream.plain,stream.decoded]
  unfold ending
  split <;> rfl

theorem bytes_length : stream.bytes.length ≤ stream.body.length + 2 := by
  rw [bytes,List.length_append]
  split <;> simp

theorem byte_ne_eom (ch : UInt8) : Token.byte ch ≠ .eom := nofun

theorem byte_injective : Function.Injective Token.byte := fun _ _ same => Token.byte.inj same

variable {front : List UInt8}

/-- What is missing of the body holds an end of message. -/
theorem missing_eom {back : List UInt8} (split : stream.body = front ++ back) (some_ : back ≠ []) :
    .eom ∈ tokens int (after int .plain front) back := by
  have whole := stream.decoded
  rw [split,tokens_append] at whole
  refine suffix_mark whole.symm ?_
  intro none_
  obtain ⟨early,last,rfl⟩ : ∃ early last, back = early ++ [last] :=
    ⟨back.dropLast,back.getLast some_,(List.dropLast_append_getLast some_).symm⟩
  refine stream.tight (front ++ early) last (by rw [split,List.append_assoc]) ?_
  rw [split,tokens_append,tokens_append int .plain front,none_]
  rw [tokens_append] at none_
  rw [(List.append_eq_nil_iff.mp none_).1]

/-- A short front part of the stream is a front part of its body. -/
theorem front_body (h : front <+: stream.bytes)
    (short : front.length < stream.body.length) : ∃ back, stream.body = front ++ back ∧ back ≠ [] := by
  obtain ⟨back,split⟩ := List.prefix_of_prefix_length_le h (List.prefix_append ..) (Nat.le_of_lt short)
  refine ⟨back,split.symm,?_⟩
  rintro rfl
  rw [← split,List.append_nil] at short
  exact Nat.lt_irrefl _ short

theorem body_front (h : front <+: stream.bytes)
    (long : stream.body.length ≤ front.length) : ∃ back, front = stream.body ++ back ∧ back.length ≤ 2 := by
  obtain ⟨back,split⟩ := List.prefix_of_prefix_length_le (List.prefix_append ..) h long
  have bound := h.length_le
  have total := stream.bytes_length
  rw [← split,List.length_append] at bound
  exact ⟨back,split.symm,by omega⟩

/-- Before the body is complete nothing ends the stream. -/
theorem front_clean (h : front <+: stream.bytes)
    (short : front.length < stream.body.length) :
    .eos ∉ tokens int .plain front ∧ .bad ∉ tokens int .plain front := by
  obtain ⟨back,split,_⟩ := stream.front_body h short
  have sub := (tokens_front int .plain (⟨back,split.symm⟩ : front <+: stream.body)).subset
  rw [stream.decoded] at sub
  constructor <;> intro member <;> simpa [Terminated.sequence,terminated] using sub member

theorem front_no_bad (h : front <+: stream.bytes) : .bad ∉ tokens int .plain front := by
  intro member
  have member := (tokens_front int .plain h).subset member
  rw [stream.tokens_bytes] at member
  rcases List.mem_append.mp member with inside | last
  · simp [Terminated.sequence,terminated] at inside
  · exact stream.ending_clean.2 last

end MessageStream

variable {w : Build} (stream : MessageStream w.int)

/-- Reads deliver the stream, and the connection closes only at its end. -/
def Follows (s : Chan) : Event → Prop
  | .arrive bytes => s.arrived ++ bytes <+: stream.bytes ∧ (bytes = [] → s.arrived = stream.bytes)
  | _ => True

/-- When a read brings the end of the stream, every message completed by then, in that
read or before, has been handed out already. -/
def Timely (w : Build) (s : Chan) : Event → Prop
  | .arrive bytes => bytes = [] ∨ .eos ∈ newTokens w s bytes →
      (tokens w.int .plain (s.arrived ++ bytes)).count .eom ≤ s.handed.length
  | _ => True

instance (s : Chan) (e : Event) : Decidable (Follows stream s e) :=
  match e with
  | .arrive bytes => inferInstanceAs
      (Decidable (s.arrived ++ bytes <+: stream.bytes ∧ (bytes = [] → s.arrived = stream.bytes)))
  | .start => isTrue trivial
  | .read _ => isTrue trivial

instance (w : Build) (s : Chan) (e : Event) : Decidable (Timely w s e) :=
  match e with
  | .arrive bytes => inferInstanceAs (Decidable (bytes = [] ∨ .eos ∈ newTokens w s bytes →
      (tokens w.int .plain (s.arrived ++ bytes)).count .eom ≤ s.handed.length))
  | .start => isTrue trivial
  | .read _ => isTrue trivial

structure OnStream (s : Chan) : Prop where
  front : s.arrived <+: stream.bytes
  long : s.b.longMsg = true → s.arrived.length < stream.body.length
  ended : s.b.eof = true → stream.body.length ≤ s.arrived.length
  started : s.b.eof = true → (tokens w.int .plain s.arrived).count .eom ≤ s.handed.length
  kept : ∃ toks, replay (log s) (tokens w.int .plain s.arrived) = some toks
  shaped : Shaped s.reading s.handed

variable {stream} {s : Chan} {lit : Nat} {m : Mode} {toks : List Token}

/-- In a well formed stream the next marker after part of a message ends that message. -/
theorem OnStream.longSafe (on : OnStream stream s) (h : Live w s lit m toks) {bytes : List UInt8}
    (follows : Follows stream s (.arrive bytes)) (long : s.b.longMsg = true) :
    longSafe (newTokens w s bytes) := by
  obtain ⟨back,split,some_⟩ := stream.front_body on.front (on.long long)
  have missing := stream.missing_eom split some_
  have whole := stream.decoded
  rw [split,tokens_append] at whole
  have clean : .eos ∉ tokens w.int (after w.int .plain s.arrived) back ∧
      .bad ∉ tokens w.int (after w.int .plain s.arrived) back := by
    constructor
    all_goals
      intro member
      have member := List.mem_append_right (tokens w.int .plain s.arrived) member
      rw [whole] at member
      simp [Terminated.sequence,terminated] at member
  have new : newTokens w s bytes = tokens w.int (after w.int .plain s.arrived) bytes := by
    rw [newTokens,h.mode]
  rw [new]
  have both : bytes <+: back ∨ back <+: bytes := by
    have first : s.arrived ++ back <+: stream.bytes := split ▸ List.prefix_append ..
    rcases List.prefix_or_prefix_of_prefix follows.1 first with shorter | longer
    · exact .inl (List.prefix_append_right_inj _ |>.mp shorter)
    · exact .inr (List.prefix_append_right_inj _ |>.mp longer)
  rcases both with shorter | longer
  · have sub := (tokens_front w.int (after w.int .plain s.arrived) shorter).subset
    refine ⟨fun bad => clean.2 (sub (firstMarker_mem bad)),fun eos => ?_⟩
    exact absurd (sub (firstMarker_mem eos)) clean.1
  · obtain ⟨rest,rfl⟩ := longer
    have first : firstMarker (tokens w.int (after w.int .plain s.arrived) (back ++ rest)) = some .eom := by
      rw [tokens_append,firstMarker_append,firstMarker_eom clean.1 clean.2 missing]
      rfl
    exact ⟨by simp [first],by simp [first]⟩

theorem receive_onStream (on : OnStream stream s) (h : Live w s lit m toks) {b : InputBuf} {bytes : List UInt8}
    (open_ : s.b.eof = false) (follows : Follows stream s (.arrive bytes)) (timely : Timely w s (.arrive bytes))
    {more : List Token} (later : Live w (receive s b bytes) lit m more)
    (counter : Recounted w s bytes b) : OnStream stream (receive s b bytes) := by
  have ends : b.eof = true → bytes = [] ∨ .eos ∈ newTokens w s bytes := by
    intro eof
    rcases counter with counter | ⟨_,_,still,_⟩
    · by_cases empty : bytes = []
      · exact .inl empty
      · have eof' : (countRead s.b.counter bytes (newTokens w s bytes)).eof = true :=
          (congrArg Counter.eof counter).symm.trans eof
        rw [countRead,if_neg empty] at eof'
        rcases Counter.arriveAll_eof eof' with before | eos | bad
        · exact absurd before (by simp [InputBuf.counter,open_])
        · exact .inr eos
        · refine absurd ?_ (stream.front_no_bad follows.1)
          rw [h.more]
          exact List.mem_append_right _ bad
    · rw [still] at eof
      cases eof
  refine ⟨follows.1,?_,?_,fun eof => timely (ends eof),⟨_,later.replayed⟩,h.shaped⟩
  · intro long
    rcases counter with counter | ⟨rest,_,_,full⟩
    · have long' : (countRead s.b.counter bytes (newTokens w s bytes)).longMsg = true :=
        (congrArg Counter.longMsg counter).symm.trans long
      by_cases empty : bytes = []
      · rw [countRead,if_pos empty,Counter.endOfStream_long] at long'
        rw [empty]
        simpa [receive] using on.long long'
      · rw [countRead,if_neg empty] at long'
        obtain ⟨before,none_⟩ := Counter.arriveAll_long long'
        obtain ⟨back,split,some_⟩ := stream.front_body on.front (on.long before)
        by_contra enough
        obtain ⟨rest,all,_⟩ := stream.body_front follows.1 (Nat.le_of_not_lt enough)
        rw [split,List.append_assoc,List.append_cancel_left_eq] at all
        refine none_ ?_
        rw [newTokens,h.mode,all,tokens_append]
        exact List.mem_append_left _ (stream.missing_eom split some_)
    · by_contra enough
      obtain ⟨rest_,all,small⟩ := stream.body_front follows.1 (Nat.le_of_not_lt enough)
      obtain rfl : lit = 0 := later.between rest
      obtain ⟨front,whole,mode⟩ := later.held.scan
      have large : 128 ≤ b.bufSize := later.held.large
      have unread : (ahead b (b.cur + 0)).length = span b b.cur := ahead_length b b.cur
      change front ++ ahead b (b.cur + 0) = s.arrived ++ bytes at whole
      -- the unread bytes are too many to lie behind the body, so they end its last message
      have lengths := congrArg List.length (whole.trans all)
      simp only [List.length_append,unread] at lengths
      have first : front <+: stream.bytes :=
        List.IsPrefix.trans ⟨_,whole⟩ follows.1
      obtain ⟨back,split,some_⟩ := stream.front_body first (by omega)
      have missing := stream.missing_eom split some_
      rw [all,split,List.append_assoc,List.append_cancel_left_eq] at whole
      have none_ : .eom ∉ more := (later.counted.long long).1
      refine none_ ?_
      have toks : tokens w.int m (ahead b (b.cur + 0)) = more := later.held.toks
      rw [← toks,whole,tokens_append,← mode]
      exact List.mem_append_left _ missing
  · intro eof
    rcases ends eof with rfl | eos
    · change stream.body.length ≤ (s.arrived ++ []).length
      rw [follows.2 rfl,List.append_nil,MessageStream.bytes,List.length_append]
      omega
    · by_contra short
      refine (stream.front_clean follows.1 (Nat.lt_of_not_le short)).1 ?_
      rw [h.more]
      exact List.mem_append_right _ eos

/-- In a well formed stream no handler gets an end of stream inside a message. -/
theorem OnStream.not_over (on : OnStream stream s) (h : Live w s lit m toks) (busy : s.reading = true)
    (eof : s.b.eof = true) (first : toks = [] ∨ ∃ rest, toks = .eos :: rest) : False := by
  have counted := h.counted
  rw [busy] at counted
  have short : s.b.longMsg = false := by
    cases long : s.b.longMsg with
    | false => rfl
    | true => exact absurd (on.ended eof) (Nat.not_le_of_lt (on.long long))
  have found := counted.complete rfl short
  rcases first with rfl | ⟨rest,rfl⟩ <;> cases found

theorem record_length (handed : List (List Got)) (entry : Got) : (record handed entry).length = handed.length := by
  cases handed <;> rfl

theorem deliver_handed (s : Chan) (peeking : Bool) (r : InputBuf × Option Item) :
    (deliver s peeking r).handed.length = s.handed.length := by
  obtain ⟨b,item⟩ := r
  cases item with
  | none => rfl
  | some item => exact record_length ..

theorem asked_onStream (on : OnStream stream s) (h : Live w s lit m toks) (busy : s.reading = true)
    {peeking : Bool} {r : InputBuf × Option Item} (asked : Asked w s toks peeking (deliver s peeking r)) :
    OnStream stream (deliver s peeking r) := by
  have handed := deliver_handed s peeking r
  generalize deliver s peeking r = next at asked handed
  cases asked with
  | item item rest first goes live settled waiting arrived counter =>
    have same : next.b.longMsg = s.b.longMsg ∧ next.b.eof = s.b.eof := by
      have long := congrArg Counter.longMsg counter
      have eof := congrArg Counter.eof counter
      cases peeking with
      | true => exact ⟨long,eof⟩
      | false => exact ⟨by cases item <;> exact long,eof.trans (Counter.read_eof ..)⟩
    refine ⟨arrived ▸ on.front,?_,?_,?_,⟨_,live.replayed⟩,live.shaped⟩
    · rw [same.1,arrived]
      exact on.long
    · rw [same.2,arrived]
      exact on.ended
    · rw [same.2,arrived,handed]
      exact on.started
  | ended eof first => exact (on.not_over h busy eof first).elim
  | blocked live reading waiting open_ posted none_ arrived counter =>
    have long : next.b.longMsg = s.b.longMsg := congrArg Counter.longMsg counter
    refine ⟨arrived ▸ on.front,?_,?_,?_,⟨_,live.replayed⟩,live.shaped⟩
    · rw [long,arrived]
      exact on.long
    · rw [open_]
      exact nofun
    · rw [open_]
      exact nofun

theorem Took.onStream (on : OnStream stream s) {e : Event} {next : Chan} (took : Took w s e next)
    (follows : Follows stream s e) (timely : Timely w s e) : OnStream stream next := by
  cases took with
  | received live waiting open_ later settled counter =>
    exact receive_onStream on live open_ follows timely later counter
  | resumed live reading waiting open_ later counter asked =>
    exact asked_onStream (receive_onStream on live open_ follows timely later counter) later reading asked
  | refused live rest eof => exact ⟨on.front,on.long,on.ended,on.started,on.kept,on.shaped⟩
  | started live waiting rest open_ later settled =>
    refine ⟨on.front,on.long,on.ended,?_,⟨_,later.replayed⟩,later.shaped⟩
    intro ended
    rw [show s.b.eof = true from ended] at open_
    cases open_
  | asked live busy waiting asked => exact asked_onStream on live busy asked

theorem step_onStream (sound : Sound w s) (on : OnStream stream s) {e : Event}
    (can : (process w).enabled s e) (follows : Follows stream s e) (timely : Timely w s e) :
    ∃ next, (process w).step s e = .ok next ∧ Sound w next ∧ OnStream stream next := by
  have safe : LongSafe w s e := by
    obtain ⟨_,_,_,live⟩ := sound.live can
    cases e with
    | arrive bytes => exact on.longSafe live follows
    | start => trivial
    | read peeking => trivial
  obtain ⟨next,run,took⟩ := step_took sound can safe
  exact ⟨next,run,took.sound,took.onStream on follows timely⟩

/-- A message as its handler reads it. -/
def wanted (message : List UInt8) : List Item := message.map .byte ++ [.eom]

/-- What the handlers read, message by message, oldest first. -/
def handedOut (s : Chan) : List (List Item) := s.handed.reverse.map readsOf

/-- The messages handed out are the first of the stream, in order: each was read to its
end, except that the last may still be being read. -/
def InOrder (messages : List (List UInt8)) (s : Chan) : Prop :=
  if s.reading then ∃ past message rest current, messages = past ++ message :: rest ∧
    handedOut s = past.map wanted ++ [current] ∧ current <+: wanted message
  else handedOut s <+: messages.map wanted

theorem shaped_wanted {handed : List (List Got)} (h : Shaped false handed) :
    ∃ past : List (List UInt8), handed.reverse.map readsOf = past.map wanted := by
  induction handed with
  | nil => exact ⟨[],rfl⟩
  | cons entries rest ih =>
    have all := shaped_old.mp h
    obtain ⟨bytes,reads⟩ := all entries (List.mem_cons_self ..)
    obtain ⟨past,earlier⟩ := ih (shaped_old.mpr fun e member => all e (List.mem_cons_of_mem _ member))
    exact ⟨past ++ [bytes],by simp [earlier,reads,wanted]⟩

theorem readsOf_flatten (lists : List (List Got)) : readsOf lists.flatten = (lists.map readsOf).flatten := by
  exact List.filterMap_flatten

theorem wanted_tokens (past : List (List UInt8)) :
    (past.map wanted).flatten.map Item.token = sequence Token.byte .eom past := by
  induction past with
  | nil => rfl
  | cons message rest ih =>
    rw [sequence_cons,← ih]
    simp [wanted,Item.token,Function.comp_def]

/-- Between messages, everything handed out is the first part of the stream. -/
theorem between_inOrder (on : OnStream stream s) (rest : s.reading = false) :
    ∃ past later, stream.messages = past ++ later ∧ handedOut s = past.map wanted := by
  have shaped := on.shaped
  rw [rest] at shaped
  obtain ⟨past,reads⟩ := shaped_wanted shaped
  obtain ⟨toks,kept⟩ := on.kept
  have whole := replay_reads kept
  rw [log,readsOf_flatten,reads,wanted_tokens] at whole
  have front := tokens_front w.int .plain on.front
  rw [stream.tokens_bytes,whole] at front
  obtain ⟨later,split,_⟩ := sequence_prefix MessageStream.byte_ne_eom MessageStream.byte_injective
    stream.ending_clean.1 front
  exact ⟨past,later,split,reads⟩

/-- A handler reads the message after those already read. -/
theorem reading_inOrder (on : OnStream stream s) (h : Live w s lit m toks) (busy : s.reading = true) :
    ∃ past message later current, stream.messages = past ++ message :: later ∧
      handedOut s = past.map wanted ++ [current] ∧ current <+: wanted message := by
  have shaped := on.shaped
  have counted := h.counted
  rw [busy] at shaped counted
  obtain ⟨entries,earlier,handed⟩ := shaped_cons shaped
  rw [handed] at shaped
  obtain ⟨⟨bytes,soFar⟩,old⟩ := shaped
  obtain ⟨past,reads⟩ := shaped_wanted old
  have got : handedOut s = past.map wanted ++ [bytes.map .byte] := by simp [handedOut,handed,reads,soFar]
  have whole := replay_reads h.replayed
  rw [log,readsOf_flatten] at whole
  change tokens w.int .plain s.arrived = (handedOut s).flatten.map Item.token ++ toks at whole
  rw [got,List.flatten_append,List.map_append,wanted_tokens,List.append_assoc] at whole
  have front := tokens_front w.int .plain on.front
  rw [stream.tokens_bytes,whole] at front
  obtain ⟨later,split,begun⟩ := sequence_prefix MessageStream.byte_ne_eom MessageStream.byte_injective
    stream.ending_clean.1 front
  cases later with
  | nil =>
    -- a message past the last one would need one more end of message
    exfalso
    cases long : s.b.longMsg with
    | false =>
      have eom := firstMarker_mem (counted.complete rfl long)
      exact stream.ending_clean.1 (begun.subset (List.mem_append_right _ eom))
    | true =>
      obtain ⟨back,rest,some_⟩ := stream.front_body on.front (on.long long)
      have total := congrArg (List.count Token.eom) stream.decoded
      have missing := List.count_pos_iff.mpr (stream.missing_eom rest some_)
      rw [count_sequence MessageStream.byte_ne_eom,split,List.append_nil,rest,tokens_append,
        List.count_append,whole,List.count_append,count_sequence MessageStream.byte_ne_eom] at total
      omega
  | cons message later =>
    refine ⟨past,message,later,_,split,got,?_⟩
    rw [sequence_cons,List.append_assoc,List.cons_append] at begun
    have bytes_first : bytes.map Token.byte <+: message.map Token.byte ++ .eom :: (sequence .byte .eom later ++
        stream.ending) := by
      refine List.IsPrefix.trans ⟨toks,?_⟩ begun
      simp [Item.token,Function.comp_def]
    have first := begun_prefix MessageStream.byte_ne_eom MessageStream.byte_injective bytes_first
    obtain ⟨rest,rfl⟩ := first
    exact ⟨rest.map .byte ++ [.eom],by simp [wanted]⟩

/-- A live state and what it leaves hand out messages in order, and all of them once the
stream has ended. -/
theorem sound_delivered (sound : Sound w s) (on : OnStream stream s) :
    InOrder stream.messages s ∧ (s.b.eof = true → s.handed.length = stream.messages.length) := by
  have order : InOrder stream.messages s ∧ s.handed.length ≤ stream.messages.length := by
    have length : (handedOut s).length = s.handed.length := by simp [handedOut]
    cases rest : s.reading with
    | false =>
      obtain ⟨past,later,split,got⟩ := between_inOrder on rest
      rw [InOrder,if_neg (by simp [rest]),← length,got,split]
      exact ⟨⟨later.map wanted,by simp⟩,by simp⟩
    | true =>
      have live : ∃ lit m toks, Live w s lit m toks := by
        rcases sound with ⟨live,_,_⟩ | ⟨live,_,_,_,_⟩ | ⟨_,none_,_,_⟩
        · exact ⟨_,_,_,live⟩
        · exact ⟨_,_,_,live⟩
        · rw [rest] at none_
          cases none_
      obtain ⟨lit,m,toks,live⟩ := live
      obtain ⟨past,message,later,current,split,got,begun⟩ := reading_inOrder on live rest
      rw [InOrder,if_pos rest]
      refine ⟨⟨past,message,later,current,split,got,begun⟩,?_⟩
      rw [← length,got,split]
      simp
  refine ⟨order.1,fun eof => Nat.le_antisymm order.2 ?_⟩
  obtain ⟨back,whole,_⟩ := stream.body_front on.front (on.ended eof)
  refine Nat.le_trans ?_ (on.started eof)
  rw [whole,tokens_append,stream.decoded,List.count_append,count_sequence MessageStream.byte_ne_eom]
  omega

/-- In every run over a well formed stream in which each message has been handed out when
its end of stream is read, the messages handed out are those of the stream, in order,
and all of them when it has ended. -/
theorem exec_delivers (stream : MessageStream w.int) (events : List Event) {final : Chan}
    (run : (process w).exec (initial w) events = .ok final)
    (meets : (process w).Meets (fun s e => Follows stream s e ∧ Timely w s e) (initial w) events) :
    InOrder stream.messages final ∧
      (final.b.eof = true → final.handed.length = stream.messages.length) := by
  have start : OnStream stream (initial w) := by
    refine ⟨List.nil_prefix,nofun,nofun,nofun,⟨_,initial_live.replayed⟩,?_⟩
    exact initial_live.shaped
  have result := (process w).exec_invariant (fun s => Sound w s ∧ OnStream stream s) ?_
    ⟨.ready initial_live rfl rfl,start⟩ run meets
  · exact sound_delivered result.1 result.2
  · intro s e next ⟨sound,on⟩ can ⟨follows,timely⟩ step
    obtain ⟨same,ok,result⟩ := step_onStream sound on can follows timely
    rw [ok] at step
    exact Except.ok.inj step ▸ result

/-- One message of one byte, then the end of the stream. -/
def greeting : MessageStream targetBuild.int where
  body := [65,3,1]
  messages := [[65]]
  marked := true
  plain := by decide
  decoded := by decide
  tight := by
    intro front last split
    obtain rfl : front = [65,3] := by simpa using (congrArg List.dropLast split).symm
    decide

theorem exec_delivers_greeting :
    ∃ final, (process targetBuild).exec (initial targetBuild)
        [.arrive [65,3,1],.start,.arrive [3,2],.read false,.read false] = .ok final ∧
      InOrder greeting.messages final ∧
        (final.b.eof = true → final.handed.length = greeting.messages.length) := by
  obtain ⟨final,run,_⟩ : ∃ final, (process targetBuild).exec (initial targetBuild)
      [.arrive [65,3,1],.start,.arrive [3,2],.read false,.read false] = .ok final ∧ final.b.eof = true := by
    decide +kernel
  exact ⟨final,run,exec_delivers greeting _ run (by decide +kernel)⟩

/-- When the message and the end of the stream arrive in one read, the message is never
handed out: its start is refused, and nothing else can happen. -/
theorem eof_drops_message :
    (process targetBuild).Meets (Follows greeting) (initial targetBuild) [.arrive [65,3,1,3,2],.start] ∧
    ∃ final, (process targetBuild).exec (initial targetBuild) [.arrive [65,3,1,3,2],.start] = .ok final ∧
      (final.b.eof = true ∧ final.handed.length ≠ greeting.messages.length ∧ final.reading = false ∧
        final.b.handlingMsg = .idle ∧ final.b.readPending = none) := by
  constructor <;> decide +kernel

end Tcf.ChannelInput
