import Tcf.ChannelInputLive

/-! Runs of the input side: when no assertion of the input buffer fails. -/
namespace Tcf.ChannelInput

open Framing InputBuf

variable {w : Build}

/-- States between steps. A refused or finished handler leaves nothing to do. -/
inductive Sound (w : Build) (s : Chan) : Prop
  | ready {lit : Nat} {m : Mode} {toks : List Token} (live : Live w s lit m toks)
      (settled : s.b.stop = s.b.cur + lit) (waiting : s.waiting = none)
  | blocked {m : Mode} {peeking : Bool} (live : Live w s 0 m []) (reading : s.reading = true)
      (waiting : s.waiting = some peeking) (open_ : s.b.eof = false) (posted : s.b.readPending.isSome)
  | ended (eof : s.b.eof = true) (reading : s.reading = false) (idle : s.b.readPending = none)
      (rest : s.b.handlingMsg ≠ .triggered)

/-- A read delivered while a long message is open may neither bring an invalid escape
before the end of that message, nor an end of stream with the end of the message after it. -/
def LongSafe (w : Build) (s : Chan) : Event → Prop
  | .arrive bytes => s.b.longMsg = true → longSafe (newTokens w s bytes)
  | _ => True

instance (w : Build) (s : Chan) (e : Event) : Decidable (LongSafe w s e) :=
  match e with
  | .arrive bytes => inferInstanceAs (Decidable (s.b.longMsg = true → longSafe (newTokens w s bytes)))
  | .start => isTrue trivial
  | .read _ => isTrue trivial

theorem channelReadDone_eq {s : Chan} {b : InputBuf} {bytes : List UInt8} {position size : Nat}
    (pending : s.b.readPending = some (position,size))
    (run : ibufReadDone w (received s.b position bytes) bytes.length = .ok b) :
    channelReadDone w s bytes = match s.waiting with
      | none => .ok (receive s b bytes)
      | some peeking => resume w b peeking >>= fun r => .ok (deliver (receive s b bytes) peeking r) := by
  simp only [channelReadDone,pending,run,Code.ok_bind]
  rfl

/-- A handler has started. -/
def started (s : Chan) : Chan :=
  { s with b := { s.b with handlingMsg := .active }, reading := true, handed := [] :: s.handed }

/-- The count after a read, or a long message started in a full buffer between messages. -/
def Recounted (w : Build) (s : Chan) (bytes : List UInt8) (b : InputBuf) : Prop :=
  b.counter = countRead s.b.counter bytes (newTokens w s bytes) ∨
    (s.reading = false ∧ b.longMsg = true ∧ b.eof = false ∧ span b b.cur + 1 = b.bufSize)

/-- What a step does. -/
inductive Took (w : Build) (s : Chan) : Event → Chan → Prop
  | received {lit : Nat} {m : Mode} {toks : List Token} {bytes : List UInt8} {b : InputBuf}
      (live : Live w s lit m toks) (waiting : s.waiting = none) (open_ : s.b.eof = false)
      (later : Live w (receive s b bytes) lit m (toks ++ newTokens w s bytes))
      (settled : b.stop = b.cur + lit) (counter : Recounted w s bytes b) :
      Took w s (.arrive bytes) (receive s b bytes)
  | resumed {m : Mode} {bytes : List UInt8} {b : InputBuf} {peeking : Bool} {r : InputBuf × Option Item}
      (live : Live w s 0 m []) (reading : s.reading = true) (waiting : s.waiting = some peeking)
      (open_ : s.b.eof = false) (later : Live w (receive s b bytes) 0 m (newTokens w s bytes))
      (counter : Recounted w s bytes b)
      (asked : Asked w (receive s b bytes) (newTokens w s bytes) peeking
        (deliver (receive s b bytes) peeking r)) :
      Took w s (.arrive bytes) (deliver (receive s b bytes) peeking r)
  | refused {lit : Nat} {m : Mode} {toks : List Token} (live : Live w s lit m toks)
      (rest : s.reading = false) (eof : s.b.eof = true) :
      Took w s .start { s with b := { s.b with handlingMsg := .idle } }
  | started {lit : Nat} {m : Mode} {toks : List Token} (live : Live w s lit m toks)
      (waiting : s.waiting = none) (rest : s.reading = false) (open_ : s.b.eof = false)
      (later : Live w (started s) lit m toks) (settled : s.b.stop = s.b.cur + lit) :
      Took w s .start (started s)
  | asked {lit : Nat} {m : Mode} {toks : List Token} {peeking : Bool} {r : InputBuf × Option Item}
      (live : Live w s lit m toks) (busy : s.reading = true) (waiting : s.waiting = none)
      (asked : Asked w s toks peeking (deliver s peeking r)) :
      Took w s (.read peeking) (deliver s peeking r)

/-- Something can happen only in a live state. -/
theorem Sound.live {s : Chan} (h : Sound w s) {e : Event} (can : (process w).enabled s e) :
    ∃ lit m toks, Live w s lit m toks := by
  rcases h with ⟨live,_,_⟩ | ⟨live,_,_,_,_⟩ | ⟨eof,reading,idle,rest⟩
  · exact ⟨_,_,_,live⟩
  · exact ⟨_,_,_,live⟩
  · cases e with
    | arrive bytes =>
      obtain ⟨posted,pending,_⟩ := can
      rw [idle] at pending
      cases pending
    | start => exact absurd can.1 rest
    | read peeking => exact absurd can.1 (by simp [reading])

/-- No step fails. -/
theorem step_took {s : Chan} (h : Sound w s) {e : Event} (can : (process w).enabled s e)
    (safe : LongSafe w s e) : ∃ next, (process w).step s e = .ok next ∧ Took w s e next := by
  rcases h with ⟨live,settled,waiting⟩ | @⟨m,peeking,live,reading,waiting,open_,posted⟩ |
    ⟨eof,reading,idle,rest⟩
  · cases e with
    | arrive bytes =>
      obtain ⟨⟨position,size⟩,pending,fit⟩ := can
      obtain ⟨b,run,later,stop,counter⟩ := receive_live live pending fit safe
      refine ⟨receive s b bytes,?_,
        .received live waiting (live.held.posted _ _ pending).1 later (stop settled) counter⟩
      change channelReadDone w s bytes = _
      rw [channelReadDone_eq pending run,waiting]
    | start =>
      obtain ⟨triggered,rest,_⟩ := can
      have result := start_live live triggered rest
      cases eof : s.b.eof with
      | true =>
        rw [if_pos eof] at result
        exact ⟨_,result,.refused live rest eof⟩
      | false =>
        rw [if_neg (by simp [eof])] at result
        exact ⟨_,result.1,.started live waiting rest eof result.2 settled⟩
    | read peeking =>
      obtain ⟨r,run,asked⟩ := ask_reads live can.1 settled peeking
      refine ⟨deliver s peeking r,?_,.asked live can.1 waiting asked⟩
      change handlerReads w s peeking = _
      rw [handlerReads,run]
      rfl
  · cases e with
    | arrive bytes =>
      obtain ⟨⟨position,size⟩,pending,fit⟩ := can
      obtain ⟨b,run,later,_,counter⟩ := receive_live live pending fit safe
      obtain ⟨r,resumed,asked⟩ := ask_resumed later reading peeking
      refine ⟨_,?_,.resumed live reading waiting open_ later counter asked⟩
      change channelReadDone w s bytes = _
      rw [channelReadDone_eq pending run,waiting]
      exact congrArg (· >>= _) resumed
    | start => exact absurd can.2.1 (by simp [reading])
    | read peeking => exact absurd can.2 (by simp [waiting])
  · cases e with
    | arrive bytes =>
      obtain ⟨posted,pending,_⟩ := can
      rw [idle] at pending
      cases pending
    | start => exact absurd can.1 rest
    | read peeking => exact absurd can.1 (by simp [reading])

theorem Asked.sound {s next : Chan} {lit : Nat} {m : Mode} {toks : List Token} {peeking : Bool}
    (h : Live w s lit m toks) (busy : s.reading = true) (asked : Asked w s toks peeking next) :
    Sound w next := by
  cases asked with
  | item item rest first goes live settled waiting => exact .ready live settled waiting
  | ended eof first reading waiting counter idle =>
    refine .ended ((congrArg Counter.eof counter).trans eof) reading idle ?_
    have counted := h.counted
    rw [busy] at counted
    rw [show next.b.handlingMsg = s.b.handlingMsg from congrArg Counter.handlingMsg counter,
      show s.b.handlingMsg = .active from counted.busy.2]
    decide
  | blocked live reading waiting open_ posted => exact .blocked live reading waiting open_ posted

theorem Took.sound {s next : Chan} {e : Event} (took : Took w s e next) : Sound w next := by
  cases took with
  | received live waiting open_ later settled => exact .ready later settled waiting
  | resumed live reading waiting open_ later counter asked => exact asked.sound later reading
  | refused live rest eof => exact .ended eof rest (live.held.idle eof) (by simp)
  | started live waiting rest open_ later settled => exact .ready later settled waiting
  | asked live busy waiting asked => exact asked.sound live busy

theorem step_sound {s : Chan} (h : Sound w s) {e : Event} (can : (process w).enabled s e)
    (safe : LongSafe w s e) : ∃ next, (process w).step s e = .ok next ∧ Sound w next := by
  obtain ⟨next,run,took⟩ := step_took h can safe
  exact ⟨next,run,took.sound⟩

theorem initial_started : ibufTriggerRead (ibufInit w) = .ok (initial w).b := by
  have positive := w.positive
  have room : 0 < 128 * w.memUsageFactor := by omega
  have inner : 0 < 128 * w.memUsageFactor - 1 := by omega
  have other : 0 ≠ 128 * w.memUsageFactor := by omega
  simp [ibufTriggerRead,ibufFreeSize,ibufInit,initial,tcpPostRead,room,inner,other,require_true]

theorem initial_live : Live w (initial w) 0 .plain [] := by
  have positive := w.positive
  have none_ : ahead (initial w).b ((initial w).b.cur + 0) = [] := ahead_inp (initial w).b
  refine ⟨⟨?_,?_,.inl (Nat.le_refl _),.inl rfl,rfl,trivial,?_,?_,⟨[],?_,rfl⟩,?_⟩,?_,rfl,?_,?_,?_⟩
  · change 128 ≤ 128 * w.memUsageFactor
    omega
  · change 0 < 128 * w.memUsageFactor
    omega
  · rw [none_]
    rfl
  · rw [none_]
    rfl
  · rw [none_]
    rfl
  · intro position size pending
    obtain ⟨rfl,rfl⟩ := Prod.mk.inj (Option.some.inj pending)
    have empty : span (initial w).b (initial w).b.cur = 0 := span_inp (initial w).b
    refine ⟨rfl,rfl,by omega,?_,?_⟩
    · change 0 + (128 * w.memUsageFactor - 1) ≤ 128 * w.memUsageFactor
      omega
    · rw [empty]
      change 0 + (128 * w.memUsageFactor - 1) < 128 * w.memUsageFactor
      omega
  · refine ⟨rfl,?_,?_,?_,?_,?_⟩
    · exact ⟨fun _ => rfl,fun _ => rfl⟩
    · exact ⟨nofun,nofun⟩
    · simp
    · exact nofun
    · exact nofun
  · exact nofun
  · exact nofun
  · exact fun _ => rfl

/-- Under that condition no assertion of the input buffer fails, whatever the peer sends
and however reads, starts and handlers interleave. -/
theorem exec_no_assertion (events : List Event)
    (meets : (process w).Meets (LongSafe w) (initial w) events) :
    (process w).exec (initial w) events ≠ .error .assertion := by
  refine (process w).exec_safe (Sound w) ?_ ?_ (.ready initial_live rfl rfl) meets
  · intro s e next sound can safe step
    obtain ⟨same,run,result⟩ := step_sound sound can safe
    rw [run] at step
    exact Except.ok.inj step ▸ result
  · intro s e sound can safe stopped
    obtain ⟨next,run,_⟩ := step_sound sound can safe
    rw [run] at stopped
    cases stopped

/-- A message of 256 bytes so far, more than that buffer holds, read by its handler. -/
def longMessage : List Event :=
  .arrive (List.replicate 255 65) :: .start :: List.replicate 256 (.read false) ++
    [.arrive [65],.read false]

theorem exec_no_assertion_long :
    (process targetBuild).exec (initial targetBuild) (longMessage ++ [.arrive [3,1,3,2]]) ≠
      .error .assertion :=
  exec_no_assertion _ (by decide +kernel)

/-- In a long message an invalid escape reaches the handler, and an end of stream
before the end of the message is counted as another message. -/
theorem long_message_asserts :
    (process targetBuild).exec (initial targetBuild) (longMessage ++ [.arrive [3,9]]) =
      .error .assertion ∧
    (process targetBuild).exec (initial targetBuild) (longMessage ++ [.arrive [3,2,3,1]]) =
      .error .assertion := by
  decide +kernel

end Tcf.ChannelInput
