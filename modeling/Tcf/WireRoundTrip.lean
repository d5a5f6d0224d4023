import Tcf.ChannelOutput
import Tcf.ChannelInputSafety

/-! What one side writes, the other side reads: the bytes of the flushed buffers, fed to
an input buffer in pieces that fit. -/
namespace Tcf.WireRoundTrip

open Framing InputBuf ChannelInput

/-- Reads that bring the wire, in pieces of at least one byte. -/
def Feeds (wire : List UInt8) (s : Chan) : Event → Prop
  | .arrive bytes => bytes ≠ [] ∧ s.arrived ++ bytes <+: wire
  | _ => True

instance (wire : List UInt8) (s : Chan) (e : Event) : Decidable (Feeds wire s e) :=
  match e with
  | .arrive bytes => inferInstanceAs (Decidable (bytes ≠ [] ∧ s.arrived ++ bytes <+: wire))
  | .start => isTrue trivial
  | .read _ => isTrue trivial

/-- The bytes of a wire that stands for bytes and ends of message. -/
structure Carries (int : IntShift) (wire : List UInt8) (items : List Item) : Prop where
  tokens : tokens int .plain wire = items.map Item.token
  no_eos : .eos ∉ items

structure OnWire (wire : List UInt8) (s : Chan) : Prop where
  front : s.arrived <+: wire
  open_ : s.b.eof = false

/-- Everything up to the last end of message was read. -/
def Done (items : List Item) (s : Chan) : Prop :=
  ∃ tail, items = readsOf (log s) ++ tail ∧ .eom ∉ tail

variable {w : Build} {wire : List UInt8} {items : List Item} {s next : Chan} {e : Event}

theorem token_injective : Function.Injective Item.token := by
  intro a b same
  cases a <;> cases b <;> simp_all [Item.token]

theorem Carries.clean (c : Carries w.int wire items) : .eos ∉ Framing.tokens w.int .plain wire ∧
    .bad ∉ Framing.tokens w.int .plain wire := by
  rw [c.tokens]
  constructor
  · intro member
    obtain ⟨item,inside,same⟩ := List.mem_map.mp member
    cases item <;> first | exact c.no_eos inside | cases same
  · intro member
    obtain ⟨item,_,same⟩ := List.mem_map.mp member
    cases item <;> cases same

variable {toks : List Token}

section

variable (c : Carries w.int wire items)

include c

/-- What arrives next holds no end of stream. -/
theorem Carries.new_clean {lit : Nat} {m : Mode}
    (h : Live w s lit m toks) {bytes : List UInt8} (front : s.arrived ++ bytes <+: wire) :
    .eos ∉ newTokens w s bytes ∧ .bad ∉ newTokens w s bytes := by
  have sub := (tokens_front w.int .plain front).subset
  rw [h.more] at sub
  exact ⟨fun member => c.clean.1 (sub (List.mem_append_right _ member)),
    fun member => c.clean.2 (sub (List.mem_append_right _ member))⟩

theorem Carries.longSafe (sound : Sound w s)
    (can : (process w).enabled s e) (feeds : Feeds wire s e) : LongSafe w s e := by
  obtain ⟨_,_,_,live⟩ := sound.live can
  cases e with
  | arrive bytes =>
    intro _
    obtain ⟨eos,bad⟩ := c.new_clean live feeds.2
    rcases firstMarker_clean eos bad with none_ | eom
    · simp [InputBuf.longSafe,none_]
    · simp [InputBuf.longSafe,eom]
  | start => trivial
  | read peeking => trivial

theorem recounted_open {lit : Nat} {m : Mode}
    (h : Live w s lit m toks) (open_ : s.b.eof = false) {bytes : List UInt8} {b : InputBuf}
    (feeds : Feeds wire s (.arrive bytes)) (counter : Recounted w s bytes b) : b.eof = false := by
  rcases counter with counter | ⟨_,_,open_,_⟩
  · cases eof : b.eof with
    | false => rfl
    | true =>
      have eof' : (countRead s.b.counter bytes (newTokens w s bytes)).eof = true :=
        (congrArg Counter.eof counter).symm.trans eof
      rw [countRead,if_neg feeds.1] at eof'
      obtain ⟨eos,bad⟩ := c.new_clean h feeds.2
      rcases Counter.arriveAll_eof eof' with before | found | found
      · exact before.symm.trans open_
      · exact absurd found eos
      · exact absurd found bad
  · exact open_

omit c in
theorem asked_open {peeking : Bool} (open_ : s.b.eof = false)
    (asked : Asked w s toks peeking next) : next.b.eof = false ∧ next.arrived = s.arrived := by
  cases asked with
  | item item rest first goes live settled waiting arrived counter =>
    refine ⟨?_,arrived⟩
    have eof := congrArg Counter.eof counter
    cases peeking with
    | true => exact eof.trans open_
    | false => exact (eof.trans (Counter.read_eof ..)).trans open_
  | ended eof => simp [open_] at eof
  | blocked live reading waiting open_ posted none_ arrived counter => exact ⟨open_,arrived⟩

theorem Took.onWire (on : OnWire wire s) (feeds : Feeds wire s e)
    (took : Took w s e next) : OnWire wire next := by
  cases took with
  | received live waiting open_ later settled counter =>
    exact ⟨feeds.2,recounted_open c live open_ feeds counter⟩
  | @resumed m bytes b _ _ live reading waiting open_ later counter asked =>
    have mid : (receive s b bytes).b.eof = false := recounted_open c live open_ feeds counter
    obtain ⟨still,arrived⟩ := asked_open mid asked
    exact ⟨by rw [arrived]; exact feeds.2,still⟩
  | refused live rest eof => simp [on.open_] at eof
  | started live waiting rest open_ later settled => exact ⟨on.front,on.open_⟩
  | asked live busy waiting asked =>
    obtain ⟨still,arrived⟩ := asked_open on.open_ asked
    exact ⟨by rw [arrived]; exact on.front,still⟩

theorem step_onWire (sound : Sound w s) (on : OnWire wire s)
    (can : (process w).enabled s e) (feeds : Feeds wire s e) :
    ∃ next, (process w).step s e = .ok next ∧ Took w s e next ∧ Sound w next ∧ OnWire wire next := by
  obtain ⟨next,run,took⟩ := step_took sound can (c.longSafe sound can feeds)
  exact ⟨next,run,took,took.sound,Took.onWire c on feeds took⟩

/-- What was read and peeked at so far is what was written. -/
theorem replayed (sound : Sound w s) (on : OnWire wire s) :
    ∃ left, replay (log s) (items.map Item.token) = some left ∧
      (∀ lit m toks, Live w s lit m toks → s.arrived = wire → left = toks) := by
  obtain ⟨rest,split⟩ := on.front
  have live : ∃ lit m toks, Live w s lit m toks := by
    rcases sound with ⟨live,_,_⟩ | ⟨live,_,_,_,_⟩ | ⟨eof,_,_,_⟩
    · exact ⟨_,_,_,live⟩
    · exact ⟨_,_,_,live⟩
    · simp [on.open_] at eof
  obtain ⟨lit,m,toks,live⟩ := live
  have whole : items.map Item.token = Framing.tokens w.int .plain s.arrived ++ newTokens w s rest := by
    rw [← c.tokens,← split,live.more]
  refine ⟨toks ++ newTokens w s rest,by rw [whole]; exact replay_more _ live.replayed,?_⟩
  intro lit' m' toks' live' all
  have none_ : rest = [] := by simpa [all] using split
  have same := live.replayed.symm.trans live'.replayed
  rw [Option.some.inj same,none_]
  exact List.append_nil _

omit c in
theorem replay_items {entries : List Got} {left : List Token}
    (h : replay entries (items.map Item.token) = some left) :
    ∃ tail, items = readsOf entries ++ tail ∧ tail.map Item.token = left := by
  obtain ⟨front,tail,split,first,last⟩ := List.map_eq_append_iff.mp (replay_reads h)
  rw [List.map_injective_iff.mpr token_injective first] at split
  exact ⟨tail,split,last⟩

/-- An idle or waiting channel that has received everything is done. -/
theorem done_of_clean (sound : Sound w s) (on : OnWire wire s)
    {lit : Nat} {m : Mode} (live : Live w s lit m toks) (all : s.arrived = wire)
    (clean : .eom ∉ toks) : Done items s := by
  obtain ⟨left,replay,same⟩ := replayed c sound on
  obtain ⟨tail,split,tokens⟩ := replay_items replay
  refine ⟨tail,split,fun member => clean ?_⟩
  rw [← same lit m toks live all,← tokens]
  exact List.mem_map_of_mem member

/-- Bytes still to come, and items still to be read. -/
def pending (wire : List UInt8) (items : List Item) (s : Chan) : Nat :=
  (wire.length - s.arrived.length) + (items.length - (readsOf (log s)).length)

/-- How much is left to do, in steps. -/
def toDo (wire : List UInt8) (items : List Item) (s : Chan) : Nat :=
  3 * pending wire items s + (if s.reading then 0 else 1) + (if s.waiting.isSome then 0 else 1)

theorem reads_bound (sound : Sound w s) (on : OnWire wire s) :
    (readsOf (log s)).length ≤ items.length ∧ s.arrived.length ≤ wire.length := by
  obtain ⟨left,replay,_⟩ := replayed c sound on
  obtain ⟨tail,split,_⟩ := replay_items replay
  have := congrArg List.length split
  rw [List.length_append] at this
  exact ⟨by omega,on.front.length_le⟩

omit c in
theorem log_started (s : Chan) : log (started s) = log s := by simp [log,started]

omit c in
/-- A handler that got an item has read one more, unless it peeked. -/
theorem reads_deliver (peeking : Bool) (b : InputBuf) (item : Item) (some_ : s.handed ≠ []) :
    (readsOf (log (deliver s peeking (b,some item)))).length =
      (readsOf (log s)).length + if peeking then 0 else 1 := by
  obtain ⟨current,past,handed⟩ := List.exists_cons_of_ne_nil some_
  change (readsOf (record s.handed (peeking,item)).reverse.flatten).length =
    (readsOf s.handed.reverse.flatten).length + _
  rw [handed,record_log]
  cases peeking <;> simp [readsOf,Nat.add_assoc]

omit c in
theorem shaped_some {handed : List (List Got)} (h : Shaped true handed) : handed ≠ [] := by
  obtain ⟨current,past,rfl⟩ := shaped_cons h
  exact List.cons_ne_nil _ _

omit c in
theorem toDo_deliver {peeking : Bool} {r : InputBuf × Option Item} (shaped : Shaped s.reading s.handed)
    (busy : s.reading = true) (bound : (readsOf (log (deliver s peeking r))).length ≤ items.length) :
    toDo wire items (deliver s peeking r) ≤ 3 * pending wire items s + 2 ∧
      (peeking = false → toDo wire items (deliver s peeking r) ≤ 3 * pending wire items s) := by
  obtain ⟨b,item⟩ := r
  cases item with
  | none =>
    have same : toDo wire items (deliver s peeking (b,none)) = 3 * pending wire items s := by
      simp only [toDo,deliver,busy,Option.isSome_some,if_true,Nat.add_zero]
      rfl
    exact ⟨by omega,fun _ => Nat.le_of_eq same⟩
  | some item =>
    have more := reads_deliver peeking b item (shaped_some (busy ▸ shaped))
    have flags : (if (deliver s peeking (b,some item)).reading then 0 else 1) +
        (if (deliver s peeking (b,some item)).waiting.isSome then 0 else 1) ≤ 2 := by
      split <;> split <;> omega
    have arrived : (deliver s peeking (b,some item)).arrived = s.arrived := rfl
    simp only [toDo,pending,arrived]
    constructor
    · split at more <;> omega
    · rintro rfl
      rw [if_neg (by decide)] at more
      omega

omit c in
/-- The next byte, read alone, fits whenever a read is posted. -/
theorem next_byte {lit : Nat} {m : Mode} (live : Live w s lit m toks)
    (on : OnWire wire s) (posted : s.b.readPending.isSome) (some_ : s.arrived ≠ wire) :
    ∃ ch, (process w).enabled s (.arrive [ch]) ∧ Feeds wire s (.arrive [ch]) := by
  obtain ⟨rest,split⟩ := on.front
  obtain ⟨⟨position,size⟩,pending⟩ := Option.isSome_iff_exists.mp posted
  obtain ⟨_,_,positive,_,_⟩ := live.held.posted position size pending
  cases rest with
  | nil => exact absurd (by simpa using split) some_
  | cons ch later =>
    refine ⟨ch,⟨_,pending,positive⟩,List.cons_ne_nil _ _,later,?_⟩
    rw [← split,List.append_assoc]
    rfl

omit c in
theorem arrived_less {bytes : List UInt8} (feeds : Feeds wire s (.arrive bytes)) (b : InputBuf) :
    pending wire items (receive s b bytes) < pending wire items s := by
  have fits := feeds.2.length_le
  have some_ := List.length_pos_iff.mpr feeds.1
  rw [List.length_append] at fits
  change (wire.length - (s.arrived ++ bytes).length) + (items.length - (readsOf (log s)).length) < _
  rw [List.length_append,pending]
  omega

/-- Every step but a peek brings the end nearer. -/
theorem Took.toDo_less (sound : Sound w next) (on : OnWire wire next)
    (open_ : s.b.eof = false) (feeds : Feeds wire s e) (advances : e ≠ .read true)
    (took : Took w s e next) : toDo wire items next < toDo wire items s := by
  have bound := (reads_bound c sound on).1
  cases took with
  | @received _ _ _ bytes b live waiting =>
    have less : pending wire items (receive s b bytes) < pending wire items s := arrived_less feeds b
    change 3 * pending wire items (receive s b bytes) + (if s.reading then 0 else 1) +
      (if s.waiting.isSome then 0 else 1) < _
    rw [toDo]
    omega
  | @resumed _ bytes b peeking r live reading waiting _ later =>
    have less : pending wire items (receive s b bytes) < pending wire items s := arrived_less feeds b
    have resumed : toDo wire items _ ≤ _ := (toDo_deliver later.shaped reading bound).1
    rw [toDo.eq_1 wire items s]
    omega
  | refused live rest eof => simp [open_] at eof
  | started live waiting rest =>
    have same : pending wire items (started s) = pending wire items s := by
      simp only [pending,log_started]
      rfl
    change 3 * pending wire items (started s) + 0 + (if s.waiting.isSome then 0 else 1) < _
    simp [toDo,same,rest]
  | @asked _ _ _ peeking r live busy waiting =>
    cases peeking with
    | true => exact absurd rfl advances
    | false =>
      have less : toDo wire items _ ≤ _ := (toDo_deliver live.shaped busy bound).2 rfl
      rw [toDo.eq_1 wire items s,waiting,busy]
      exact Nat.lt_succ_of_le less

/-- A channel on the wire is done, or can come nearer to it. -/
theorem progress (sound : Sound w s) (on : OnWire wire s) :
    Done items s ∨ ∃ e, (process w).enabled s e ∧ Feeds wire s e ∧ e ≠ .read true := by
  rcases sound with ⟨live,settled,waiting⟩ | ⟨live,reading,waiting,_,posted⟩ | ⟨eof,_,_,_⟩
  · cases rest : s.reading with
    | true => exact .inr ⟨.read false,⟨rest,waiting⟩,trivial,nofun⟩
    | false =>
      have counted := live.counted
      rw [rest] at counted
      cases state : s.b.handlingMsg with
      | triggered => exact .inr ⟨.start,⟨state,rest,waiting⟩,trivial,nofun⟩
      | active => simpa using counted.active.mpr state
      | idle =>
        have none_ : s.b.messageCount = 0 := counted.idle.mp state
        by_cases all : s.arrived = wire
        · refine .inl (done_of_clean c (.ready live settled waiting) on live all ?_)
          have total : s.b.messageCount = _ := counted.total
          exact List.count_eq_zero.mp (by omega)
        · have posted : s.b.readPending.isSome := by
            by_contra idle
            have served := live.served on.open_ (by simpa using idle)
            omega
          obtain ⟨ch,can,feeds⟩ := next_byte live on posted all
          exact .inr ⟨_,can,feeds,nofun⟩
  · by_cases all : s.arrived = wire
    · exact .inl (done_of_clean c (.blocked live reading waiting on.open_ posted) on live all nofun)
    · obtain ⟨ch,can,feeds⟩ := next_byte live on posted all
      exact .inr ⟨_,can,feeds,nofun⟩
  · simp [on.open_] at eof

/-- However far it got, a channel can be brought to the end of the wire. -/
theorem finish (sound : Sound w s) (on : OnWire wire s) :
    ∃ more done, (process w).exec s more = .ok done ∧ (process w).Meets (Feeds wire) s more ∧
      Done items done := by
  induction left : toDo wire items s using Nat.strong_induction_on generalizing s with
  | _ n ih =>
    rcases progress c sound on with done | ⟨e,can,feeds,advances⟩
    · exact ⟨[],s,rfl,trivial,done⟩
    · obtain ⟨next,run,took,sound',on'⟩ := step_onWire c sound on can feeds
      have less := Took.toDo_less c sound' on' on.open_ feeds advances took
      obtain ⟨more,done,later,meets,finished⟩ := ih _ (left ▸ less) sound' on' rfl
      exact ⟨e :: more,done,(process w).exec_cons.mpr ⟨can,next,run,later⟩,
        ((process w).meets_cons_ok run).mpr ⟨feeds,meets⟩,finished⟩

/-- No handler can start or go on without more input. -/
def Quiet (w : Build) (s : Chan) : Prop := ∀ e, (process w).enabled s e → ∃ bytes, e = .arrive bytes

/-- What was read and peeked at is what was written, all of it once nothing more can
happen, and the rest can still be read. -/
structure ReadBack (w : Build) (wire : List UInt8) (items : List Item) (s : Chan) : Prop where
  same : ∃ left, replay (log s) (items.map Item.token) = some left
  complete : s.arrived = wire → Quiet w s → Done items s
  goesOn : ∃ more done, (process w).exec s more = .ok done ∧ (process w).Meets (Feeds wire) s more ∧
    Done items done

theorem readBack (sound : Sound w s) (on : OnWire wire s) :
    ReadBack w wire items s := by
  refine ⟨?_,?_,finish c sound on⟩
  · obtain ⟨left,replay,_⟩ := replayed c sound on
    exact ⟨left,replay⟩
  · intro all quiet
    rcases progress c sound on with done | ⟨e,can,feeds,_⟩
    · exact done
    · obtain ⟨bytes,rfl⟩ := quiet e can
      have long := feeds.2.length_le
      have some_ := List.length_pos_iff.mpr feeds.1
      rw [List.length_append,all] at long
      omega

/-- Every run that feeds the wire reads back what it stands for. -/
theorem exec_readBack {events : List Event}
    (meets : (process w).Meets (Feeds wire) (initial w) events) :
    (process w).exec (initial w) events ≠ .error .assertion ∧
      ∀ s, (process w).exec (initial w) events = .ok s → ReadBack w wire items s := by
  have start : Sound w (initial w) ∧ OnWire wire (initial w) :=
    ⟨.ready initial_live rfl rfl,List.nil_prefix,rfl⟩
  have kept : ∀ s e next, Sound w s ∧ OnWire wire s → (process w).enabled s e → Feeds wire s e →
      (process w).step s e = .ok next → Sound w next ∧ OnWire wire next := by
    intro s e next ⟨sound,on⟩ can feeds run
    obtain ⟨same,ok,_,result⟩ := step_onWire c sound on can feeds
    obtain rfl := Except.ok.inj (ok.symm.trans run)
    exact result
  constructor
  · refine (process w).exec_safe _ kept ?_ start meets
    intro s e ⟨sound,on⟩ can feeds stopped
    obtain ⟨next,run,_⟩ := step_onWire c sound on can feeds
    rw [run] at stopped
    cases stopped
  · intro s run
    have result := (process w).exec_invariant _ kept start run meets
    exact readBack c result.1 result.2

end

section

open ChannelOutput

variable {size : BufSize} {c : Channel}

theorem carries_sent {final : Channel} (int : IntShift) (h : Encodes int size final (items.map Item.token))
    (between : final.outBinBlock = none) (no_eos : .eos ∉ items) :
    ∃ sent, tcpFlushWithFlags size final = .ok sent ∧ Carries int sent.flushed.flatten items := by
  have written : Written int size final .plain (items.map Item.token) := by
    rcases h with written | inside
    · exact written
    · obtain ⟨_,_,_,_,start,_⟩ := inside.split
      simp [between] at start
  obtain ⟨sent,run,_,flat⟩ := tcpFlushWithFlags_written int written
  exact ⟨sent,run,by rw [flat]; exact written.toks,no_eos⟩

theorem exec_writes (int : IntShift) (h : Encodes int size c toks) (ops : List Op) :
    (ChannelOutput.process size).exec c ops ≠ .error .assertion := by
  have all := (ChannelOutput.process size).meets_true c ops
  refine (ChannelOutput.process size).exec_safe (fun c => ∃ toks, Encodes int size c toks) ?_ ?_ ⟨toks,h⟩ all
  · rintro c op next ⟨toks,h⟩ can _ step
    obtain ⟨same,run,written⟩ := step_encodes int h op can
    obtain rfl := Except.ok.inj (run.symm.trans step)
    exact ⟨_,written⟩
  · rintro c op ⟨toks,h⟩ can _ stopped
    obtain ⟨next,run,_⟩ := step_encodes int h op can
    rw [run] at stopped
    cases stopped

/-- Whatever is written after whatever is in the buffer, by any mix of calls, is read back
as the same bytes and ends of message. A flush waits for the end of an open block; every
end of message ends one. -/
theorem wire_round_trip (w : Build) (size : BufSize) (ops : List Op) (old : List Item) {c : Channel}
    (fill : Encodes w.int size c (old.map Item.token)) (no_eos : .eos ∉ old ++ ops.flatMap Op.items) :
    (ChannelOutput.process size).exec c ops ≠ .error .assertion ∧
      ∀ final, (ChannelOutput.process size).exec c ops = .ok final → final.outBinBlock = none →
        ∃ sent, tcpFlushWithFlags size final = .ok sent ∧
          ∀ events, (ChannelInput.process w).Meets (Feeds sent.flushed.flatten) (initial w) events →
            (ChannelInput.process w).exec (initial w) events ≠ .error .assertion ∧
            ∀ s, (ChannelInput.process w).exec (initial w) events = .ok s →
              ReadBack w sent.flushed.flatten (old ++ ops.flatMap Op.items) s := by
  refine ⟨exec_writes w.int fill ops,?_⟩
  intro final run between
  have encoded := exec_encodes w.int ops fill run
  rw [← List.map_append] at encoded
  obtain ⟨sent,flush,carries⟩ := carries_sent w.int encoded between no_eos
  exact ⟨sent,flush,fun events meets => exec_readBack carries meets⟩

/-- A buffer of 256 bytes on a fresh channel that may open blocks. -/
def small : BufSize := .small

def fresh : ChannelOutput.Channel where
  supportsZeroCopy := true
  buf := []
  outBinBlock := none
  flushed := []
  disconnected := false
  outErrno := 0
  outEomCnt := 0
  outFlushCnt := 0

def hello : List Op := [.writeString [72,105],.writeBlock [0,3,3,255],.write (.byte 7),.write .eom]

theorem fresh_encodes (int : IntShift) : Encodes int small fresh [] :=
  .inl ⟨by decide,⟨rfl,rfl⟩,rfl,rfl,rfl⟩

theorem wire_round_trip_hello : ∃ sent s,
    ReadBack targetBuild sent ([] ++ hello.flatMap Op.items) s ∧ s.arrived = sent := by
  obtain ⟨final,run,between,sent,flush,meets,s,fed,arrived⟩ : ∃ final,
      (ChannelOutput.process small).exec fresh hello = .ok final ∧ final.outBinBlock = none ∧
      ∃ sent, tcpFlushWithFlags small final = .ok sent ∧
        (ChannelInput.process targetBuild).Meets (Feeds sent.flushed.flatten) (initial targetBuild)
          [.arrive sent.flushed.flatten] ∧
        ∃ s, (ChannelInput.process targetBuild).exec (initial targetBuild) [.arrive sent.flushed.flatten] =
          .ok s ∧ s.arrived = sent.flushed.flatten := by
    decide +kernel
  obtain ⟨same,flushed,reads⟩ := (wire_round_trip targetBuild small hello [] (fresh_encodes _)
    (by decide)).2 final run between
  obtain rfl := Except.ok.inj (flush.symm.trans flushed)
  exact ⟨_,s,(reads _ meets).2 s fed,arrived⟩

end

end Tcf.WireRoundTrip
