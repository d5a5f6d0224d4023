import Tcf.DPrintf

/-! Readers of a client's stream get the text of its commits in order. -/
namespace Tcf.DPrintf

open Streams (Session Feed Stream)

variable {s t : State} {client : Client}

def waiting (bufs : List Buffer) : List UInt8 := (bufs.map Buffer.left).flatten

/-- The lock of a client with a backlog. -/
def Client.lock (client : Client) : Int := if client.bufs = [] then 0 else 1

def feed (t : Session UInt8) : Feed UInt8 := (Streams.feed UInt8).after .empty t.log

variable {channel : Nat}

section Wakes

/-- What keeps the events for space coming: the buffer is as full as before, or an event is posted. -/
structure Drains (s s' : Stream UInt8) : Prop where
  bufLen : s'.bufLen = s.bufLen
  wakes : s'.spaceAvailablePosted = true ∨ s'.spaceAvailablePosted = s.spaceAvailablePosted ∧ s'.len = s.len

/-- An event for space is posted, or readers have bytes to read. -/
def Wakes (s : Stream UInt8) : Prop := s.spaceAvailablePosted = true ∨ 0 < s.len

theorem Drains.refl (s : Stream UInt8) : Drains s s := ⟨rfl,.inr ⟨rfl,rfl⟩⟩

theorem Drains.trans {a b c : Stream UInt8} (first : Drains a b) (second : Drains b c) : Drains a c := by
  refine ⟨second.bufLen.trans first.bufLen,?_⟩
  rcases second.wakes with posted | ⟨posted,len⟩
  · exact .inl posted
  · rcases first.wakes with before | ⟨before,same⟩
    · exact .inl (posted.trans before)
    · exact .inr ⟨posted.trans before,len.trans same⟩

theorem Drains.keeps {a b : Stream UInt8} (drains : Drains a b) (wakes : Wakes a) : Wakes b := by
  rcases drains.wakes with posted | ⟨posted,len⟩
  · exact .inl posted
  · rcases wakes with before | some_
    · exact .inl (posted.trans before)
    · exact .inr (len ▸ some_)

variable {a b : Stream UInt8}

variable {token size : Nat}

theorem sendReadReply_drains {reader reader' : Streams.Client UInt8}
    (run : Streams.sendReadReply a reader token size = .ok (b,reader')) : Drains a b := by
  simp only [Streams.sendReadReply,Code.require_bind_ok,Code.pure_eq,Except.ok.injEq,Prod.mk.injEq] at run
  obtain ⟨_,_,_,_,rfl,_⟩ := run
  exact ⟨rfl,.inr ⟨rfl,rfl⟩⟩

theorem answerReads_drains {reader reader' : Streams.Client UInt8} {requests : List Streams.ReadRequest}
    (run : Streams.answerReads a reader requests = .ok (b,reader')) : Drains a b := by
  induction requests generalizing a reader with
  | nil =>
    cases run
    exact .refl _
  | cons r rest ih =>
    simp only [Streams.answerReads] at run
    split at run
    · obtain ⟨⟨middle,between⟩,sent,run⟩ := Code.bind_ok_iff.mp run
      exact (sendReadReply_drains sent).trans (ih run)
    · cases run
      exact .refl _

theorem answerClients_drains {readers readers' : List (Streams.Client UInt8)}
    (run : Streams.answerClients a readers = .ok (b,readers')) : Drains a b := by
  induction readers generalizing a readers' with
  | nil =>
    cases run
    exact .refl _
  | cons reader rest ih =>
    obtain ⟨⟨one,reader'⟩,answered,run⟩ := Code.bind_ok_iff.mp run
    obtain ⟨⟨two,rest'⟩,others,run⟩ := Code.bind_ok_iff.mp run
    cases run
    exact (answerReads_drains answered).trans (ih others)

theorem advance_drains (run : Streams.advanceStreamBuffer a = .ok b) : Drains a b := by
  obtain ⟨_,_,run⟩ := Code.bind_ok_iff.mp run
  obtain ⟨_,_,run⟩ := Code.bind_ok_iff.mp run
  obtain ⟨bufOut,_,run⟩ := Code.bind_ok_iff.mp run
  cases run
  refine ⟨rfl,?_⟩
  by_cases same : a.len = Streams.Stream.len { a with bufOut }
  · right
    exact ⟨by simp [same],same.symm⟩
  · left
    simp [same]

theorem serveReaders_drains (run : Streams.serveReaders a = .ok b) : Drains a b := by
  obtain ⟨⟨answered,readers⟩,served,run⟩ := Code.bind_ok_iff.mp run
  have same : Drains answered { answered with clients := readers } := ⟨rfl,.inr ⟨rfl,rfl⟩⟩
  exact ((answerClients_drains served).trans same).trans (advance_drains run)

theorem announce_drains (readable : a.remoteRead = true) (run : Streams.announce a size = .ok b) : Drains a b := by
  simp only [Streams.announce,if_pos readable] at run
  split at run
  · exact serveReaders_drains run
  · cases run
    exact .refl _

theorem reply_drains (s : Stream UInt8) (channel token : Nat) (answer : Streams.Answer UInt8) :
    Drains s (s.reply channel token answer) := ⟨rfl,.inr ⟨rfl,rfl⟩⟩

theorem foldl_drains {ε : Type} {f : Stream UInt8 → ε → Stream UInt8} (each : ∀ s e, Drains s (f s e)) (s : Stream UInt8)
    (l : List ε) : Drains s (l.foldl f s) := by
  induction l generalizing s with
  | nil => exact .refl s
  | cons e rest ih => exact (each s e).trans (ih (f s e))

theorem commandDisconnect_drains (run : Streams.commandDisconnect a channel token = .ok b) : Drains a b := by
  simp only [Streams.commandDisconnect] at run
  split at run
  · cases run
    exact reply_drains ..
  · next reader _ =>
    obtain ⟨removed,deleted,run⟩ := Code.bind_ok_iff.mp run
    cases run
    refine Drains.trans ?_ (reply_drains removed ..)
    have cancels : ∀ s : Stream UInt8, Drains s (reader.writeRequests.foldl
        (fun s r => s.reply reader.channel r.token (.status (some .commandCancelled)))
        (reader.readRequests.foldl (fun s r => s.reply reader.channel r.token (.read none (some .commandCancelled) 0 true)) s)) :=
      fun s => (foldl_drains (fun s _ => reply_drains s ..) s _).trans (foldl_drains (fun s _ => reply_drains s ..) _ _)
    have without : Drains a { a with clients := a.clients.filter fun other => other.channel ≠ reader.channel } := ⟨rfl,.inr ⟨rfl,rfl⟩⟩
    simp only [Streams.deleteClient] at deleted
    split at deleted
    · exact (without.trans (cancels _)).trans (advance_drains deleted)
    · cases deleted
      exact without.trans (cancels _)

theorem commandRead_drains (run : Streams.commandRead a channel token size = .ok b) : Drains a b := by
  simp only [Streams.commandRead] at run
  split at run
  · cases run
    exact reply_drains ..
  · split at run
    · cases run
      exact reply_drains ..
    · split at run
      · cases run
        exact ⟨rfl,.inr ⟨rfl,rfl⟩⟩
      · obtain ⟨_,_,run⟩ := Code.bind_ok_iff.mp run
        obtain ⟨⟨answered,reader⟩,sent,run⟩ := Code.bind_ok_iff.mp run
        have set : Drains answered (answered.setClient reader) := ⟨rfl,.inr ⟨rfl,rfl⟩⟩
        exact ((sendReadReply_drains sent).trans set).trans (advance_drains run)

end Wakes

variable {f : Feed UInt8} {log : List (Streams.Entry UInt8)} {t : Session UInt8}

section Sessions

/-- The stream of a client and its log, as long as no end of the stream is set. -/
structure Sound (t : Session UInt8) : Prop where
  accepted : (Streams.feed UInt8).Accepts .empty t.log
  agrees : Streams.Agrees t.stream (feed t)
  isOpen : t.stream.eosInp = false
  wide : 1 < t.stream.bufLen

/-- Entries that add nothing. -/
def Plain : Streams.Entry UInt8 → Prop
  | .added _ _ => False
  | _ => True

theorem plain_keeps (plain : ∀ e ∈ log, Plain e) :
    ((Streams.feed UInt8).after f log).added = f.added ∧ ((Streams.feed UInt8).after f log).closed = f.closed := by
  induction log generalizing f with
  | nil => exact ⟨rfl,rfl⟩
  | cons e rest ih =>
    obtain ⟨added,closed⟩ := ih (f := f.next e) fun other inside => plain other (List.mem_cons_of_mem _ inside)
    have here := plain e List.mem_cons_self
    have same : (f.next e).added = f.added ∧ (f.next e).closed = f.closed := by
      rcases e with _ | _ | _ | _ | ⟨_,_,⟨_,_ | _,_,_⟩ | _⟩
      · exact here.elim
      all_goals exact ⟨rfl,rfl⟩
    exact ⟨added.trans same.1,closed.trans same.2⟩

theorem replies_plain (before after : Stream UInt8) : ∀ e ∈ Streams.repliesSince before after, Plain e := by
  intro e inside
  obtain ⟨reply,_,rfl⟩ := List.mem_map.mp inside
  trivial

theorem goOn_feed (t : Session UInt8) (entries : List (Streams.Entry UInt8)) (s : Stream UInt8) :
    (feed (t.goOn entries s)).added = ((Streams.feed UInt8).after (feed t) entries).added ∧
      (feed (t.goOn entries s)).closed = ((Streams.feed UInt8).after (feed t) entries).closed := by
  simp only [feed,Session.goOn,Monitor.after_append]
  exact plain_keeps (replies_plain _ _)

theorem Sound.goes {next : Session UInt8} (sound : Sound t) (goes : Streams.Goes t (feed t) next)
    (isOpen : (feed next).closed = false) (bufLen : next.stream.bufLen = t.stream.bufLen) : Sound next := by
  obtain ⟨entries,log,accepted,agrees⟩ := goes
  have whole : Streams.Agrees next.stream (feed next) := by
    rw [feed,log,Monitor.after_append]
    exact agrees
  refine ⟨?_,whole,whole.carries.closed ▸ isOpen,bufLen ▸ sound.wide⟩
  rw [log]
  exact ((Streams.feed UInt8).accepts_append ..).mpr ⟨sound.accepted,accepted⟩

theorem Sound.closed (sound : Sound t) : (feed t).closed = false :=
  sound.agrees.carries.closed.trans sound.isOpen

theorem addData_step (t : Session UInt8) (data : List UInt8) :
    t.step (.addData data false) = (addData t data).map Prod.fst := by
  simp only [Session.step,addData]
  cases Streams.virtualStreamAddData t.stream data false <;> rfl

/-- As much as there is room for is added, and the rest is left. -/
theorem addData_spec (sound : Sound t) {data : List UInt8} (reads : Streams.NoEmptyRead t (.addData data false)) :
    ∃ next, addData t data = .ok (next,min t.stream.room data.length) ∧ Sound next ∧
      (feed next).added = (feed t).added ++ data.take t.stream.room ∧ Drains (Streams.store t.stream data false) next.stream := by
  obtain ⟨next,step,goes⟩ := Streams.addData_goes sound.agrees reads
  rw [addData_step] at step
  have less : t.stream.room < t.stream.bufLen := Nat.mod_lt _ (by have := sound.wide; omega)
  have isOpen : ¬t.stream.eosInp = true := by simp [sound.isOpen]
  have takes : data.take (min t.stream.room data.length) = data.take t.stream.room := by rw [← List.take_eq_take_min]
  simp only [addData,Streams.virtualStreamAddData,if_neg isOpen,Code.require_bind_true less] at step ⊢
  cases told : Streams.announce (Streams.store t.stream data false) (min t.stream.room data.length) with
  | error stop => simp [told,Except.map] at step
  | ok after =>
    simp only [told,Code.ok_bind,Code.pure_eq,Except.map,Except.ok.injEq] at step ⊢
    subst step
    have drains := announce_drains (a := Streams.store t.stream data false) sound.agrees.carries.readable told
    obtain ⟨added,closed⟩ := goOn_feed t [.added (data.take (min t.stream.room data.length)) false] after
    have isOpen := closed.trans (show ((feed t).closed || false) = false by simp [sound.closed])
    have added := added.trans (congrArg ((feed t).added ++ ·) takes)
    exact ⟨_,rfl,sound.goes goes isOpen drains.bufLen,added,drains⟩

/-- Events of remote readers. -/
def Remote : Streams.Event UInt8 → Prop
  | .addData _ _ => False
  | _ => True

theorem remote_spec (sound : Sound t) {e : Streams.Event UInt8} (byReader : Remote e)
    (reads : Streams.NoEmptyRead t e) :
    ∃ next, t.step e = .ok next ∧ Sound next ∧ (feed next).added = (feed t).added ∧ Drains t.stream next.stream := by
  obtain ⟨next,step,goes⟩ := Streams.step_goes sound.agrees reads
  obtain ⟨entries,after,rfl,plain,drains⟩ : ∃ entries after, next = t.goOn entries after ∧ (∀ e ∈ entries, Plain e) ∧
      Drains t.stream after := by
    cases e with
    | addData bytes eos => exact byReader.elim
    | connect channel token =>
      cases step
      refine ⟨_,_,rfl,?_,?_⟩
      · cases Streams.findClient t.stream channel <;> simp [Plain]
      · simp only [Streams.commandConnect]
        split <;> exact ⟨rfl,.inr ⟨rfl,rfl⟩⟩
    | disconnect channel token =>
      obtain ⟨after,run,same⟩ := Code.bind_ok_iff.mp step
      cases same
      refine ⟨_,_,rfl,?_,commandDisconnect_drains run⟩
      split <;> simp [Plain]
    | read channel token size =>
      obtain ⟨after,run,same⟩ := Code.bind_ok_iff.mp step
      cases same
      refine ⟨_,_,rfl,?_,commandRead_drains run⟩
      split <;> simp [Plain]
  obtain ⟨added,closed⟩ := goOn_feed t entries after
  obtain ⟨sameAdded,sameClosed⟩ := plain_keeps (f := feed t) plain
  exact ⟨_,step,sound.goes goes ((closed.trans sameClosed).trans sound.closed) drains.bufLen,added.trans sameAdded,drains⟩

end Sessions

section Clients

/-- What was committed is in the stream or waits for it, and what waits has an event to come. -/
structure Ordered (client : Client) : Prop where
  sound : Sound client.session
  whole : (feed client.session).added ++ waiting client.bufs = client.committed
  left : ∀ b ∈ client.bufs, b.done < b.buf.length
  wakes : client.bufs ≠ [] → Wakes client.session.stream

/-- New text does not pass the backlog, and no read asks for no bytes. -/
def CommitsInOrder (client : Client) : Prop :=
  client.tmp ≠ [] → (client.bufs = [] ∨ client.session.stream.room = 0) ∧
    Streams.NoEmptyRead client.session (.addData client.tmp false)

instance (client : Client) : Decidable (CommitsInOrder client) :=
  inferInstanceAs (Decidable (client.tmp ≠ [] → _))

/-- What waits goes into the stream with no read for no bytes. -/
def DrainsInOrder (client : Client) : Prop :=
  ∀ b ∈ client.bufs.head?, Streams.NoEmptyRead client.session (.addData b.left false)

instance (client : Client) : Decidable (DrainsInOrder client) :=
  inferInstanceAs (Decidable (∀ b ∈ client.bufs.head?, _))

/-- A callback that returns, with the locks of its client. -/
def Keeps (f : Callback) (client : Client) : Prop :=
  ∃ client', (∀ locks, f locks client = .ok (locks + client'.lock - client.lock,client')) ∧ Ordered client' ∧
    client'.channel = client.channel

theorem stored_wakes (sound : Sound t) {data : List UInt8} (text : data ≠ []) :
    0 < (Streams.store t.stream data false).len := by
  have indexed := sound.agrees.carries.indexed
  obtain ⟨_,_,len⟩ := Streams.store_contents indexed data false
  have room := Streams.room_eq indexed
  have wide := sound.wide
  have some_ := List.length_pos_iff.mpr text
  rw [len,List.length_take]
  omega

theorem commit_keeps (ordered : Ordered client) (inOrder : CommitsInOrder client) : Keeps commit client := by
  by_cases text : client.tmp = []
  · exact ⟨client,fun locks => by simp [commit,text],ordered,rfl⟩
  obtain ⟨place,reads⟩ := inOrder text
  obtain ⟨next,run,sound,added,drains⟩ := addData_spec ordered.sound reads
  have wakes : Wakes next.stream := drains.keeps (.inr (stored_wakes ordered.sound text))
  have whole := ordered.whole
  by_cases fits : client.tmp.length ≤ client.session.stream.room
  · have nothing : client.bufs = [] := by
      rcases place with nothing | full
      · exact nothing
      · exact absurd (List.eq_nil_of_length_eq_zero (by omega)) text
    have all : min client.session.stream.room client.tmp.length = client.tmp.length := Nat.min_eq_right fits
    refine ⟨{ client with session := next, committed := client.committed ++ client.tmp },fun locks => ?_,?_,rfl⟩
    · simp [commit,text,run,all,Client.lock]
    · refine ⟨sound,?_,ordered.left,fun _ => wakes⟩
      rw [nothing] at whole
      simp [added,List.take_of_length_le fits,← whole,nothing,waiting]
  · have short : min client.session.stream.room client.tmp.length = client.session.stream.room := by omega
    let b : Buffer := ⟨client.tmp.drop client.session.stream.room,0⟩
    refine ⟨{ client with session := next, committed := client.committed ++ client.tmp, bufs := client.bufs ++ [b] },
      fun locks => ?_,?_,rfl⟩
    · have less : client.session.stream.room < client.tmp.length := by omega
      by_cases nothing : client.bufs = [] <;> simp [commit,text,run,short,less,nothing,Client.lock,b]
    · refine ⟨sound,?_,?_,fun _ => wakes⟩
      · rw [added,← whole]
        rcases place with nothing | full
        · simp [nothing,waiting,Buffer.left,b]
        · simp [full,waiting,Buffer.left,b]
      · intro other inside
        rcases List.mem_append.mp inside with before | new
        · exact ordered.left other before
        · cases List.mem_singleton.mp new
          change 0 < (client.tmp.drop client.session.stream.room).length
          rw [List.length_drop]
          omega

/-- The event that the session's stream posted is gone. -/
theorem notified_sound (sound : Sound t) : Sound { t with stream := { t.stream with spaceAvailablePosted := false } } :=
  ⟨sound.accepted,⟨⟨⟨sound.agrees.carries.indexed.inp,sound.agrees.carries.indexed.out⟩,sound.agrees.carries.readable,
    sound.agrees.carries.total,sound.agrees.carries.closed,sound.agrees.carries.fits,sound.agrees.carries.contents⟩,
    ⟨sound.agrees.clients.distinct,sound.agrees.clients.within,sound.agrees.clients.caught,sound.agrees.clients.known⟩,
    sound.agrees.others⟩,sound.isOpen,sound.wide⟩

/-- The oldest of what waits goes on, whether or not an event is posted. -/
theorem streamsCallback_keeps (sound : Sound client.session) (whole : (feed client.session).added ++ waiting client.bufs = client.committed)
    (left : ∀ b ∈ client.bufs, b.done < b.buf.length) (inOrder : DrainsInOrder client) : Keeps streamsCallback client := by
  cases bufs : client.bufs with
  | nil => exact ⟨client,fun locks => by simp [streamsCallback,bufs],⟨sound,whole,left,fun some_ => absurd bufs some_⟩,rfl⟩
  | cons b rest =>
    obtain ⟨next,run,sound,added,drains⟩ := addData_spec sound (inOrder b (by simp [bufs]))
    have more := left b (by simp [bufs])
    have text : b.left ≠ [] := by simp [Buffer.left,more]
    have wakes : Wakes next.stream := drains.keeps (.inr (stored_wakes ‹Sound client.session› text))
    rw [bufs] at whole
    have length : b.left.length = b.buf.length - b.done := List.length_drop
    let room := client.session.stream.room
    by_cases fits : b.left.length ≤ room
    · have all : min room b.left.length = b.left.length := Nat.min_eq_right fits
      have done : b.buf.length ≤ b.done + b.left.length := by omega
      have run : addData client.session b.left = .ok (next,b.left.length) := all ▸ run
      refine ⟨{ client with session := next, bufs := rest },fun locks => ?_,⟨sound,?_,fun other inside => ?_,fun _ => wakes⟩,rfl⟩
      · by_cases last : rest = [] <;> simp [streamsCallback,bufs,run,done,last,Client.lock]
      · rw [added,← whole,List.take_of_length_le fits]
        simp [waiting]
      · exact left other (by simp [bufs,inside])
    · have short : min room b.left.length = room := by omega
      have open_ : ¬b.buf.length ≤ b.done + room := by omega
      have run : addData client.session b.left = .ok (next,room) := short ▸ run
      let b' : Buffer := { b with done := b.done + room }
      refine ⟨{ client with session := next, bufs := b' :: rest },fun locks => ?_,⟨sound,?_,fun other inside => ?_,fun _ => wakes⟩,rfl⟩
      · simp [streamsCallback,bufs,run,open_,Client.lock,b']
      · have later : b'.left = b.left.drop room := by simp [b',Buffer.left,List.drop_drop]
        rw [added,← whole,List.append_assoc]
        simp [waiting,later,room,← List.append_assoc (b.left.take _)]
      · rcases List.mem_cons.mp inside with rfl | inside
        · exact Nat.lt_of_not_le open_
        · exact left other (by simp [bufs,inside])

theorem notify_keeps (ordered : Ordered client) (inOrder : DrainsInOrder client) : Keeps notifySpaceAvailable client := by
  let notified := { client with session := { client.session with stream := { client.session.stream with spaceAvailablePosted := false } } }
  obtain ⟨client',run,ordered',channel⟩ := @streamsCallback_keeps notified (notified_sound ordered.sound) ordered.whole ordered.left inOrder
  refine ⟨client',fun locks => ?_,ordered',channel⟩
  have isOpen : ¬client.session.stream.eosInp = true := by simp [ordered.sound.isOpen]
  exact (if_neg isOpen).trans (run locks)

theorem remote_keeps (ordered : Ordered client) {e : Streams.Event UInt8} (byReader : Remote e)
    (reads : Streams.NoEmptyRead client.session e) : Keeps (remote e) client := by
  obtain ⟨next,step,sound,added,drains⟩ := remote_spec ordered.sound byReader reads
  refine ⟨{ client with session := next },fun locks => ?_,⟨sound,?_,ordered.left,fun some_ => drains.keeps (ordered.wakes some_)⟩,rfl⟩
  · simp [remote,step,Client.lock]
  · rw [added]
    exact ordered.whole

theorem subscribe_sound (sound : Sound t) (fresh : channel ∉ t.stream.clients.map Streams.Client.channel) :
    Sound (subscribe t channel) := by
  obtain ⟨accepted,agrees⟩ := sound.agrees.createClient fresh
  refine ⟨?_,?_,sound.isOpen,sound.wide⟩
  · exact ((Streams.feed UInt8).accepts_append ..).mpr ⟨sound.accepted,accepted,trivial⟩
  · rw [feed,subscribe,Monitor.after_append]
    exact agrees

/-- A new stream with its subscribers has no text. -/
theorem virtualStreamCreate_sound (subscriptions : List Nat) (distinct : subscriptions.Nodup) (heap : Nat → UInt8) :
    Sound (virtualStreamCreate subscriptions heap) ∧ (feed (virtualStreamCreate subscriptions heap)).added = [] := by
  suffices all : ∀ (t : Session UInt8), Sound t → (feed t).added = [] →
      (∀ channel ∈ subscriptions, channel ∉ t.stream.clients.map Streams.Client.channel) →
      Sound (subscriptions.foldl subscribe t) ∧ (feed (subscriptions.foldl subscribe t)).added = [] by
    refine all _ ⟨trivial,Streams.create_agrees false 0x1000 heap,rfl,?_⟩ rfl fun _ _ => List.not_mem_nil
    change 1 < 0x1000 + 1
    decide
  induction subscriptions with
  | nil => exact fun t sound empty _ => ⟨sound,empty⟩
  | cons channel rest ih =>
    intro t sound empty apart
    obtain ⟨other,distinct⟩ := List.nodup_cons.mp distinct
    have fresh := apart channel List.mem_cons_self
    refine ih distinct (subscribe t channel) (subscribe_sound sound fresh) ?_ fun reader inside => ?_
    · rw [feed,subscribe,Monitor.after_append]
      exact empty
    · have far := apart reader (List.mem_cons_of_mem _ inside)
      have different : reader ≠ channel := fun same => other (same ▸ inside)
      simpa [subscribe,Streams.createClient,different] using far

end Clients

section Runs

/-- Attempts that commit keep the order, and no read asks for no bytes. -/
def Orderly (s : State) : Event → Prop
  | .evaluate prints clientExited => clientExited = true → ∀ client ∈ attempt s.clients prints, CommitsInOrder client
  | .space channel => ∀ client ∈ s.clients, client.channel = channel → DrainsInOrder client
  | .read channel reader token size =>
    ∀ client ∈ s.clients, client.channel = channel → Streams.NoEmptyRead client.session (.read reader token size)
  | _ => True

instance (s : State) : ∀ e, Decidable (Orderly s e)
  | .evaluate prints clientExited =>
    inferInstanceAs (Decidable (clientExited = true → ∀ client ∈ attempt s.clients prints, CommitsInOrder client))
  | .space channel => inferInstanceAs (Decidable (∀ client ∈ s.clients, client.channel = channel → DrainsInOrder client))
  | .read channel reader token size => inferInstanceAs (Decidable (∀ client ∈ s.clients, client.channel = channel →
      Streams.NoEmptyRead client.session (.read reader token size)))
  | .open_ _ _ _ | .close _ | .connect _ _ _ | .disconnect _ _ _ => inferInstanceAs (Decidable True)

def locks (clients : List Client) : Int := (clients.map Client.lock).sum

structure Holds (s : State) : Prop where
  ordered : ∀ client ∈ s.clients, Ordered client
  balanced : s.runCtrlLocks = locks s.clients

theorem forClients_keeps {which : Client → Bool} {f : Callback} {clients : List Client} (ordered : ∀ client ∈ clients, Ordered client)
    (keeps : ∀ client ∈ clients, which client = true → Keeps f client) (held : Int) :
    ∃ clients', forClients which f held clients = .ok (held + locks clients' - locks clients,clients') ∧
      ∀ client ∈ clients', Ordered client := by
  induction clients generalizing held with
  | nil => exact ⟨[],by simp [forClients,locks],nofun⟩
  | cons client rest ih =>
    obtain ⟨client',run,ordered'⟩ : ∃ client', (if which client then f held client else pure (held,client) : Code (Int × Client)) =
        .ok (held + client'.lock - client.lock,client') ∧ Ordered client' := by
      by_cases chosen : which client = true
      · obtain ⟨client',run,ordered',_⟩ := keeps client List.mem_cons_self chosen
        exact ⟨client',by simp [chosen,run],ordered'⟩
      · exact ⟨client,by simp [chosen],ordered client List.mem_cons_self⟩
    obtain ⟨rest',runs,others⟩ := ih (fun other inside => ordered other (List.mem_cons_of_mem _ inside))
      (fun other inside => keeps other (List.mem_cons_of_mem _ inside)) (held + client'.lock - client.lock)
    refine ⟨client' :: rest',?_,List.forall_mem_cons.mpr ⟨ordered',others⟩⟩
    have total : held + client'.lock - client.lock + locks rest' - locks rest = held + locks (client' :: rest') - locks (client :: rest) := by
      simp only [locks,List.map_cons,List.sum_cons]
      omega
    simp only [forClients,run]
    simp only [runs,Code.ok_bind,Code.pure_eq,total]

variable {s : State}

theorem Holds.forClients (holds : Holds s) {which : Client → Bool} {f : Callback}
    (keeps : ∀ client ∈ s.clients, which client = true → Keeps f client) : ∃ next, s.forClients which f = .ok next ∧ Holds next := by
  obtain ⟨clients,run,ordered⟩ := forClients_keeps holds.ordered keeps s.runCtrlLocks
  refine ⟨_,by simp only [State.forClients,run]; rfl,ordered,?_⟩
  change s.runCtrlLocks + locks clients - locks s.clients = locks clients
  rw [holds.balanced]
  omega

/-- Printing touches `tmp` only. -/
theorem attempt_holds (holds : Holds s) (prints : List (Nat × List UInt8)) :
    Holds { s with clients := attempt s.clients prints } := by
  suffices all : ∀ clients, (∀ client ∈ clients, Ordered client) → locks clients = s.runCtrlLocks →
      (∀ client ∈ prints.foldl (fun clients print => dprintfExpressionCtx clients print.1 print.2) clients, Ordered client) ∧
      locks (prints.foldl (fun clients print => dprintfExpressionCtx clients print.1 print.2) clients) = s.runCtrlLocks by
    obtain ⟨ordered,balanced⟩ := all (s.clients.map fun client : Client => { client with tmp := [] })
      (by
        intro client inside
        obtain ⟨old,listed,rfl⟩ := List.mem_map.mp inside
        have known := holds.ordered old listed
        exact ⟨known.sound,known.whole,known.left,known.wakes⟩)
      (by
        rw [holds.balanced,locks,List.map_map]
        rfl)
    exact ⟨ordered,balanced.symm⟩
  induction prints with
  | nil => exact fun clients ordered balanced => ⟨ordered,balanced⟩
  | cons print rest ih =>
    intro clients ordered balanced
    refine ih _ (fun client inside => ?_) ?_
    · obtain ⟨old,listed,rfl⟩ := List.mem_map.mp inside
      have known := ordered old listed
      split
      · exact ⟨known.sound,known.whole,known.left,known.wakes⟩
      · exact known
    · rw [← balanced]
      simp only [locks,dprintfExpressionCtx,List.map_map]
      congr 1
      apply List.map_congr_left
      intro client _
      simp only [Function.comp_apply]
      split <;> rfl

theorem commandOpen_holds (holds : Holds s) (channel : Nat) {subscriptions : List Nat} (distinct : subscriptions.Nodup)
    (heap : Nat → UInt8) : Holds (commandOpen s channel subscriptions heap) := by
  unfold commandOpen
  split
  · exact holds
  · obtain ⟨sound,empty⟩ := virtualStreamCreate_sound subscriptions distinct heap
    refine ⟨List.forall_mem_cons.mpr ⟨⟨sound,by simp [empty,waiting],nofun,fun some_ => absurd rfl some_⟩,holds.ordered⟩,?_⟩
    simpa [locks,Client.lock] using holds.balanced

theorem freeClient_holds (holds : Holds s) (channel : Nat) : Holds (freeClient s channel) := by
  refine ⟨fun client inside => holds.ordered client (List.mem_of_mem_filter inside),?_⟩
  have split : ∀ clients : List Client, locks clients = locks (clients.filter fun client => client.channel ≠ channel) +
      ((clients.filter fun client => client.channel = channel).map Client.lock).sum := by
    intro clients
    induction clients with
    | nil => rfl
    | cons client rest ih =>
      simp only [locks] at ih
      by_cases same : client.channel = channel <;> simp [locks,same] <;> simp at ih <;> omega
  have all := split s.clients
  have gone : (freeClient s channel).runCtrlLocks = s.runCtrlLocks -
    ((s.clients.filter fun client => client.channel = channel).map Client.lock).sum := rfl
  rw [gone,holds.balanced,all]
  exact Int.add_sub_cancel ..

theorem step_holds {e : Event} (holds : Holds s) (can : Enabled s e) (orderly : Orderly s e) :
    ∃ next, step s e = .ok next ∧ Holds next := by
  have mine : ∀ {channel : Nat} {client : Client}, ofChannel channel client = true → client.channel = channel := of_decide_eq_true
  cases e with
  | open_ channel subscriptions heap => exact ⟨_,rfl,commandOpen_holds holds channel can heap⟩
  | close channel => exact ⟨_,rfl,freeClient_holds holds channel⟩
  | evaluate prints clientExited =>
    have printed := attempt_holds holds prints
    cases clientExited with
    | false => exact ⟨_,rfl,printed⟩
    | true => exact printed.forClients fun client inside _ => commit_keeps (printed.ordered client inside) (orderly rfl client inside)
  | space channel =>
    exact holds.forClients fun client inside chosen => notify_keeps (holds.ordered client inside) (orderly client inside (mine chosen))
  | connect channel reader token =>
    exact holds.forClients fun client inside _ => remote_keeps (holds.ordered client inside) trivial trivial
  | disconnect channel reader token =>
    exact holds.forClients fun client inside _ => remote_keeps (holds.ordered client inside) trivial trivial
  | read channel reader token size =>
    exact holds.forClients fun client inside chosen =>
      remote_keeps (holds.ordered client inside) trivial (orderly client inside (mine chosen))

/-- A connected reader that is not disconnected keeps the position where it began. -/
theorem received_stays {reader start : Nat} {bytes : List UInt8}
    (inOrder : Streams.InOrder f reader (some (start,bytes))) (accepted : (Streams.feed UInt8).Accepts f log)
    (stays : .disconnected reader ∉ log) :
    ∃ later, log.foldl (Streams.receive reader) (some (start,bytes)) = some (start,later) := by
  induction log generalizing f bytes with
  | nil => exact ⟨bytes,rfl⟩
  | cons e rest ih =>
    have next := Streams.receive_inOrder inOrder accepted.1
    have stays' : .disconnected reader ∉ rest := fun inside => stays (List.mem_cons_of_mem _ inside)
    obtain ⟨more,same⟩ : ∃ more, Streams.receive reader (some (start,bytes)) e = some (start,more) := by
      rcases e with _ | ⟨other,position⟩ | other | _ | ⟨other,_,⟨_,_ | _,_,_⟩ | _⟩
      · exact ⟨_,rfl⟩
      · by_cases mine : other = reader
        · subst mine
          obtain ⟨⟨_,known⟩,_⟩ := inOrder
          exact absurd (known.symm.trans accepted.1.1) nofun
        · exact ⟨bytes,if_neg mine⟩
      · by_cases mine : other = reader
        · exact absurd (mine ▸ List.mem_cons_self) stays
        · exact ⟨bytes,if_neg mine⟩
      · exact ⟨_,rfl⟩
      · by_cases mine : other = reader <;> simp [Streams.receive,mine]
      all_goals exact ⟨_,rfl⟩
    rw [List.foldl_cons,same]
    exact ih (same ▸ next) accepted.2 stays'

theorem received_start {reader start : Nat} {state : Option (Nat × List UInt8)}
    (inOrder : Streams.InOrder f reader state) (accepted : (Streams.feed UInt8).Accepts f log)
    (connected : .connected reader start ∈ log) (stays : .disconnected reader ∉ log) :
    ∃ bytes, log.foldl (Streams.receive reader) state = some (start,bytes) := by
  induction log generalizing f state with
  | nil => cases connected
  | cons e rest ih =>
    have next := Streams.receive_inOrder inOrder accepted.1
    have stays' : .disconnected reader ∉ rest := fun inside => stays (List.mem_cons_of_mem _ inside)
    rcases List.mem_cons.mp connected with rfl | later
    · have fresh : Streams.receive reader state (.connected reader start) = some (start,[]) := if_pos rfl
      rw [List.foldl_cons,fresh]
      exact received_stays (fresh ▸ next) accepted.2 stays'
    · exact ih next accepted.2 later stays'

/-- What a reader got, what is in the buffer for it, and what waits are what was committed since it was connected. Text that
waits will go on: an event for space is posted, or will be with the next read. -/
structure Delivers (client : Client) : Prop where
  inOrder : ∀ reader start bytes, Streams.received reader client.session.log = some (start,bytes) →
    ∃ unread, unread <:+ client.session.stream.contents ∧ bytes ++ unread ++ waiting client.bufs = client.committed.drop start
  start : ∀ reader start, .connected reader start ∈ client.session.log → .disconnected reader ∉ client.session.log →
    ∃ bytes, Streams.received reader client.session.log = some (start,bytes)
  wakes : client.bufs ≠ [] → Wakes client.session.stream

theorem Ordered.delivers (ordered : Ordered client) : Delivers client := by
  obtain ⟨⟨accepted,agrees,isOpen,wide⟩,whole,left,wakes⟩ := ordered
  have empty : ∀ reader, Streams.InOrder (Feed.empty : Feed UInt8) reader none := fun _ => rfl
  refine ⟨fun reader start bytes got => ?_,fun reader start => received_start (empty reader) accepted,wakes⟩
  have inOrder : Streams.InOrder (feed client.session) reader (Streams.received reader client.session.log) :=
    Streams.accepted_inOrder rfl accepted
  rw [got] at inOrder
  obtain ⟨⟨requests,known⟩,short,front⟩ := inOrder
  obtain ⟨unread,split⟩ := front
  have member : reader ∈ client.session.stream.clients.map Streams.Client.channel := by
    by_contra missing
    exact absurd (known.symm.trans (agrees.others reader missing)) nofun
  obtain ⟨other,listed,rfl⟩ := List.mem_map.mp member
  have place : other.place = ⟨start + bytes.length,requests⟩ := Option.some.inj ((agrees.clients.known other listed).symm.trans known)
  have position : other.pos = start + bytes.length := congrArg Streams.Place.position place
  have low := (agrees.clients.within other listed).1
  have dropped : unread = (feed client.session).added.drop (start + bytes.length) := by
    rw [← List.drop_drop,← split,List.drop_left]
  refine ⟨unread,?_,?_⟩
  · rw [agrees.carries.contents,dropped]
    rw [position] at low
    obtain ⟨more,sum⟩ := Nat.exists_eq_add_of_le low
    rw [sum,← List.drop_drop]
    exact List.drop_suffix ..
  · rw [split,← whole,List.drop_append_of_le_length (by omega)]

/-- In a run where no new text passes a backlog, and no read asks for no bytes, no assertion fails, readers get the text of
commits in order, and there is one lock for each client with a backlog. -/
theorem printf_in_order (events : List Event) (meets : process.Meets Orderly .initial events) :
    (∃ final, process.exec .initial events = .ok final ∧ (∀ client ∈ final.clients, Delivers client) ∧
      final.runCtrlLocks = locks final.clients) ∨ process.exec .initial events = .error .stuck := by
  have start : Holds .initial := ⟨nofun,rfl⟩
  rcases process.exec_returns Holds (fun s e => step_holds) start meets with ⟨final,run,holds⟩ | none_
  · exact .inl ⟨final,run,fun client inside => (holds.ordered client inside).delivers,holds.balanced⟩
  · exact .inr none_

/-- Two attempts of which one commits, a full stream, reads that free space, and a text after the backlog is gone. -/
theorem printf_in_order_example :
    (∃ final, process.exec .initial
        [.open_ 1 [2] (fun _ => 0),.evaluate [(1,[65,66])] false,.evaluate [(1,List.replicate 4097 67)] true,.read 1 2 0 5,
          .space 1,.evaluate [(1,[68])] true,.read 1 2 1 9] = .ok final ∧ (∀ client ∈ final.clients, Delivers client) ∧
      final.runCtrlLocks = locks final.clients) ∨ process.exec .initial
        [.open_ 1 [2] (fun _ => 0),.evaluate [(1,[65,66])] false,.evaluate [(1,List.replicate 4097 67)] true,.read 1 2 0 5,
          .space 1,.evaluate [(1,[68])] true,.read 1 2 1 9] = .error .stuck :=
  printf_in_order _ (by decide +kernel)

/-- A text that is committed when a reader has freed space, and the event for space is still to come, passes the backlog: of the
last two bytes of both texts, the reader gets the second one first. -/
theorem printf_passes_backlog :
    ∃ final, process.exec .initial
        [.open_ 1 [2] (fun _ => 0),.evaluate [(1,List.replicate 4097 65)] true,.read 1 2 0 1,.evaluate [(1,[66])] true,
          .space 1,.read 1 2 1 4096,.space 1,.read 1 2 2 1] = .ok final ∧
      (∀ client ∈ final.clients, client.committed.drop 4096 = [65,66] ∧
        (Streams.received 2 client.session.log).map (fun got => (got.1,got.2.length,got.2.drop 4096)) = some (0,4098,[66,65])) ∧
      final.clients.length = 1 := by
  decide +kernel

end Runs

end Tcf.DPrintf
