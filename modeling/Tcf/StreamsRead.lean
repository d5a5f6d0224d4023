import Tcf.StreamsBuffer
import Tcf.Base.Monitor

/-! What remote readers of a stream get: over the replies to its reads, in the order of the
reads, a client receives the bytes added since it was connected. -/
namespace Tcf.Streams

open Circular

variable {α : Type}

/-- A client as its replies show it: how far it has read, and the reads that wait. -/
structure Place where
  position : Nat
  waiting : List ReadRequest
  deriving DecidableEq, Repr

/-- What was added to a stream, and what each connected client received of it. -/
structure Feed (α : Type) where
  added : List α
  closed : Bool
  clients : Nat → Option Place

inductive Entry (α : Type) where
  | added (bytes : List α) (eos : Bool)
  | connected (channel position : Nat)
  | disconnected (channel : Nat)
  | requested (channel token size : Nat)
  | replied (reply : Reply α)
  deriving DecidableEq, Repr

def Feed.set (feed : Feed α) (channel : Nat) (place : Option Place) : Feed α :=
  { feed with clients := Function.update feed.clients channel place }

/-- A reply with data, or with the end of the stream, to the oldest waiting read. -/
def Delivers (feed : Feed α) (place : Place) (token : Nat) (data : List α) (lost : Nat) (eos : Bool) : Prop :=
  ∃ r rest, place.waiting = r :: rest ∧ token = r.token ∧ lost = 0 ∧ data.length ≤ r.size ∧
    data <+: feed.added.drop place.position ∧ (data ≠ [] ∨ eos = true) ∧
    (eos = true ↔ feed.closed = true ∧ place.position + data.length = feed.added.length)

def Feed.allows (feed : Feed α) : Entry α → Prop
  | .added bytes _ => feed.closed = true → bytes = []
  | .connected channel position => feed.clients channel = none ∧ position ≤ feed.added.length
  | .disconnected channel => feed.clients channel ≠ none
  | .requested channel _ _ => feed.clients channel ≠ none
  | .replied ⟨channel,token,.read data none lost eos⟩ =>
    ∃ place, feed.clients channel = some place ∧ Delivers feed place token (data.getD []) lost eos
  | .replied ⟨_,_,.read _ (some _) _ _⟩ => True
  | .replied ⟨_,_,.status _⟩ => True

def Feed.next (feed : Feed α) : Entry α → Feed α
  | .added bytes eos => { feed with added := feed.added ++ bytes, closed := feed.closed || eos }
  | .connected channel position => feed.set channel (some ⟨position,[]⟩)
  | .disconnected channel => feed.set channel none
  | .requested channel token size =>
    feed.set channel ((feed.clients channel).map fun place =>
      { place with waiting := place.waiting ++ [⟨token,size⟩] })
  | .replied ⟨channel,_,.read data none _ _⟩ =>
    feed.set channel ((feed.clients channel).map fun place =>
      ⟨place.position + (data.getD []).length,place.waiting.tail⟩)
  | .replied ⟨_,_,.read _ (some _) _ _⟩ => feed
  | .replied ⟨_,_,.status _⟩ => feed

def feed (α : Type) : Monitor (Feed α) (Entry α) := ⟨Feed.allows,Feed.next⟩

def Feed.empty : Feed α := ⟨[],false,fun _ => none⟩

/-- A stream with all that happened on it. -/
structure Session (α : Type) where
  stream : Stream α
  log : List (Entry α)

inductive Event (α : Type) where
  | addData (bytes : List α) (eos : Bool)
  | connect (channel token : Nat)
  | disconnect (channel token : Nat)
  | read (channel token size : Nat)
  deriving DecidableEq, Repr

/-- Replies sent since `before`. -/
def repliesSince (before s : Stream α) : List (Entry α) :=
  (s.sent.drop before.sent.length).map .replied

def Session.goOn (t : Session α) (entries : List (Entry α)) (s : Stream α) : Session α :=
  ⟨s,t.log ++ entries ++ repliesSince t.stream s⟩

def Session.step (t : Session α) : Event α → Code (Session α)
  | .addData bytes eos => do
    let (s,error,done) ← virtualStreamAddData t.stream bytes eos
    pure (t.goOn [.added (bytes.take done) (error.isNone && eos && done == bytes.length)] s)
  | .connect channel token =>
    let connected := match findClient t.stream channel with
      | none => [.connected channel (t.stream.pos - t.stream.len)]
      | some _ => []
    pure (t.goOn connected (commandConnect t.stream channel token))
  | .disconnect channel token => do
    let s ← commandDisconnect t.stream channel token
    pure (t.goOn (if (findClient t.stream channel).isSome then [.disconnected channel] else []) s)
  | .read channel token size => do
    let s ← commandRead t.stream channel token size
    pure (t.goOn (if (findClient t.stream channel).isSome then [.requested channel token size] else []) s)

def session (α : Type) : Process (Session α) (Event α) where
  enabled _ _ := True
  decide _ _ := isTrue trivial
  step := Session.step

def Session.create (remoteWrite : Bool) (bufLen : Nat) (heap : Nat → α) : Session α :=
  ⟨virtualStreamCreate true remoteWrite bufLen heap,[]⟩

/-- Waiting reads of a client that `avail` bytes more can answer: none that data is to
answer asks for no bytes. The distance is cast to `unsigned`. -/
def Served : Nat → List ReadRequest → Prop
  | _, [] => True
  | avail, r :: rest => avail = 0 ∨ (0 < r.size ∧ avail < 2^32 ∧ Served (avail - r.size) rest)

instance decideServed : ∀ avail requests, Decidable (Served avail requests)
  | _, [] => isTrue trivial
  | avail, r :: rest =>
    have : Decidable (Served (avail - r.size) rest) := decideServed _ rest
    inferInstanceAs (Decidable (avail = 0 ∨ _))

/-- No read asks for no bytes where bytes are there for it, and none is 2^32 bytes behind. -/
def NoEmptyRead (t : Session α) : Event α → Prop
  | .addData bytes _ => t.stream.eosInp = false →
    ∀ client ∈ t.stream.clients, Served (min t.stream.room bytes.length) client.readRequests
  | .read channel _ size => ∀ client ∈ t.stream.clients, client.channel = channel →
    client.pos = t.stream.pos ∨ (0 < size ∧ t.stream.pos - client.pos < 2^32)
  | .connect _ _ => True
  | .disconnect _ _ => True

instance (t : Session α) (e : Event α) : Decidable (NoEmptyRead t e) :=
  match e with
  | .addData bytes _ => inferInstanceAs (Decidable (t.stream.eosInp = false →
      ∀ client ∈ t.stream.clients, Served (min t.stream.room bytes.length) client.readRequests))
  | .read channel _ size => inferInstanceAs (Decidable (∀ client ∈ t.stream.clients,
      client.channel = channel → client.pos = t.stream.pos ∨ (0 < size ∧ t.stream.pos - client.pos < 2^32)))
  | .connect _ _ => isTrue trivial
  | .disconnect _ _ => isTrue trivial


/-- The buffer holds the last of what was added. -/
structure Carries (s : Stream α) (feed : Feed α) : Prop where
  indexed : Indexed s
  readable : s.remoteRead = true
  total : feed.added.length = s.pos
  closed : feed.closed = s.eosInp
  fits : s.len ≤ s.pos
  contents : s.contents = feed.added.drop (s.pos - s.len)

variable {s : Stream α}

theorem Carries.frame {feed : Feed α} (h : Carries s feed) (clients : List (Client α))
    (sent : List (Reply α)) (channels : Nat → Option Place) :
    Carries { s with clients, sent } { feed with clients := channels } :=
  ⟨⟨h.indexed.inp,h.indexed.out⟩,h.readable,h.total,h.closed,h.fits,h.contents⟩

/-- A client between the ends of the buffer. -/
def Within (s : Stream α) (client : Client α) : Prop := s.pos - s.len ≤ client.pos ∧ client.pos ≤ s.pos

variable {client : Client α}

/-- A reply that `Delivers`, with the client behind it. -/
theorem sendReadReply_delivers {feed : Feed α} (h : Carries s feed)
    (within : Within s client) (something : client.pos < s.pos ∨ s.eosInp = true) (token : Nat) {size : Nat}
    (asked : client.pos = s.pos ∨ (0 < size ∧ s.pos - client.pos < 2^32)) (rest : List ReadRequest) :
    ∃ data eos, sendReadReply s client token size =
        .ok (s.reply client.channel token (.read data none 0 eos),
          { client with pos := client.pos + (data.getD []).length }) ∧
      (data.getD []).length = min (s.pos - client.pos) size ∧
      Delivers feed ⟨client.pos,⟨token,size⟩ :: rest⟩ token (data.getD []) 0 eos := by
  obtain ⟨low,high⟩ := within
  have fits := h.fits
  have near : s.pos - client.pos ≤ s.len := by omega
  have cast : unsigned (s.pos - client.pos) = s.pos - client.pos := by
    apply Nat.mod_eq_of_lt
    rcases asked with same | ⟨_,close⟩
    · omega
    · exact close
  let bytes := (feed.added.drop client.pos).take (min (s.pos - client.pos) size)
  have length : bytes.length = min (s.pos - client.pos) size := by
    rw [List.length_take,List.length_drop,h.total]
    omega
  have data : fetch s.buf s.bufLen ((s.bufInp + s.bufLen - (s.pos - client.pos)) % s.bufLen)
      (min (s.pos - client.pos) size) = bytes := by
    rw [fetch_behind h.indexed near (by omega),h.contents,List.drop_drop]
    have place : s.pos - s.len + (s.len - (s.pos - client.pos)) = client.pos := by omega
    rw [place]
  have nonempty : s.len > 0 ∨ s.eosInp = true := by
    rcases something with less | closed
    · left
      omega
    · exact .inr closed
  let eos := (client.pos + bytes.length == s.pos) && s.eosInp
  have answers : eos = true ∨ 0 < bytes.length := by
    rcases asked with same | ⟨positive,_⟩
    · left
      rcases something with less | closed
      · omega
      · simp [eos,closed,length,same]
    · rcases Nat.lt_or_ge client.pos s.pos with less | more
      · right
        omega
      · left
        have same : client.pos = s.pos := by omega
        rcases something with less | closed
        · omega
        · simp [eos,closed,length,same]
  have given : ((if bytes.length > 0 then some bytes else none).getD []) = bytes := by
    split
    next some_ => rfl
    next none_ => exact (List.length_eq_zero_iff.mp (by omega)).symm
  refine ⟨if bytes.length > 0 then some bytes else none,eos,?_,?_,?_⟩
  · have moved : client.pos + bytes.length ≤ s.pos := by omega
    rw [given]
    simp only [sendReadReply,if_neg (Nat.not_lt.mpr near),cast,data]
    simp only [← length,Nat.add_zero,Nat.zero_add,require_true nonempty,require_true high,
      require_true moved,Code.ok_bind]
    rw [require_true answers]
    rfl
  · rw [given,length]
  · rw [given]
    refine ⟨⟨token,size⟩,rest,rfl,rfl,rfl,?_,List.take_prefix ..,?_,?_⟩
    · change bytes.length ≤ size
      omega
    · rcases answers with ended | some_
      · exact .inr ended
      · exact .inl (List.ne_nil_of_length_pos some_)
    · rw [h.total,h.closed]
      simp [eos,and_comm]


/-- Replies change nothing else. -/
def Stream.answered (s : Stream α) (replies : List (Reply α)) : Stream α :=
  { s with sent := s.sent ++ replies }

theorem answered_answered (s : Stream α) (one two : List (Reply α)) :
    (s.answered one).answered two = s.answered (one ++ two) := by
  simp [Stream.answered]

/-- A client that waits has read everything of an open stream. -/
def Caught (s : Stream α) (client : Client α) : Prop :=
  client.readRequests ≠ [] → client.pos = s.pos ∧ s.eosInp = false

def Client.place (client : Client α) : Place := ⟨client.pos,client.readRequests⟩

/-- What the log says of a client is what its record says. -/
def Known (feed : Feed α) (client : Client α) : Prop := feed.clients client.channel = some client.place

theorem served_zero : ∀ requests : List ReadRequest, Served 0 requests
  | [] => trivial
  | _ :: _ => .inl rfl

@[simp] theorem set_set (f : Feed α) (channel : Nat) (one two : Option Place) :
    (f.set channel one).set channel two = f.set channel two := by simp [Feed.set]

variable {f : Feed α}

theorem answerReads_delivers {requests : List ReadRequest}
    (h : Carries s f) (within : Within s client) (served : Served (s.pos - client.pos) requests)
    (known : f.clients client.channel = some ⟨client.pos,requests⟩) :
    ∃ replies pos left, answerReads s client requests =
        .ok (s.answered replies,{ client with pos := pos, readRequests := left }) ∧
      client.pos ≤ pos ∧ pos ≤ s.pos ∧ (left ≠ [] → pos = s.pos ∧ s.eosInp = false) ∧
      (feed α).Accepts f (replies.map .replied) ∧
      (feed α).after f (replies.map .replied) = f.set client.channel (some ⟨pos,left⟩) := by
  induction requests generalizing s f client with
  | nil =>
    refine ⟨[],client.pos,[],?_,Nat.le_refl _,within.2,nofun,trivial,?_⟩
    · simp [answerReads,Stream.answered]
    · simp [Feed.set,← known]
  | cons r rest ih =>
    by_cases something : client.pos < s.pos ∨ s.eosInp = true
    · have asked : client.pos = s.pos ∨ (0 < r.size ∧ s.pos - client.pos < 2^32) := by
        rcases served with none_ | ⟨positive,close,_⟩
        · have high := within.2
          left
          omega
        · exact .inr ⟨positive,close⟩
      obtain ⟨data,eos,sent,size,delivers⟩ := sendReadReply_delivers h within something r.token asked rest
      have high := within.2
      let next := { client with pos := client.pos + (data.getD []).length }
      let reply : Reply α := ⟨client.channel,r.token,.read data none 0 eos⟩
      let f' := f.set client.channel (some ⟨next.pos,rest⟩)
      have carries : Carries (s.answered [reply]) f' := h.frame s.clients _ _
      have served' : Served (s.pos - next.pos) rest := by
        have left : s.pos - next.pos = s.pos - client.pos - r.size := by
          simp only [next]
          omega
        rw [left]
        rcases served with none_ | ⟨_,_,served⟩
        · rw [none_,Nat.zero_sub]
          exact served_zero rest
        · exact served
      have within' : Within (s.answered [reply]) next := by
        constructor
        · exact Nat.le_trans within.1 (Nat.le_add_right ..)
        · change client.pos + _ ≤ s.pos
          omega
      obtain ⟨replies,pos,left,run,low,top,caught,accepted,after⟩ :=
        ih carries within' served' (by simp [f',next,Feed.set])
      have step : (feed α).next f (.replied reply) = f' := by
        change f.set client.channel _ = _
        rw [known]
        rfl
      refine ⟨reply :: replies,pos,left,?_,?_,top,caught,?_,?_⟩
      · rw [answerReads,if_pos something,sent]
        exact run.trans (by rw [answered_answered]; rfl)
      · exact Nat.le_trans (Nat.le_add_right ..) low
      · refine ⟨⟨_,known,delivers⟩,?_⟩
        rw [step]
        exact accepted
      · rw [List.map_cons,Monitor.after_cons,step,after]
        exact set_set ..
    · rw [answerReads,if_neg something]
      have full : client.pos = s.pos ∧ s.eosInp = false := by
        have high := within.2
        simpa [Nat.le_antisymm_iff,high] using something
      refine ⟨[],client.pos,r :: rest,?_,Nat.le_refl _,within.2,fun _ => full,trivial,?_⟩
      · simp [Stream.answered]
      · simp [Feed.set,← known]

/-- The clients of a stream as its log has them. -/
structure Clients (s : Stream α) (f : Feed α) (clients : List (Client α)) : Prop where
  distinct : (clients.map Client.channel).Nodup
  within : ∀ client ∈ clients, Within s client
  caught : ∀ client ∈ clients, Caught s client
  known : ∀ client ∈ clients, Known f client

theorem answerClients_delivers {clients : List (Client α)} (h : Carries s f)
    (distinct : (clients.map Client.channel).Nodup) (within : ∀ client ∈ clients, Within s client)
    (known : ∀ client ∈ clients, Known f client)
    (served : ∀ client ∈ clients, Served (s.pos - client.pos) client.readRequests) :
    ∃ replies clients', answerClients s clients = .ok (s.answered replies,clients') ∧
      clients'.map Client.channel = clients.map Client.channel ∧
      (feed α).Accepts f (replies.map .replied) ∧
      (∃ f', (feed α).after f (replies.map .replied) = f' ∧ Carries s f' ∧ Clients s f' clients' ∧
        ∀ channel, channel ∉ clients.map Client.channel → f'.clients channel = f.clients channel) := by
  induction clients generalizing s f with
  | nil =>
    refine ⟨[],[],?_,rfl,trivial,f,rfl,h,⟨List.nodup_nil,nofun,nofun,nofun⟩,fun _ _ => rfl⟩
    simp [answerClients,Stream.answered]
  | cons client rest ih =>
    obtain ⟨fresh,distinct⟩ := List.nodup_cons.mp distinct
    obtain ⟨replies,pos,left,run,low,top,caught,accepted,after⟩ :=
      answerReads_delivers h (within client List.mem_cons_self) (served client List.mem_cons_self)
        (known client List.mem_cons_self)
    let f₁ := f.set client.channel (some ⟨pos,left⟩)
    have apart : ∀ other ∈ rest, other.channel ≠ client.channel := by
      intro other member same
      exact fresh (same ▸ List.mem_map_of_mem member)
    have known₁ : ∀ other ∈ rest, Known f₁ other := by
      intro other member
      have before := known other (List.mem_cons_of_mem _ member)
      simpa [Known,f₁,Feed.set,apart other member] using before
    have carries₁ : Carries (s.answered replies) f₁ := h.frame s.clients _ f₁.clients
    obtain ⟨more,rest',run',channels,accepted',f₂,after',carries,clients',frame⟩ :=
      ih carries₁ distinct
        (fun other member => within other (List.mem_cons_of_mem _ member)) known₁
        (fun other member => served other (List.mem_cons_of_mem _ member))
    refine ⟨replies ++ more,{ client with pos := pos, readRequests := left } :: rest',?_,?_,?_,f₂,?_,?_,?_,?_⟩
    · simp [answerClients,run,run',answered_answered]
    · simp [channels]
    · rw [List.map_append,Monitor.accepts_append,after]
      exact ⟨accepted,accepted'⟩
    · rw [List.map_append,Monitor.after_append,after]
      exact after'
    · exact carries.frame s.clients s.sent f₂.clients
    · have known₂ : Known f₂ { client with pos := pos, readRequests := left } := by
        have same := frame client.channel fresh
        rw [Known,same]
        simp [f₁,Feed.set,Client.place]
      have moved : Within s { client with pos := pos, readRequests := left } :=
        ⟨Nat.le_trans (within client List.mem_cons_self).1 low,top⟩
      refine ⟨?_,?_,?_,?_⟩
      · rw [List.map_cons,channels]
        exact List.nodup_cons.mpr ⟨fresh,distinct⟩
      · exact List.forall_mem_cons.mpr ⟨moved,clients'.within⟩
      · exact List.forall_mem_cons.mpr ⟨caught,clients'.caught⟩
      · exact List.forall_mem_cons.mpr ⟨known₂,clients'.known⟩
    · intro channel other
      have first : channel ≠ client.channel := fun same => other (same ▸ List.mem_cons_self)
      have later : channel ∉ rest.map Client.channel := fun member => other (List.mem_cons_of_mem _ member)
      rw [frame channel later]
      simp [f₁,Feed.set,first]

theorem Carries.advanced (h : Carries s f) {n : Nat} (within : n ≤ s.len)
    (posted : Bool) : Carries { s.advanced n with spaceAvailablePosted := posted } f := by
  obtain ⟨indexed,contents,len⟩ := advanced_contents h.indexed within
  have fits := h.fits
  refine ⟨⟨indexed.inp,indexed.out⟩,h.readable,h.total,h.closed,?_,?_⟩
  · change (s.advanced n).len ≤ s.pos
    omega
  · change (s.advanced n).contents = f.added.drop (s.pos - (s.advanced n).len)
    rw [contents,h.contents,List.drop_drop,len]
    congr 1
    omega

theorem unsigned_le (n : Nat) : unsigned n ≤ n := Nat.mod_le ..

/-- No client is left behind by the buffer. -/
theorem advanceStreamBuffer_moves (h : Carries s f)
    (within : ∀ client ∈ s.clients, Within s client) :
    ∃ n posted, n ≤ s.len ∧ (∀ client ∈ s.clients, s.pos - s.len + n ≤ client.pos) ∧
      advanceStreamBuffer s = .ok { s.advanced n with spaceAvailablePosted := posted } := by
  have less := len_less h.indexed
  have fits := h.fits
  have moves : ∃ n, n ≤ s.len ∧ (∀ client ∈ s.clients, s.pos - s.len + n ≤ client.pos) ∧
      advancedOut s = .ok ((s.bufOut + n) % s.bufLen) := by
    cases least : minPos s.clients with
    | none =>
      have empty : s.clients = [] := by simpa [minPos] using least
      have to_end : (s.bufOut + s.len) % s.bufLen = s.bufInp := Circular.gap_end h.indexed.inp h.indexed.out
      refine ⟨s.len,Nat.le_refl _,?_,?_⟩
      · simp [empty]
      · simp [advancedOut,least,to_end]
    | some low =>
      obtain ⟨member,lowest⟩ := List.min?_eq_some_iff.mp least
      obtain ⟨client,inside,rfl⟩ := List.mem_map.mp member
      have lowest : ∀ other ∈ s.clients, client.pos ≤ other.pos :=
        fun other member => lowest other.pos (List.mem_map_of_mem member)
      obtain ⟨low,high⟩ := within client inside
      by_cases more : client.pos > s.pos - s.len
      · have cast := unsigned_le (client.pos - (s.pos - s.len))
        have near : client.pos - (s.pos - s.len) ≤ s.len := by omega
        refine ⟨unsigned (client.pos - (s.pos - s.len)),by omega,?_,?_⟩
        · intro other member
          have above := lowest other member
          omega
        · simp only [advancedOut,least,if_pos more,require_true near,Code.ok_bind,Code.pure_eq]
      · have near : s.pos - client.pos < s.bufLen := by omega
        refine ⟨0,Nat.zero_le _,fun other member => ?_,?_⟩
        · have above := lowest other member
          omega
        · simp only [advancedOut,least,if_neg more,require_true near,Code.ok_bind,Code.pure_eq,Nat.add_zero,
            Nat.mod_eq_of_lt h.indexed.out]
  obtain ⟨n,short,behind,run⟩ := moves
  refine ⟨n,s.spaceAvailablePosted || s.len != (s.advanced n).len,short,behind,?_⟩
  have high : ∀ client ∈ s.clients, client.pos ≤ s.pos := fun client member => (within client member).2
  rw [advanceStreamBuffer,require_true h.readable,Code.ok_bind,require_true high,Code.ok_bind,run]
  rfl

/-- The stream and its log agree. -/
structure Agrees (s : Stream α) (f : Feed α) : Prop where
  carries : Carries s f
  clients : Clients s f s.clients
  others : ∀ channel, channel ∉ s.clients.map Client.channel → f.clients channel = none

/-- Advancing keeps the agreement. -/
theorem Agrees.advance (h : Agrees s f) :
    ∃ s', advanceStreamBuffer s = .ok s' ∧ s'.sent = s.sent ∧ Agrees s' f := by
  obtain ⟨n,posted,short,behind,run⟩ := advanceStreamBuffer_moves h.carries h.clients.within
  obtain ⟨_,_,len⟩ := advanced_contents h.carries.indexed short
  have fits := h.carries.fits
  refine ⟨_,run,rfl,h.carries.advanced short posted,?_,h.others⟩
  refine ⟨h.clients.distinct,fun client member => ⟨?_,(h.clients.within client member).2⟩,
    h.clients.caught,h.clients.known⟩
  have above := behind client member
  change s.pos - (s.advanced n).len ≤ client.pos
  omega

variable {channel : Nat}

theorem findClient_some
    (found : findClient s channel = some client) : client ∈ s.clients ∧ client.channel = channel := by
  have here := List.find?_some found
  exact ⟨List.mem_of_find?_eq_some found,by simpa using here⟩

theorem findClient_none (missing : findClient s channel = none) :
    channel ∉ s.clients.map Client.channel := by
  intro member
  obtain ⟨client,inside,rfl⟩ := List.mem_map.mp member
  have other := List.find?_eq_none.mp missing client inside
  simp at other

/-- What a step does to a stream and its log. -/
def Goes (t : Session α) (f : Feed α) (next : Session α) : Prop :=
  ∃ entries, next.log = t.log ++ entries ∧ (feed α).Accepts f entries ∧
    Agrees next.stream ((feed α).after f entries)

variable {t : Session α}

theorem goOn_goes {entries : List (Entry α)}
    {replies : List (Reply α)} (sent : s.sent = t.stream.sent ++ replies)
    (accepted : (feed α).Accepts f (entries ++ replies.map .replied))
    (agrees : Agrees s ((feed α).after f (entries ++ replies.map .replied))) :
    Goes t f (t.goOn entries s) := by
  have log : (t.goOn entries s).log = t.log ++ (entries ++ replies.map .replied) := by
    simp [Session.goOn,repliesSince,sent]
  exact ⟨_,log,accepted,agrees⟩

theorem Agrees.reply (h : Agrees s f) (channel token : Nat) (answer : Answer α) :
    Agrees (s.reply channel token answer) f :=
  ⟨h.carries.frame s.clients _ f.clients,
    ⟨h.clients.distinct,h.clients.within,h.clients.caught,h.clients.known⟩,h.others⟩

/-- Stored bytes are added bytes. -/
theorem Carries.store (h : Carries s f) (data : List α) (eos : Bool) :
    Carries (store s data eos)
      ((feed α).next f (.added (data.take s.room) (eos && (data.take s.room).length == data.length))) := by
  obtain ⟨indexed,contents,len⟩ := store_contents h.indexed data eos
  have fits := h.fits
  have pos : (Streams.store s data eos).pos = s.pos + (data.take s.room).length := rfl
  refine ⟨indexed,h.readable,?_,?_,by omega,?_⟩
  · change (f.added ++ _).length = _
    rw [List.length_append,h.total,pos]
  · change (f.closed || _) = (s.eosInp || _)
    rw [h.closed]
  · change _ = (f.added ++ data.take s.room).drop _
    have start : (Streams.store s data eos).pos - (Streams.store s data eos).len = s.pos - s.len := by omega
    rw [contents,h.contents,start,List.drop_append_of_le_length (by rw [h.total]; omega)]

/-- Where a store leaves a client. -/
theorem store_within (indexed : Indexed s) (fits : s.len ≤ s.pos) (data : List α) (eos : Bool)
    (h : Within s client) : Within (store s data eos) client := by
  obtain ⟨_,_,len⟩ := store_contents indexed data eos
  obtain ⟨low,high⟩ := h
  have pos : (store s data eos).pos = s.pos + (data.take s.room).length := rfl
  exact ⟨by omega,by omega⟩

theorem serveReaders_delivers (h : Carries s f)
    (distinct : (s.clients.map Client.channel).Nodup) (within : ∀ client ∈ s.clients, Within s client)
    (known : ∀ client ∈ s.clients, Known f client)
    (others : ∀ channel, channel ∉ s.clients.map Client.channel → f.clients channel = none)
    (served : ∀ client ∈ s.clients, Served (s.pos - client.pos) client.readRequests) :
    ∃ s' replies, serveReaders s = .ok s' ∧ s'.sent = s.sent ++ replies ∧
      (feed α).Accepts f (replies.map .replied) ∧ Agrees s' ((feed α).after f (replies.map .replied)) := by
  obtain ⟨replies,clients,run,channels,accepted,f',after,carries,clients',frame⟩ :=
    answerClients_delivers h distinct within known served
  have agrees : Agrees { s.answered replies with clients := clients } f' := by
    refine ⟨carries.frame clients _ f'.clients,?_,?_⟩
    · exact ⟨clients'.distinct,clients'.within,clients'.caught,clients'.known⟩
    · intro channel other
      have other : channel ∉ s.clients.map Client.channel := channels ▸ other
      rw [frame channel other,others channel other]
  obtain ⟨s',advance,sent,agrees'⟩ := agrees.advance
  refine ⟨s',replies,?_,sent,accepted,after ▸ agrees'⟩
  rw [serveReaders,run]
  exact advance

theorem addData_goes (h : Agrees t.stream f) {bytes : List α} {eos : Bool}
    (ok : NoEmptyRead t (.addData bytes eos)) : ∃ next, t.step (.addData bytes eos) = .ok next ∧ Goes t f next := by
  obtain ⟨s,log⟩ := t
  cases closed : s.eosInp with
  | true =>
    refine ⟨_,by simp only [Session.step,virtualStreamAddData,if_pos closed,if_pos h.carries.readable]; rfl,?_⟩
    apply goOn_goes (List.append_nil _).symm
    · simp [feed,Feed.allows]
    · have same : (feed α).after f [.added (bytes.take 0) false] = f := by simp [feed,Feed.next]
      exact same.symm ▸ h
  | false =>
    have indexed := h.carries.indexed
    have less : s.room < s.bufLen := by
      have room : s.room = s.bufLen - 1 - s.len := room_eq indexed
      have len : s.len < s.bufLen := len_less indexed
      omega
    have taken : bytes.take (min s.room bytes.length) = bytes.take s.room := by
      rw [← List.take_eq_take_min]
    have count : min s.room bytes.length = (bytes.take s.room).length := List.length_take.symm
    let f₁ := (feed α).next f (.added (bytes.take s.room) (eos && (bytes.take s.room).length == bytes.length))
    have carries : Carries (store s bytes eos) f₁ := h.carries.store bytes eos
    have within : ∀ client ∈ s.clients, Within (store s bytes eos) client := fun client member =>
      store_within indexed h.carries.fits bytes eos (h.clients.within client member)
    have allowed : (feed α).allows f
        (.added (bytes.take s.room) (eos && (bytes.take s.room).length == bytes.length)) := by
      intro ended
      rw [h.carries.closed,closed] at ended
      cases ended
    have announced : ∃ s' replies, announce (store s bytes eos) (min s.room bytes.length) = .ok s' ∧
        s'.sent = s.sent ++ replies ∧ (feed α).Accepts f₁ (replies.map .replied) ∧
        Agrees s' ((feed α).after f₁ (replies.map .replied)) := by
      have readable : (store s bytes eos).remoteRead = true := h.carries.readable
      by_cases news : (store s bytes eos).eosInp = true ∨ min s.room bytes.length > 0
      · rw [announce,if_pos readable,if_pos news]
        apply serveReaders_delivers carries h.clients.distinct within h.clients.known h.others
        intro client member
        have served := ok closed client member
        cases requests : client.readRequests with
        | nil => trivial
        | cons r rest =>
          have caught := h.clients.caught client member (by simp [requests])
          have far : (store s bytes eos).pos - client.pos = min s.room bytes.length := by
            rw [caught.1,count]
            exact Nat.add_sub_cancel_left ..
          rw [far,← requests]
          exact served
      · rw [announce,if_pos readable,if_neg news]
        obtain ⟨open_,nothing⟩ := not_or.mp news
        have empty : (bytes.take s.room).length = 0 := by omega
        refine ⟨_,[],rfl,(List.append_nil _).symm,trivial,carries,?_,h.others⟩
        refine ⟨h.clients.distinct,within,?_,h.clients.known⟩
        intro client member waits
        have caught := h.clients.caught client member waits
        refine ⟨?_,by simpa using open_⟩
        change client.pos = s.pos + _
        rw [caught.1,empty,Nat.add_zero]
    obtain ⟨s',replies,run,sent,accepted,agrees⟩ := announced
    refine ⟨_,by
      simp only [Session.step,virtualStreamAddData,closed,Bool.false_eq_true,if_false,require_true less,
        Code.ok_bind,run]
      rfl,?_⟩
    apply goOn_goes sent
    · rw [taken,count]
      exact ⟨allowed,accepted⟩
    · rw [taken,count]
      exact agrees

/-- Replies with an error, and replies to other commands, are no deliveries. -/
def Quiet (reply : Reply α) : Prop :=
  match reply.answer with
  | .read _ error _ _ => error ≠ none
  | .status _ => True

theorem quiet_still {replies : List (Reply α)} (quiet : ∀ reply ∈ replies, Quiet reply) :
    (feed α).Accepts f (replies.map .replied) ∧ (feed α).after f (replies.map .replied) = f := by
  apply (feed α).still
  intro e member
  obtain ⟨⟨channel,token,answer⟩,inside,rfl⟩ := List.mem_map.mp member
  have silent := quiet _ inside
  rcases answer with ⟨data,error | error,lost,eos⟩ | error
  · exact absurd rfl silent
  · exact ⟨trivial,rfl⟩
  · exact ⟨trivial,rfl⟩

theorem goOn_quiet {entries : List (Entry α)}
    {replies : List (Reply α)} (sent : s.sent = t.stream.sent ++ replies)
    (quiet : ∀ reply ∈ replies, Quiet reply) (accepted : (feed α).Accepts f entries)
    (agrees : Agrees s ((feed α).after f entries)) : Goes t f (t.goOn entries s) := by
  obtain ⟨silent,same⟩ := quiet_still (f := (feed α).after f entries) quiet
  apply goOn_goes sent
  · exact ((feed α).accepts_append f entries _).mpr ⟨accepted,silent⟩
  · rw [Monitor.after_append,same]
    exact agrees

/-- A new client starts with the oldest byte of the buffer. -/
theorem Agrees.createClient (h : Agrees s f) (fresh : channel ∉ s.clients.map Client.channel) :
    (feed α).allows f (.connected channel (s.pos - s.len)) ∧
      Agrees (createClient s channel) ((feed α).next f (.connected channel (s.pos - s.len))) := by
  let client : Client α := ⟨channel,s.pos - s.len,[],[]⟩
  let f₁ := f.set channel (some client.place)
  have fits := h.carries.fits
  constructor
  · refine ⟨h.others channel fresh,?_⟩
    rw [h.carries.total]
    exact Nat.sub_le ..
  · refine ⟨h.carries.frame _ s.sent f₁.clients,⟨?_,?_,?_,?_⟩,?_⟩
    · exact List.nodup_cons.mpr ⟨fresh,h.clients.distinct⟩
    · exact List.forall_mem_cons.mpr ⟨⟨Nat.le_refl _,Nat.sub_le ..⟩,h.clients.within⟩
    · exact List.forall_mem_cons.mpr ⟨nofun,h.clients.caught⟩
    · refine List.forall_mem_cons.mpr ⟨by simp [Known,feed,Feed.next,Feed.set,Client.place],?_⟩
      intro other member
      have apart : other.channel ≠ channel := fun same => fresh (same ▸ List.mem_map_of_mem member)
      simpa [Known,feed,Feed.next,Feed.set,apart] using h.clients.known other member
    · intro other missing
      have apart : other ≠ channel := fun same => missing (same ▸ List.mem_cons_self)
      have before := h.others other fun member => missing (List.mem_cons_of_mem _ member)
      simpa [feed,Feed.next,Feed.set,apart] using before

theorem connect_goes (h : Agrees t.stream f) (channel token : Nat) :
    ∃ next, t.step (.connect channel token) = .ok next ∧ Goes t f next := by
  have quiet : ∀ reply ∈ [(⟨channel,token,.status none⟩ : Reply α)], Quiet reply := by simp [Quiet]
  refine ⟨_,rfl,?_⟩
  cases found : findClient t.stream channel with
  | some client =>
    have same : commandConnect t.stream channel token = t.stream.reply channel token (.status none) := by
      simp [commandConnect,found]
    simp only [same]
    exact goOn_quiet rfl quiet trivial (h.reply ..)
  | none =>
    have created : commandConnect t.stream channel token =
        (createClient t.stream channel).reply channel token (.status none) := by
      simp [commandConnect,found]
    obtain ⟨accepted,agrees⟩ := h.createClient (findClient_none found)
    simp only [created]
    exact goOn_quiet rfl quiet ⟨accepted,trivial⟩ (agrees.reply ..)

theorem foldl_reply (channel : Nat) (token : β → Nat) (answer : Answer α) (items : List β) (s : Stream α) :
    items.foldl (fun s r => s.reply channel (token r) answer) s =
      s.answered (items.map fun r => ⟨channel,token r,answer⟩) := by
  induction items generalizing s with
  | nil => simp [Stream.answered]
  | cons r rest ih =>
    rw [List.foldl_cons,ih]
    simp [Stream.answered,Stream.reply]

theorem disconnect_goes (h : Agrees t.stream f) (channel token : Nat) :
    ∃ next, t.step (.disconnect channel token) = .ok next ∧ Goes t f next := by
  cases found : findClient t.stream channel with
  | none =>
    have quiet : ∀ reply ∈ [(⟨channel,token,.status (some .noSuchStream)⟩ : Reply α)], Quiet reply := by
      simp [Quiet]
    refine ⟨_,by simp only [Session.step,commandDisconnect,found]; rfl,?_⟩
    exact goOn_quiet rfl quiet trivial (h.reply ..)
  | some client =>
    obtain ⟨inside,rfl⟩ := findClient_some found
    let f₁ := f.set client.channel none
    let kept := t.stream.clients.filter fun other => other.channel ≠ client.channel
    let cancelled : List (Reply α) :=
      client.readRequests.map (fun r => ⟨client.channel,r.token,.read none (some .commandCancelled) 0 true⟩) ++
        client.writeRequests.map fun r => ⟨client.channel,r.token,.status (some .commandCancelled)⟩
    have member : ∀ other ∈ kept, other ∈ t.stream.clients ∧ other.channel ≠ client.channel := by
      simp [kept]
    have agrees : Agrees ({ t.stream with clients := kept }.answered cancelled) f₁ := by
      refine ⟨h.carries.frame kept _ f₁.clients,⟨?_,?_,?_,?_⟩,?_⟩
      · exact (h.clients.distinct.sublist (List.filter_sublist.map _))
      · exact fun other inside => h.clients.within other (member other inside).1
      · exact fun other inside => h.clients.caught other (member other inside).1
      · intro other inside
        obtain ⟨inside,apart⟩ := member other inside
        simpa [Known,f₁,Feed.set,apart] using h.clients.known other inside
      · intro other missing
        by_cases same : other = client.channel
        · simp [f₁,Feed.set,same]
        · have before : f.clients other = none := by
            apply h.others
            intro listed
            obtain ⟨record,old,rfl⟩ := List.mem_map.mp listed
            have stays : record ∈ kept := by simp [kept,old,same]
            exact missing (List.mem_map_of_mem stays)
          simpa [f₁,Feed.set,same] using before
    obtain ⟨s',advance,sent,agrees'⟩ := agrees.advance
    have deleted : deleteClient t.stream client = .ok s' := by
      rw [deleteClient,foldl_reply,foldl_reply,answered_answered]
      exact (if_pos h.carries.readable).trans advance
    have quiet : ∀ reply ∈ cancelled ++ [⟨client.channel,token,.status none⟩], Quiet reply := by
      intro reply inside
      simp only [cancelled,List.mem_append,List.mem_map,List.mem_singleton] at inside
      rcases inside with (⟨r,_,rfl⟩ | ⟨r,_,rfl⟩) | rfl <;> simp [Quiet]
    have accepted : (feed α).allows f (.disconnected client.channel) := by
      change f.clients client.channel ≠ none
      rw [h.clients.known client inside]
      nofun
    have log : (s'.reply client.channel token (.status none)).sent =
        t.stream.sent ++ (cancelled ++ [⟨client.channel,token,.status none⟩]) := by
      simp [Stream.reply,sent,Stream.answered]
    refine ⟨_,by
      simp only [Session.step,commandDisconnect,found,deleted,Code.ok_bind]
      rfl,?_⟩
    exact goOn_quiet log quiet ⟨accepted,trivial⟩ (agrees'.reply ..)

theorem Agrees.setClient (h : Agrees s f)
    (member : client.channel ∈ s.clients.map Client.channel) (within : Within s client)
    (caught : Caught s client) :
    Agrees (s.setClient client) (f.set client.channel (some client.place)) := by
  let changed := s.clients.map fun old => if old.channel = client.channel then client else old
  have channels : changed.map Client.channel = s.clients.map Client.channel := by
    rw [List.map_map]
    apply List.map_congr_left
    intro old _
    by_cases same : old.channel = client.channel <;> simp [same]
  have one : ∀ other ∈ changed, other = client ∨ (other ∈ s.clients ∧ other.channel ≠ client.channel) := by
    intro other inside
    obtain ⟨old,listed,rfl⟩ := List.mem_map.mp inside
    by_cases same : old.channel = client.channel
    · exact .inl (by simp [same])
    · exact .inr (by simp [same,listed])
  refine ⟨h.carries.frame changed s.sent _,⟨?_,?_,?_,?_⟩,?_⟩
  · exact channels.symm ▸ h.clients.distinct
  · intro other inside
    rcases one other inside with rfl | ⟨old,_⟩
    · exact within
    · exact h.clients.within other old
  · intro other inside
    rcases one other inside with rfl | ⟨old,_⟩
    · exact caught
    · exact h.clients.caught other old
  · intro other inside
    rcases one other inside with rfl | ⟨old,apart⟩
    · simp [Known,Feed.set]
    · simpa [Known,Feed.set,apart] using h.clients.known other old
  · intro other missing
    have missing : other ∉ s.clients.map Client.channel := channels ▸ missing
    have apart : other ≠ client.channel := fun same => missing (same ▸ member)
    simpa [Feed.set,apart] using h.others other missing

theorem read_goes (h : Agrees t.stream f) {token size : Nat}
    (ok : NoEmptyRead t (.read channel token size)) :
    ∃ next, t.step (.read channel token size) = .ok next ∧ Goes t f next := by
  cases found : findClient t.stream channel with
  | none =>
    have quiet : ∀ reply ∈ [(⟨channel,token,.read none (some .noSuchStream) 0 false⟩ : Reply α)], Quiet reply := by
      simp [Quiet]
    refine ⟨_,by simp only [Session.step,commandRead,found]; rfl,?_⟩
    exact goOn_quiet rfl quiet trivial (h.reply ..)
  | some client =>
    obtain ⟨inside,rfl⟩ := findClient_some found
    have known := h.clients.known client inside
    have within := h.clients.within client inside
    have member : client.channel ∈ t.stream.clients.map Client.channel := List.mem_map_of_mem inside
    have readable : ¬t.stream.remoteRead = false := by simp [h.carries.readable]
    have asked : (feed α).allows f (.requested client.channel token size) := by
      change f.clients client.channel ≠ none
      rw [known]
      nofun
    have requested : (feed α).next f (.requested client.channel token size) =
        f.set client.channel (some ⟨client.pos,client.readRequests ++ [⟨token,size⟩]⟩) := by
      change f.set client.channel _ = _
      rw [known]
      rfl
    by_cases full : client.pos = t.stream.pos ∧ t.stream.eosInp = false
    · refine ⟨_,by simp only [Session.step,commandRead,found,if_neg readable,if_pos full]; rfl,?_⟩
      let queued : Client α := { client with readRequests := client.readRequests ++ [⟨token,size⟩] }
      have agrees : Agrees (t.stream.setClient queued) ((feed α).next f (.requested client.channel token size)) := by
        rw [requested]
        exact @Agrees.setClient _ _ queued _ h member within fun _ => full
      exact goOn_quiet (List.append_nil _).symm nofun ⟨asked,trivial⟩ agrees
    · have idle : client.readRequests = [] := by
        by_contra waits
        exact full (h.clients.caught client inside waits)
      have something : client.pos < t.stream.pos ∨ t.stream.eosInp = true := by
        have high := within.2
        rcases Nat.lt_or_ge client.pos t.stream.pos with less | more
        · exact .inl less
        · right
          by_contra open_
          exact full ⟨Nat.le_antisymm high more,by simpa using open_⟩
      obtain ⟨data,eos,sent,count,delivers⟩ := sendReadReply_delivers h.carries within something token
        (ok client inside rfl) []
      let next := { client with pos := client.pos + (data.getD []).length }
      let reply : Reply α := ⟨client.channel,token,.read data none 0 eos⟩
      let f₂ := f.set client.channel (some next.place)
      have replied : (feed α).after f [.requested client.channel token size,.replied reply] = f₂ := by
        change Feed.next ((feed α).next f (.requested client.channel token size)) (.replied reply) = f₂
        rw [requested,idle]
        simp [Feed.next,reply,f₂,Feed.set,Client.place,next,idle]
      have high := within.2
      have moved : Within t.stream next := by
        refine ⟨Nat.le_trans within.1 (Nat.le_add_right ..),?_⟩
        change client.pos + _ ≤ _
        omega
      have agrees : Agrees ((t.stream.answered [reply]).setClient next) f₂ :=
        (h.reply client.channel token (.read data none 0 eos)).setClient member moved
          fun waits => absurd idle waits
      obtain ⟨s',advance,same,agrees'⟩ := agrees.advance
      have run : commandRead t.stream client.channel token size = .ok s' := by
        simp only [commandRead,found,if_neg readable,if_neg full,require_true idle,Code.ok_bind,sent]
        exact advance
      refine ⟨_,by simp only [Session.step,run,found]; rfl,?_⟩
      have accepted : (feed α).allows ((feed α).next f (.requested client.channel token size)) (.replied reply) := by
        rw [requested,idle]
        exact ⟨_,by simp [Feed.set],delivers⟩
      have log : s'.sent = t.stream.sent ++ [reply] := same
      apply goOn_goes log
      · exact ⟨asked,accepted,trivial⟩
      · exact replied.symm ▸ agrees'

/-- Where a connected client started, and the data of the replies to it since then. -/
def receive (channel : Nat) (state : Option (Nat × List α)) : Entry α → Option (Nat × List α)
  | .connected other position => if other = channel then some (position,[]) else state
  | .disconnected other => if other = channel then none else state
  | .replied ⟨other,_,.read data none _ _⟩ =>
    if other = channel then state.map fun p => (p.1,p.2 ++ data.getD []) else state
  | _ => state

def received (channel : Nat) (log : List (Entry α)) : Option (Nat × List α) := log.foldl (receive channel) none

/-- The data so far is what was added from the start on, up to the client's position. -/
def InOrder (f : Feed α) (channel : Nat) : Option (Nat × List α) → Prop
  | none => f.clients channel = none
  | some (start,bytes) => (∃ waiting, f.clients channel = some ⟨start + bytes.length,waiting⟩) ∧
      start + bytes.length ≤ f.added.length ∧ bytes <+: f.added.drop start

theorem InOrder.other {other : Nat} {state : Option (Nat × List α)}
    (h : InOrder f channel state) (apart : other ≠ channel) (place : Option Place) :
    InOrder (f.set other place) channel state := by
  rcases state with _ | ⟨start,bytes⟩
  · simpa [InOrder,Feed.set,Ne.symm apart] using h
  · simpa [InOrder,Feed.set,Ne.symm apart] using h

theorem receive_inOrder {state : Option (Nat × List α)} {e : Entry α}
    (h : InOrder f channel state) (allowed : f.allows e) :
    InOrder (f.next e) channel (receive channel state e) := by
  cases e with
  | added bytes eos =>
    rcases state with _ | ⟨start,got⟩
    · exact h
    · obtain ⟨known,short,front⟩ := h
      have low : start ≤ f.added.length := by omega
      refine ⟨known,?_,?_⟩
      · simp only [Feed.next,List.length_append]
        omega
      · simp only [Feed.next,List.drop_append_of_le_length low]
        exact front.trans (List.prefix_append ..)
  | connected other position =>
    by_cases same : other = channel
    · subst same
      simp only [receive,if_true]
      refine ⟨⟨[],by simp [Feed.next,Feed.set]⟩,allowed.2,List.nil_prefix⟩
    · simp only [receive,if_neg same]
      exact h.other same _
  | disconnected other =>
    by_cases same : other = channel
    · subst same
      simp [receive,InOrder,Feed.next,Feed.set]
    · simp only [receive,if_neg same]
      exact h.other same _
  | requested other token size =>
    by_cases same : other = channel
    · subst same
      rcases state with _ | ⟨start,got⟩
      · exact absurd h allowed
      · obtain ⟨⟨waiting,known⟩,short,front⟩ := h
        exact ⟨⟨waiting ++ [⟨token,size⟩],by simp [Feed.next,Feed.set,known]⟩,short,front⟩
    · exact h.other same _
  | replied reply =>
    rcases reply with ⟨other,token,⟨data,error | error,lost,eos⟩ | error⟩
    · by_cases same : other = channel
      · subst same
        obtain ⟨place,known,r,rest,waiting,_,_,_,front,_,_⟩ := allowed
        rcases state with _ | ⟨start,got⟩
        · exact absurd (h.symm.trans known) nofun
        · obtain ⟨⟨waiting',known'⟩,short,before⟩ := h
          have place_ : place = ⟨start + got.length,waiting'⟩ := Option.some.inj (known.symm.trans known')
          subst place_
          obtain ⟨later,split⟩ := before
          obtain ⟨more,front⟩ := front
          have dropped : f.added.drop (start + got.length) = later := by
            rw [← List.drop_drop,← split,List.drop_left]
          rw [dropped] at front
          simp only [receive,if_true,Option.map_some]
          have length := congrArg List.length split
          have length' := congrArg List.length front
          simp only [List.length_append,List.length_drop] at length length'
          have waiting : waiting' = r :: rest := waiting
          refine ⟨⟨rest,?_⟩,?_,⟨more,?_⟩⟩
          · simp [Feed.next,Feed.set,known',Nat.add_assoc,waiting]
          · simp only [Feed.next,Feed.set,List.length_append]
            omega
          · rw [List.append_assoc,front,split]
            rfl
      · simp only [receive,if_neg same]
        exact h.other same _
    · exact h
    · exact h

theorem accepted_inOrder {log : List (Entry α)} {state : Option (Nat × List α)}
    (h : InOrder f channel state) (accepted : (feed α).Accepts f log) :
    InOrder ((feed α).after f log) channel (log.foldl (receive channel) state) := by
  induction log generalizing f state with
  | nil => exact h
  | cons e rest ih => exact ih (receive_inOrder h accepted.1) accepted.2

theorem step_goes (h : Agrees t.stream f) {e : Event α} (ok : NoEmptyRead t e) :
    ∃ next, t.step e = .ok next ∧ Goes t f next := by
  cases e with
  | addData bytes eos => exact addData_goes h ok
  | connect channel token => exact connect_goes h channel token
  | disconnect channel token => exact disconnect_goes h channel token
  | read channel token size => exact read_goes h ok

theorem exec_goes {events : List (Event α)} (h : Agrees t.stream f)
    (meets : (session α).Meets NoEmptyRead t events) :
    ∃ final, (session α).exec t events = .ok final ∧ Goes t f final := by
  induction events generalizing t f with
  | nil => exact ⟨t,rfl,[],(List.append_nil _).symm,trivial,h⟩
  | cons e rest ih =>
    obtain ⟨next,step,first,log,accepted,agrees⟩ := step_goes h meets.1
    obtain ⟨final,run,more,log',accepted',agrees'⟩ := ih agrees (meets.2 next step)
    refine ⟨final,(session α).exec_cons.mpr ⟨trivial,next,step,run⟩,first ++ more,?_,?_,?_⟩
    · rw [log',log,List.append_assoc]
    · exact ((feed α).accepts_append ..).mpr ⟨accepted,accepted'⟩
    · rw [Monitor.after_append]
      exact agrees'

theorem create_agrees (remoteWrite : Bool) (bufLen : Nat) (heap : Nat → α) :
    Agrees (Session.create remoteWrite bufLen heap).stream .empty := by
  have empty : (Session.create remoteWrite bufLen heap).stream.len = 0 := by
    change (0 + (bufLen + 1) - 0) % (bufLen + 1) = 0
    simp
  refine ⟨⟨⟨Nat.zero_lt_succ _,Nat.zero_lt_succ _⟩,rfl,rfl,rfl,by simp [empty],?_⟩,
    ⟨List.nodup_nil,nofun,nofun,nofun⟩,fun _ _ => rfl⟩
  rw [show Feed.empty.added = ([] : List α) from rfl,List.drop_nil]
  apply List.eq_nil_of_length_eq_zero
  rw [contents_length,empty]

/-- As long as no waiting or new read asks for no bytes where bytes are there for it, no
assertion fails. Each connected client gets the bytes added from its start on; nothing is
lost, and the end of the stream is told with the reply that reaches it. -/
theorem exec_delivers_reads (remoteWrite : Bool) (bufLen : Nat) (heap : Nat → α) (events : List (Event α))
    (meets : (session α).Meets NoEmptyRead (Session.create remoteWrite bufLen heap) events) :
    ∃ final, (session α).exec (Session.create remoteWrite bufLen heap) events = .ok final ∧
      (feed α).Accepts .empty final.log ∧ Agrees final.stream ((feed α).after .empty final.log) ∧
      ∀ channel, InOrder ((feed α).after .empty final.log) channel (received channel final.log) := by
  obtain ⟨final,run,entries,log,accepted,agrees⟩ := exec_goes (create_agrees remoteWrite bufLen heap) meets
  have whole : final.log = entries := log
  subst whole
  exact ⟨final,run,accepted,agrees,fun channel => accepted_inOrder rfl accepted⟩

/-- Two clients, one of them waiting, and a buffer that wraps around. -/
theorem delivers_reads_two_clients :
    ∃ final, (session Nat).exec (Session.create false 3 (fun _ => 0))
        [.connect 1 0,.read 1 1 2,.addData [5,6,7] false,.connect 2 2,.read 2 3 9,.read 1 4 1,
          .addData [8,9] true,.read 2 5 3,.disconnect 1 6] = .ok final ∧
      (feed Nat).Accepts .empty final.log ∧ Agrees final.stream ((feed Nat).after .empty final.log) ∧
      ∀ channel, InOrder ((feed Nat).after .empty final.log) channel (received channel final.log) :=
  exec_delivers_reads false 3 _ _ (by decide +kernel)

/-- A read for no bytes stops the agent, at once or when data comes. -/
theorem empty_read_asserts :
    (session Nat).exec (Session.create false 3 (fun _ => 0))
        [.connect 1 0,.addData [5] false,.read 1 1 0] = .error .assertion ∧
      (session Nat).exec (Session.create false 3 (fun _ => 0))
        [.connect 1 0,.read 1 1 0,.addData [5] false] = .error .assertion := by
  decide +kernel

end Tcf.Streams
