import Tcf.StreamsBuffer
import Mathlib.Algebra.Order.Group.Multiset
import Mathlib.Tactic.Abel

/-! What the agent gets from remote writers of a stream: the bytes of each client's writes in the
order of the commands, whether they went to the buffer at once or had to wait. -/
namespace Tcf.Streams

open Circular

variable {α : Type}

/-- A stream with what its writers asked for and what the agent got. `written` has the data of all
writes that were not refused, each byte with the channel it came from. -/
structure Delivery (α : Type) where
  stream : Stream α
  delivered : List α
  ended : Bool
  written : List (Nat × α)
  issued : List (Nat × Nat)

inductive Command (α : Type) where
  | connect (channel token : Nat)
  | write (channel token : Nat) (heap : Nat → α) (size : Nat) (binary : Binary α)
  | eos (channel token : Nat)
  | getData (size : Nat)

def carried (channel : Nat) (error : Option StreamError) (bytes : List α) : List (Nat × α) :=
  if error.isSome then [] else bytes.map fun b => (channel,b)

def Delivery.step (t : Delivery α) : Command α → Code (Delivery α)
  | .connect channel token =>
    pure { t with stream := commandConnect t.stream channel token, issued := t.issued ++ [(channel,token)] }
  | .write channel token heap size binary => do
    let (s,error) ← virtualStreamWrite t.stream channel token heap size binary
    pure { t with
      stream := answerError channel token (s,error)
      written := t.written ++ carried channel error binary.bytes
      issued := t.issued ++ [(channel,token)] }
  | .eos channel token => do
    let s ← commandEos t.stream channel token
    pure { t with stream := s, issued := t.issued ++ [(channel,token)] }
  | .getData size => do
    let (s,data,eos) ← virtualStreamGetData t.stream size
    pure { t with stream := s, delivered := t.delivered ++ data, ended := t.ended || eos }

def delivery (α : Type) : Process (Delivery α) (Command α) where
  enabled _ _ := True
  decide _ _ := isTrue trivial
  step := Delivery.step

def Delivery.create (remoteRead : Bool) (bufLen : Nat) (heap : Nat → α) : Delivery α :=
  ⟨virtualStreamCreate remoteRead true bufLen heap,[],false,[],[]⟩

/-- What a request still has for the buffer. -/
def WriteRequest.left (r : WriteRequest α) : List α := r.data.drop r.offs

def Client.left (client : Client α) : List (Nat × α) :=
  client.writeRequests.flatMap fun r => r.left.map fun b => (client.channel,b)

def Client.tokens (client : Client α) : List (Nat × Nat) := client.writeRequests.map fun r => (client.channel,r.token)

/-- Bytes that wait for room. -/
def pending (s : Stream α) : List (Nat × α) := s.clients.flatMap Client.left

def waiting (s : Stream α) : List (Nat × Nat) := s.clients.flatMap Client.tokens

def answered (s : Stream α) : List (Nat × Nat) := s.sent.map fun reply => (reply.channel,reply.token)

/-- No client has bytes that wait when it is its turn and the stream is closed, by an end of stream that was sent
before or that waited before it. -/
def ClosesWell : Nat → Bool → List (Client α) → Prop
  | _, _, [] => True
  | room, closed, client :: rest =>
    match client.writeRequests with
    | [] => ClosesWell room closed rest
    | r :: _ => (closed = true → ∀ r ∈ client.writeRequests, r.left.length = 0) ∧
      ClosesWell (room - r.left.length) (closed || (r.eos && r.left.length ≤ room)) rest

/-- A write that has to wait declares the length that its data has. -/
def Faithful (t : Delivery α) : Command α → Prop
  | .write channel _ _ size binary => ∀ client ∈ t.stream.clients, client.channel = channel →
    (client.writeRequests ≠ [] ∨ (t.stream.eosInp = false ∧ t.stream.room < binary.bytes.length)) →
    size = binary.bytes.length
  | .getData _ => ClosesWell t.stream.room t.stream.eosInp t.stream.clients
  | .connect _ _ => True
  | .eos _ _ => True

instance decideClosesWell : ∀ room closed (clients : List (Client α)), Decidable (ClosesWell room closed clients)
  | _, _, [] => isTrue trivial
  | room, closed, ⟨_,_,_,[]⟩ :: rest =>
    have : Decidable (ClosesWell room closed rest) := decideClosesWell room closed rest
    inferInstanceAs (Decidable (ClosesWell room closed rest))
  | room, closed, ⟨_,_,_,r :: more⟩ :: rest =>
    have : Decidable (ClosesWell (room - r.left.length) (closed || (r.eos && r.left.length ≤ room)) rest) := decideClosesWell _ _ rest
    inferInstanceAs (Decidable ((closed = true → ∀ x ∈ r :: more, x.left.length = 0) ∧
      ClosesWell (room - r.left.length) (closed || (r.eos && r.left.length ≤ room)) rest))

instance decideFaithful (t : Delivery α) : ∀ e, Decidable (Faithful t e)
  | .write channel _ _ size binary => inferInstanceAs (Decidable (∀ client ∈ t.stream.clients, client.channel = channel →
      (client.writeRequests ≠ [] ∨ (t.stream.eosInp = false ∧ t.stream.room < binary.bytes.length)) →
      size = binary.bytes.length))
  | .getData _ => inferInstanceAs (Decidable (ClosesWell t.stream.room t.stream.eosInp t.stream.clients))
  | .connect _ _ | .eos _ _ => isTrue trivial

/-- The bytes that came from a channel. -/
def ofChannel (channel : Nat) (bytes : List (Nat × α)) : List (Nat × α) := bytes.filter fun b => b.1 = channel

/-- What holds of a stream with `delivered` bytes taken out of it. -/
structure Account (bufLen : Nat) (s : Stream α) (delivered : List α) (written : List (Nat × α)) (issued : List (Nat × Nat)) : Prop where
  indexed : Indexed s
  capacity : s.bufLen = bufLen + 1
  readers : s.remoteRead = false
  writers : s.remoteWrite = true
  distinct : (s.clients.map Client.channel).Nodup
  bytes : ∃ accepted : List (Nat × α), accepted.map Prod.snd = delivered ++ s.contents ∧
    ∀ channel, ofChannel channel (accepted ++ pending s) = ofChannel channel written
  replies : (issued : Multiset (Nat × Nat)) = (answered s : Multiset (Nat × Nat)) + waiting s

variable {channel : Nat} {client : Client α}

section Channels

theorem ofChannel_append (channel : Nat) (a b : List (Nat × α)) :
    ofChannel channel (a ++ b) = ofChannel channel a ++ ofChannel channel b := List.filter_append ..

theorem ofChannel_own (channel : Nat) (bytes : List α) :
    ofChannel channel (bytes.map fun b => (channel,b)) = bytes.map fun b => (channel,b) := by
  apply List.filter_eq_self.mpr
  intro b member
  obtain ⟨_,_,rfl⟩ := List.mem_map.mp member
  simp

theorem ofChannel_other {other : Nat} (different : other ≠ channel) (bytes : List α) :
    ofChannel channel (bytes.map fun b => (other,b)) = [] := by
  apply List.filter_eq_nil_iff.mpr
  intro b member
  obtain ⟨_,_,rfl⟩ := List.mem_map.mp member
  simpa using different

theorem left_own (client : Client α) : ∀ b ∈ client.left, b.1 = client.channel := by
  intro b member
  obtain ⟨r,_,member⟩ := List.mem_flatMap.mp member
  obtain ⟨_,_,rfl⟩ := List.mem_map.mp member
  rfl

theorem ofChannel_left (client : Client α) : ofChannel client.channel client.left = client.left := by
  apply List.filter_eq_self.mpr
  intro b member
  simpa using left_own client b member

theorem ofChannel_left_other (different : client.channel ≠ channel) :
    ofChannel channel client.left = [] := by
  apply List.filter_eq_nil_iff.mpr
  intro b member
  simpa [left_own client b member] using different

theorem ofChannel_others {clients : List (Client α)} (others : ∀ client ∈ clients, client.channel ≠ channel) :
    ofChannel channel (clients.flatMap Client.left) = [] := by
  apply List.filter_eq_nil_iff.mpr
  intro b member
  obtain ⟨client,member,inside⟩ := List.mem_flatMap.mp member
  simpa [left_own client b inside] using others client member

end Channels

/-- One client among the others. -/
structure Among (s : Stream α) (before : List (Client α)) (client : Client α) (after : List (Client α)) : Prop where
  clients : s.clients = before ++ client :: after
  earlier : ∀ other ∈ before, other.channel ≠ client.channel
  later : ∀ other ∈ after, other.channel ≠ client.channel

variable {s : Stream α} {before after : List (Client α)}

theorem among_distinct
    (distinct : (s.clients.map Client.channel).Nodup) (clients : s.clients = before ++ client :: after) :
    Among s before client after := by
  rw [clients,List.map_append,List.map_cons,List.nodup_middle,List.nodup_cons,← List.map_append] at distinct
  refine ⟨clients,fun other member same => distinct.1 ?_,fun other member same => distinct.1 ?_⟩
  · rw [← same]
    exact List.mem_map_of_mem (List.mem_append_left _ member)
  · rw [← same]
    exact List.mem_map_of_mem (List.mem_append_right _ member)

theorem Among.find (among : Among s before client after) :
    findClient s client.channel = some client := by
  rw [findClient,among.clients,List.find?_append,List.find?_eq_none.mpr]
  · simp
  · intro other member
    simpa using among.earlier other member

/-- Only the requests of one client change. -/
theorem Among.setWrites (among : Among s before client after)
    (queue : List (WriteRequest α)) :
    (s.setWrites client.channel queue).clients = before ++ { client with writeRequests := queue } :: after := by
  have same (clients : List (Client α)) (others : ∀ other ∈ clients, other.channel ≠ client.channel) :
      (clients.map fun other => if other.channel = client.channel then { other with writeRequests := queue } else other) = clients := by
    have each : ∀ other ∈ clients, (if other.channel = client.channel then { other with writeRequests := queue } else other) =
        id other := fun other member => if_neg (others other member)
    rw [List.map_congr_left each,List.map_id]
  change (s.clients.map _) = _
  rw [among.clients,List.map_append,List.map_cons,same before among.earlier,same after among.later,if_pos rfl]

/-- Bytes of a client go to the buffer, or are written, or wait. -/
theorem bytes_change {next : Stream α} {client' : Client α} {delivered : List α}
    {written : List (Nat × α)} (among : Among s before client after) (clients : next.clients = before ++ client' :: after)
    (channel : client'.channel = client.channel) {taken new : List α} (contents : next.contents = s.contents ++ taken)
    (queue : (taken.map fun b => (client.channel,b)) ++ client'.left = client.left ++ new.map fun b => (client.channel,b))
    (bytes : ∃ accepted : List (Nat × α), accepted.map Prod.snd = delivered ++ s.contents ∧
      ∀ channel, ofChannel channel (accepted ++ pending s) = ofChannel channel written) :
    ∃ accepted : List (Nat × α), accepted.map Prod.snd = delivered ++ next.contents ∧
      ∀ channel, ofChannel channel (accepted ++ pending next) =
        ofChannel channel (written ++ new.map fun b => (client.channel,b)) := by
  obtain ⟨accepted,values,each⟩ := bytes
  refine ⟨accepted ++ taken.map fun b => (client.channel,b),?_,fun c => ?_⟩
  · rw [List.map_append,values,contents,List.append_assoc,List.map_map]
    simp [Function.comp_def]
  · have old := each c
    simp only [pending,clients,among.clients,List.flatMap_append,List.flatMap_cons,ofChannel_append] at old ⊢
    by_cases own : c = client.channel
    · subst own
      rw [ofChannel_others among.earlier,ofChannel_others among.later,ofChannel_left] at old
      have mine := ofChannel_left client'
      rw [channel] at mine
      rw [ofChannel_others among.earlier,ofChannel_others among.later,mine,ofChannel_own,ofChannel_own,← old]
      simp only [List.nil_append,List.append_nil,List.append_assoc]
      rw [queue]
    · have other : client.channel ≠ c := fun same => own same.symm
      have other' : client'.channel ≠ c := by rwa [channel]
      rw [ofChannel_left_other other] at old
      rw [ofChannel_left_other other',ofChannel_other other,ofChannel_other other,← old]
      simp

theorem replies_change {next : Stream α} {client' : Client α}
    {issued new answers : List (Nat × Nat)} (among : Among s before client after) (clients : next.clients = before ++ client' :: after)
    (sent : answered next = answered s ++ answers)
    (tokens : (client.tokens : Multiset (Nat × Nat)) + new = (answers : Multiset (Nat × Nat)) + client'.tokens)
    (replies : (issued : Multiset (Nat × Nat)) = (answered s : Multiset (Nat × Nat)) + waiting s) :
    ((issued ++ new : List (Nat × Nat)) : Multiset (Nat × Nat)) = (answered next : Multiset (Nat × Nat)) + waiting next := by
  have old : (waiting s : Multiset (Nat × Nat)) = before.flatMap Client.tokens + (client.tokens + (after.flatMap Client.tokens)) := by
    rw [waiting,among.clients,List.flatMap_append,List.flatMap_cons,← Multiset.coe_add,← Multiset.coe_add]
  have now : (waiting next : Multiset (Nat × Nat)) = before.flatMap Client.tokens + (client'.tokens + (after.flatMap Client.tokens)) := by
    rw [waiting,clients,List.flatMap_append,List.flatMap_cons,← Multiset.coe_add,← Multiset.coe_add]
  rw [← Multiset.coe_add,replies,old,now,sent,← Multiset.coe_add]
  have total := congrArg (fun tokens => (answered s : Multiset (Nat × Nat)) + before.flatMap Client.tokens +
    after.flatMap Client.tokens + tokens) tokens
  calc _ = (answered s : Multiset (Nat × Nat)) + before.flatMap Client.tokens + after.flatMap Client.tokens +
        (client.tokens + (new : Multiset (Nat × Nat))) := by abel
    _ = _ := total
    _ = _ := by abel

section Steps

variable {bufLen : Nat} {delivered : List α} {written : List (Nat × α)} {issued : List (Nat × Nat)}

theorem store_room (indexed : Indexed s) (data : List α) (eos : Bool) : (store s data eos).room = s.room - data.length := by
  obtain ⟨next,_,len⟩ := store_contents indexed data eos
  have before := room_eq indexed
  have after := room_eq next
  have same : (store s data eos).bufLen = s.bufLen := rfl
  rw [after,len,same,List.length_take]
  omega

/-- Bytes came to the buffer, and the agent was told. -/
structure Added (s t : Stream α) (taken : List α) : Prop where
  indexed : Indexed t
  contents : t.contents = s.contents ++ taken
  len : t.len = s.len + taken.length
  access : t.remoteRead = s.remoteRead ∧ t.remoteWrite = s.remoteWrite
  out : t.bufLen = s.bufLen ∧ t.bufOut = s.bufOut ∧ t.eosOut = s.eosOut
  clients : t.clients = s.clients
  sent : t.sent = s.sent

/-- Data goes to the buffer as far as there is room. -/
theorem add_open (indexed : Indexed s) (readers : s.remoteRead = false) (isOpen : s.eosInp = false) (data : List α) (eos : Bool) :
    ∃ t, virtualStreamAddData s data eos = .ok (t,none,min s.room data.length) ∧ Added s t (data.take s.room) ∧
      t.room = s.room - data.length ∧ t.eosInp = (eos && data.length ≤ s.room) := by
  have less : s.room < s.bufLen := Nat.mod_lt _ (Nat.zero_lt_of_lt indexed.inp)
  have other : (store s data eos).remoteRead = false := readers
  obtain ⟨next,contents,len⟩ := store_contents indexed data eos
  refine ⟨{ store s data eos with dataAvailablePosted := true },?_,
    ⟨⟨next.inp,next.out⟩,contents,len,⟨rfl,rfl⟩,⟨rfl,rfl,rfl⟩,rfl,rfl⟩,store_room indexed data eos,?_⟩
  · simp [virtualStreamAddData,isOpen,require_true less,announce,other]
  · change (s.eosInp || (eos && (data.take s.room).length == data.length)) = _
    rw [isOpen,Bool.false_or,List.length_take]
    congr 1
    rw [Bool.eq_iff_iff,beq_iff_eq,decide_eq_true_eq]
    omega

theorem add_closed (readers : s.remoteRead = false) (closed : s.eosInp = true) (data : List α) (eos : Bool) :
    virtualStreamAddData s data eos = .ok ({ s with dataAvailablePosted := true },some .eof,0) := by
  simp [virtualStreamAddData,closed,readers]

/-- Of the bytes that wait and the requests, each goes to the buffer at most once. -/
def Client.load (client : Client α) : Nat := (client.writeRequests.map fun r => 2 * r.left.length + 1).sum

def outstanding (s : Stream α) : Nat := s.len + (s.clients.map Client.load).sum

theorem outstanding_among (clients : s.clients = before ++ client :: after) :
    outstanding s = s.len + client.load + (before.map Client.load).sum + (after.map Client.load).sum := by
  simp only [outstanding,clients,List.map_append,List.map_cons,List.sum_append,List.sum_cons]
  omega

/-- What the turn of a client does. -/
structure Resumed (s next : Stream α) (before : List (Client α)) (client client' : Client α) (after : List (Client α)) : Prop where
  clients : next.clients = before ++ client' :: after
  channel : client'.channel = client.channel
  out : next.bufOut = s.bufOut ∧ next.eosOut = s.eosOut
  contents : s.contents <+: next.contents
  closed : s.eosInp = true → next.eosInp = true ∧ next.bufInp = s.bufInp ∧ next.contents = s.contents ∧ client'.writeRequests = []
  load : outstanding next ≤ outstanding s
  progress : 0 < s.room → client.writeRequests ≠ [] → outstanding next < outstanding s

theorem resume_idle (among : Among s before client after)
    (idle : client.writeRequests = []) :
    resumeWrite s client.channel = .ok s ∧ Resumed s s before client client after := by
  refine ⟨?_,among.clients,rfl,⟨rfl,rfl⟩,List.prefix_refl _,fun closed => ⟨closed,rfl,rfl,idle⟩,Nat.le_refl _,fun _ some => absurd idle some⟩
  simp [resumeWrite,among.find,idle]

theorem left_length (r : WriteRequest α) : r.left.length = r.data.length - r.offs := List.length_drop

theorem reply_answered (s : Stream α) (channel token : Nat) (answer : Answer α) :
    answered (s.reply channel token answer) = answered s ++ [(channel,token)] := by
  simp [answered,Stream.reply]

theorem left_advanced (r : WriteRequest α) (n : Nat) : ({ r with offs := r.offs + n } : WriteRequest α).left = r.left.drop n := by
  simp [WriteRequest.left,List.drop_drop]

/-- A turn: some bytes of the client went to the buffer, and some of its requests were answered. -/
theorem resume_settles {client' : Client α} {t : Stream α} {taken : List α}
    {sent : List (Reply α)} {answers : List (Nat × Nat)} (account : Account bufLen s delivered written issued)
    (clients : s.clients = before ++ client :: after) (added : Added s t taken) (channel : client'.channel = client.channel)
    (queue : (taken.map fun b => (client.channel,b)) ++ client'.left = client.left)
    (replies : (sent.map fun reply => (reply.channel,reply.token)) = answered s ++ answers)
    (tokens : client.tokens = answers ++ client'.tokens)
    (closed : s.eosInp = true → t.eosInp = true ∧ t.bufInp = s.bufInp ∧ taken = [] ∧ client'.writeRequests = [])
    (load : client'.load + taken.length ≤ client.load)
    (progress : 0 < s.room → client.writeRequests ≠ [] → client'.load + taken.length < client.load) :
    Account bufLen { t with clients := before ++ client' :: after, sent } delivered written issued ∧
      Resumed s { t with clients := before ++ client' :: after, sent } before client client' after := by
  have among := among_distinct account.distinct clients
  have distinct := account.distinct
  have bytes := @bytes_change _ client s before after { t with clients := before ++ client' :: after, sent } client' delivered
    written among rfl channel taken [] added.contents (by rw [queue]; simp) account.bytes
  have once := @replies_change _ client s before after { t with clients := before ++ client' :: after, sent } client' issued []
    answers among rfl replies (by rw [tokens,← Multiset.coe_add]; simp) account.replies
  have loads := outstanding_among clients
  have loads' := @outstanding_among _ client' { t with clients := before ++ client' :: after, sent } before after rfl
  have len : ({ t with clients := before ++ client' :: after, sent } : Stream α).len = s.len + taken.length := added.len
  simp only [List.map_nil,List.append_nil] at bytes once
  refine ⟨⟨⟨added.indexed.inp,added.indexed.out⟩,added.out.1.trans account.capacity,added.access.1.trans account.readers,
    added.access.2.trans account.writers,?_,bytes,once⟩,rfl,channel,added.out.2,?_,fun off => ?_,by omega,fun room some => ?_⟩
  · rw [clients] at distinct
    simpa [channel] using distinct
  · change _ <+: t.contents
    rw [added.contents]
    exact List.prefix_append ..
  · obtain ⟨off',inp,none,idle⟩ := closed off
    refine ⟨off',inp,?_,idle⟩
    change t.contents = _
    rw [added.contents,none,List.append_nil]
  · have less := progress room some
    omega

theorem resume_run (among : Among s before client after)
    {r : WriteRequest α} {rest : List (WriteRequest α)} (queue : client.writeRequests = r :: rest) {t : Stream α}
    {error : Option StreamError} {done : Nat} (add : virtualStreamAddData s r.left r.eos = .ok (t,error,done)) :
    resumeWrite s client.channel = .ok (finishWrite t client.channel r rest error done) := by
  rw [resumeWrite,among.find]
  dsimp only
  rw [queue]
  dsimp only
  change (virtualStreamAddData s r.left r.eos >>= _) = _
  rw [add]
  rfl

/-- The oldest request of a client goes on, and is answered when all of it is in the buffer. -/
theorem resume_open (account : Account bufLen s delivered written issued)
    (clients : s.clients = before ++ client :: after) {r : WriteRequest α} {rest : List (WriteRequest α)}
    (queue : client.writeRequests = r :: rest) (isOpen : s.eosInp = false) :
    ∃ next client', resumeWrite s client.channel = .ok next ∧ Account bufLen next delivered written issued ∧
      Resumed s next before client client' after ∧ next.room = s.room - r.left.length ∧
      next.eosInp = (r.eos && r.left.length ≤ s.room) := by
  have among := among_distinct account.distinct clients
  obtain ⟨t,add,added,room,ends⟩ := add_open account.indexed account.readers isOpen r.left r.eos
  have among' : Among t before client after := ⟨added.clients.trans clients,among.earlier,among.later⟩
  have run := resume_run among queue add
  have size := left_length r
  have load : client.load = 2 * r.left.length + 1 + (rest.map fun r => 2 * r.left.length + 1).sum := by
    rw [Client.load,queue]
    rfl
  have own : client.left = (r.left.map fun b => (client.channel,b)) ++ rest.flatMap fun r => r.left.map fun b => (client.channel,b) := by
    rw [Client.left,queue,List.flatMap_cons]
  have length : (r.left.take s.room).length = min s.room r.left.length := List.length_take
  by_cases all : r.left.length ≤ s.room
  · have finish : finishWrite t client.channel r rest none (min s.room r.left.length) =
        { t with clients := before ++ { client with writeRequests := rest } :: after
                 sent := t.sent ++ [⟨client.channel,r.token,.status none⟩] } := by
      have complete : r.offs + min s.room r.left.length ≥ r.data.length := by omega
      have clients' := among'.setWrites rest
      simp only [finishWrite,complete,Option.isSome_none,Bool.false_eq_true,if_false,if_true,← clients']
      rfl
    have whole : r.left.take s.room = r.left := List.take_of_length_le all
    rw [whole] at added length
    obtain ⟨account',resumed⟩ := @resume_settles _ client s before after bufLen delivered written issued
      { client with writeRequests := rest } t r.left (t.sent ++ [⟨client.channel,r.token,.status none⟩])
      [(client.channel,r.token)] account clients added rfl own.symm (by simp [answered,added.sent])
      (by rw [Client.tokens,queue]; rfl) (fun off => absurd off (by simp [isOpen])) (by rw [load]; simp only [Client.load]; omega)
      (fun _ _ => by rw [load]; simp only [Client.load]; omega)
    rw [finish] at run
    exact ⟨_,_,run,account',resumed,room,ends⟩
  · have finish : finishWrite t client.channel r rest none (min s.room r.left.length) =
        { t with clients := before ++ { client with writeRequests := { r with offs := r.offs + s.room } :: rest } :: after } := by
      have least : min s.room r.left.length = s.room := by omega
      have incomplete : ¬r.offs + s.room ≥ r.data.length := by omega
      have clients' := among'.setWrites ({ r with offs := r.offs + s.room } :: rest)
      simp only [finishWrite,least,incomplete,Option.isSome_none,Bool.false_eq_true,if_false,← clients']
      rfl
    have rest_ := left_advanced r s.room
    have dropped : (r.left.drop s.room).length = r.left.length - s.room := List.length_drop
    obtain ⟨account',resumed⟩ := @resume_settles _ client s before after bufLen delivered written issued
      { client with writeRequests := { r with offs := r.offs + s.room } :: rest } t (r.left.take s.room) t.sent [] account clients
      added rfl (by rw [own,Client.left,List.flatMap_cons,rest_,← List.append_assoc,← List.map_append,List.take_append_drop])
      (by simp [answered,added.sent]) (by rw [Client.tokens,queue]; rfl) (fun off => absurd off (by simp [isOpen]))
      (by rw [load]; simp only [Client.load,List.map_cons,List.sum_cons,rest_]; omega)
      (fun _ _ => by rw [load]; simp only [Client.load,List.map_cons,List.sum_cons,rest_]; omega)
    rw [finish] at run
    exact ⟨_,_,run,account',resumed,room,ends⟩

theorem cancel_spec (s : Stream α) (channel : Nat) (requests : List (WriteRequest α)) :
    requests.foldl (fun s r => s.reply channel r.token (.status (some .commandCancelled))) s =
      { s with sent := s.sent ++ requests.map fun r => ⟨channel,r.token,.status (some .commandCancelled)⟩ } := by
  induction requests generalizing s with
  | nil => simp
  | cons r rest ih =>
    rw [List.foldl_cons,ih]
    simp [Stream.reply]

/-- All requests of a client are answered with an error. They had no bytes. -/
theorem resume_closed (account : Account bufLen s delivered written issued)
    (clients : s.clients = before ++ client :: after) {r : WriteRequest α} {rest : List (WriteRequest α)}
    (queue : client.writeRequests = r :: rest) (off : s.eosInp = true) (empty : ∀ r ∈ client.writeRequests, r.left.length = 0) :
    ∃ next client', resumeWrite s client.channel = .ok next ∧ Account bufLen next delivered written issued ∧
      Resumed s next before client client' after ∧ next.room = s.room - r.left.length ∧ next.eosInp = true := by
  have among := among_distinct account.distinct clients
  have add := add_closed account.readers off r.left r.eos
  have added : Added s { s with dataAvailablePosted := true } [] := by
    have indexed := account.indexed
    refine ⟨⟨indexed.inp,indexed.out⟩,?_,rfl,⟨rfl,rfl⟩,⟨rfl,rfl,rfl⟩,rfl,rfl⟩
    rw [List.append_nil]
    rfl
  have run := resume_run among queue add
  have none : client.left = [] := by
    apply List.flatMap_eq_nil_iff.mpr
    intro r member
    rw [List.length_eq_zero_iff.mp (empty r member)]
    rfl
  have finish : finishWrite { s with dataAvailablePosted := true } client.channel r rest (some .eof) 0 =
      { s with
        dataAvailablePosted := true
        clients := before ++ { client with writeRequests := [] } :: after
        sent := s.sent ++ [⟨client.channel,r.token,.status (some .eof)⟩] ++
          rest.map fun r => ⟨client.channel,r.token,.status (some .commandCancelled)⟩ } := by
    have clients' := among.setWrites []
    simp only [finishWrite,Option.isSome_some,if_true,cancel_spec,← clients']
    rfl
  obtain ⟨account',resumed⟩ := @resume_settles _ client s before after bufLen delivered written issued
    { client with writeRequests := [] } { s with dataAvailablePosted := true } []
    (s.sent ++ [⟨client.channel,r.token,.status (some .eof)⟩] ++
      rest.map fun r => ⟨client.channel,r.token,.status (some .commandCancelled)⟩)
    client.tokens account clients added rfl (by rw [none]; rfl) (by simp [answered,Client.tokens,queue,Function.comp_def])
    (by simp [Client.tokens]) (fun _ => ⟨off,rfl,rfl,rfl⟩) (by simp [Client.load]) (fun _ _ => by simp only [Client.load,queue,List.map_cons,List.map_nil,List.sum_cons,List.sum_nil,List.length_nil]; omega)
  rw [finish] at run
  refine ⟨_,_,run,account',resumed,?_,off⟩
  rw [empty r (by rw [queue]; exact List.mem_cons_self)]
  rfl

/-- The turns of all clients. -/
structure Turns (s next : Stream α) (rest rest' before : List (Client α)) : Prop where
  clients : next.clients = before ++ rest'
  out : next.bufOut = s.bufOut ∧ next.eosOut = s.eosOut
  contents : s.contents <+: next.contents
  closed : s.eosInp = true → next.eosInp = true ∧ next.bufInp = s.bufInp ∧ next.contents = s.contents ∧
    ∀ client ∈ rest', client.writeRequests = []
  load : outstanding next ≤ outstanding s
  progress : 0 < s.room → (∃ client ∈ rest, client.writeRequests ≠ []) → outstanding next < outstanding s

theorem resume_turn (account : Account bufLen s delivered written issued)
    (clients : s.clients = before ++ client :: after) (well : ClosesWell s.room s.eosInp (client :: after)) :
    ∃ next client', resumeWrite s client.channel = .ok next ∧ Account bufLen next delivered written issued ∧
      Resumed s next before client client' after ∧ ClosesWell next.room next.eosInp after ∧
      (client.writeRequests = [] → next.room = s.room) := by
  have among := among_distinct account.distinct clients
  rcases queue : client.writeRequests with _ | ⟨r,rest⟩
  · obtain ⟨run,resumed⟩ := resume_idle among queue
    simp only [ClosesWell,queue] at well
    exact ⟨s,client,run,account,resumed,well,fun _ => rfl⟩
  · simp only [ClosesWell,queue] at well
    obtain ⟨empty,later⟩ := well
    cases off : s.eosInp with
    | false =>
      obtain ⟨next,client',run,account',resumed,room,ends⟩ := resume_open account clients queue off
      rw [off,Bool.false_or,← room,← ends] at later
      exact ⟨next,client',run,account',resumed,later,nofun⟩
    | true =>
      obtain ⟨next,client',run,account',resumed,room,ends⟩ :=
        resume_closed account clients queue off (by rw [queue]; exact empty off)
      rw [off,Bool.true_or,← room,← ends] at later
      exact ⟨next,client',run,account',resumed,later,nofun⟩

theorem resume_turns (before : List (Client α)) {rest : List (Client α)} (account : Account bufLen s delivered written issued)
    (clients : s.clients = before ++ rest) (well : ClosesWell s.room s.eosInp rest) :
    ∃ next rest', (rest.map Client.channel).foldlM resumeWrite s = .ok next ∧ Account bufLen next delivered written issued ∧
      Turns s next rest rest' before := by
  induction rest generalizing s before with
  | nil =>
    refine ⟨s,[],rfl,account,clients,⟨rfl,rfl⟩,List.prefix_refl _,fun off => ⟨off,rfl,rfl,nofun⟩,Nat.le_refl _,?_⟩
    rintro _ ⟨_,member,_⟩
    cases member
  | cons client after ih =>
    obtain ⟨middle,client',run,account₁,one,well₁,same⟩ := resume_turn account clients well
    have clients₁ : middle.clients = (before ++ [client']) ++ after := by rw [one.clients]; simp
    obtain ⟨next,after',runs,account₂,two⟩ := ih _ account₁ clients₁ well₁
    refine ⟨next,client' :: after',?_,account₂,?_,⟨two.out.1.trans one.out.1,two.out.2.trans one.out.2⟩,
      one.contents.trans two.contents,fun off => ?_,Nat.le_trans two.load one.load,?_⟩
    · rw [List.map_cons,List.foldlM_cons,run]
      exact runs
    · rw [two.clients]
      simp
    · obtain ⟨off₁,inp₁,contents₁,idle₁⟩ := one.closed off
      obtain ⟨off₂,inp₂,contents₂,idle₂⟩ := two.closed off₁
      refine ⟨off₂,inp₂.trans inp₁,contents₂.trans contents₁,fun other member => ?_⟩
      rcases List.mem_cons.mp member with rfl | member
      · exact idle₁
      · exact idle₂ other member
    · rintro room ⟨other,member,some⟩
      by_cases idle : client.writeRequests = []
      · have later : other ∈ after := by
          rcases List.mem_cons.mp member with rfl | later
          · exact absurd idle some
          · exact later
        rw [← same idle] at room
        exact Nat.lt_of_lt_of_le (two.progress room ⟨other,later,some⟩) one.load
      · exact Nat.lt_of_le_of_lt two.load (one.progress room idle)

/-! The agent takes data out. -/

theorem taken_account (account : Account bufLen s delivered written issued) {n : Nat} (within : n ≤ s.len) :
    Account bufLen (s.advanced n) (delivered ++ s.contents.take n) written issued := by
  obtain ⟨indexed,contents,_⟩ := advanced_contents account.indexed within
  refine ⟨indexed,account.capacity,account.readers,account.writers,account.distinct,?_,account.replies⟩
  obtain ⟨accepted,values,each⟩ := account.bytes
  refine ⟨accepted,?_,each⟩
  rw [contents,values,List.append_assoc,List.take_append_drop]

theorem indexed_empty (indexed : Indexed s) (empty : s.len = 0) : s.bufOut = s.bufInp := by
  have inp := indexed.inp
  have out := indexed.out
  have len : s.len = _ := gap_eq inp out
  rw [empty] at len
  split at len <;> omega

/-- `eos` comes when nothing is left. -/
def Drained (s : Stream α) : Prop := s.eosInp = true ∧ s.contents = [] ∧ ∀ client ∈ s.clients, client.writeRequests = []

theorem takeOut_spec (indexed : Indexed s) (readers : s.remoteRead = false) {n : Nat} (within : n ≤ s.len) {eos : Bool}
    (last : eos = true → n = s.len) : ∃ posted, takeOut s n eos = .ok { s.advanced n with spaceAvailablePosted := posted } := by
  unfold takeOut
  by_cases some : n > 0
  · obtain ⟨indexed',_,len⟩ := advanced_contents indexed within
    have empty : eos = false ∨ (s.bufOut + n) % s.bufLen = s.bufInp := by
      cases eos with
      | false => exact .inl rfl
      | true =>
        right
        apply indexed_empty indexed'
        rw [len,last rfl,Nat.sub_self]
    rw [if_pos ⟨readers,some⟩]
    exact ⟨true,by simp only [require_true empty,Code.ok_bind]; rfl⟩
  · have none : n = 0 := by omega
    have same : (s.bufOut + 0) % s.bufLen = s.bufOut := Nat.mod_eq_of_lt indexed.out
    rw [if_neg fun both => some both.2,none]
    refine ⟨s.spaceAvailablePosted,?_⟩
    simp only [Stream.advanced,same]
    rfl

theorem outstanding_none (len : s.len = 0) (idle : ∀ client ∈ s.clients, client.writeRequests = []) : outstanding s = 0 := by
  have loads : ∀ load ∈ s.clients.map Client.load, load = 0 := by
    intro load member
    obtain ⟨client,inside,rfl⟩ := List.mem_map.mp member
    rw [Client.load,idle client inside]
    rfl
  rw [outstanding,len,List.sum_eq_zero_iff_forall_eq_nat.mpr loads]

theorem getData_spec (account : Account bufLen s delivered written issued) (well : ClosesWell s.room s.eosInp s.clients) (size : Nat) :
    ∃ next data eos, virtualStreamGetData s size = .ok (next,data,eos) ∧
      Account bufLen next (delivered ++ data) written issued ∧ (eos = true → Drained next) ∧ (Drained s → Drained next) ∧
      (0 < bufLen → 0 < size → outstanding next < outstanding s ∨ outstanding s = 0) := by
  generalize ending : (if s.len > size then false else s.eosInp) = eos
  have account₀ : Account bufLen { s with eosOut := s.eosOut || eos } delivered written issued := by
    have indexed := account.indexed
    exact ⟨⟨indexed.inp,indexed.out⟩,account.capacity,account.readers,account.writers,account.distinct,account.bytes,account.replies⟩
  obtain ⟨middle,clients,run,account₁,turns⟩ := resume_turns [] account₀ rfl well
  have writes : resumeWrites { s with eosOut := s.eosOut || eos } = .ok middle := by
    rw [resumeWrites,if_pos account.writers]
    exact run
  have within : min s.len size ≤ middle.len := by
    have more := turns.contents.length_le
    rw [contents_length,contents_length] at more
    exact Nat.le_trans (Nat.min_le_left ..) more
  have data : fetch s.buf s.bufLen s.bufOut (min s.len size) = middle.contents.take (min s.len size) := by
    rw [fetch_front account.indexed (Nat.min_le_left ..)]
    have front : s.contents <+: middle.contents := turns.contents
    rw [List.prefix_iff_eq_take.mp front,List.take_take,contents_length]
    congr 1
    omega
  have all : eos = true → s.eosInp = true ∧ min s.len size = s.len := by
    rw [← ending]
    split
    · exact nofun
    next less => exact fun off => ⟨off,by omega⟩
  have last : eos = true → min s.len size = middle.len := by
    intro on
    obtain ⟨off,whole⟩ := all on
    have same : middle.contents = s.contents := (turns.closed off).2.2.1
    have len := congrArg List.length same
    rw [contents_length,contents_length] at len
    omega
  have account₂ := taken_account account₁ within
  obtain ⟨_,contents₂,len₂⟩ := advanced_contents account₁.indexed within
  obtain ⟨posted,out⟩ := takeOut_spec account₁.indexed account₁.readers within last
  have clients_ : middle.clients = clients := turns.clients
  refine ⟨{ middle.advanced (min s.len size) with spaceAvailablePosted := posted },middle.contents.take (min s.len size),eos,?_,
    ⟨⟨account₂.indexed.inp,account₂.indexed.out⟩,account₂.capacity,account₂.readers,account₂.writers,
    account₂.distinct,account₂.bytes,account₂.replies⟩,fun on => ?_,?_,fun room some => ?_⟩
  · simp only [virtualStreamGetData,ending,writes,Code.ok_bind,out,data]
    rfl
  · obtain ⟨off,_⟩ := all on
    obtain ⟨off',_,_,idle⟩ := turns.closed off
    refine ⟨off',?_,fun client member => idle client (by rwa [← clients_])⟩
    change (middle.advanced _).contents = []
    rw [contents₂,last on,List.drop_of_length_le (by rw [contents_length])]
  · rintro ⟨off,empty,_⟩
    obtain ⟨off',_,same,idle⟩ := turns.closed off
    refine ⟨off',?_,fun client member => idle client (by rwa [← clients_])⟩
    change (middle.advanced _).contents = []
    have same : middle.contents = s.contents := same
    rw [contents₂,same,empty,List.drop_nil]
  · have load : outstanding middle ≤ outstanding s := turns.load
    have now : outstanding { middle.advanced (min s.len size) with spaceAvailablePosted := posted } =
        middle.len - min s.len size + (middle.clients.map Client.load).sum := by
      rw [← len₂]
      rfl
    have before : outstanding middle = middle.len + (middle.clients.map Client.load).sum := rfl
    by_cases full : s.len = 0
    · by_cases busy : ∃ client ∈ s.clients, client.writeRequests ≠ []
      · have free : 0 < s.room := by
          rw [room_eq account.indexed,account.capacity,full]
          omega
        have less : outstanding middle < outstanding s := turns.progress free busy
        left
        omega
      · right
        exact outstanding_none full (by simpa using busy)
    · left
      omega

/-! Writes and ends of stream. -/

theorem fill_exact (heap : Nat → α) (bytes : List α) : fill heap bytes.length bytes = bytes := by
  apply List.ext_getElem
  · simp [fill]
  · intro i low high
    simp [fill,high]

/-- A reply to a command that changed nothing else. -/
theorem refused_account (account : Account bufLen s delivered written issued) (channel token : Nat) (answer : Answer α) :
    Account bufLen (s.reply channel token answer) delivered written (issued ++ [(channel,token)]) := by
  refine ⟨⟨account.indexed.inp,account.indexed.out⟩,account.capacity,account.readers,account.writers,account.distinct,
    account.bytes,?_⟩
  rw [reply_answered,← Multiset.coe_add,← Multiset.coe_add,account.replies]
  change _ = _ + (waiting s : Multiset (Nat × Nat))
  abel

theorem queue_account (account : Account bufLen s delivered written issued)
    (clients : s.clients = before ++ client :: after) (token : Nat) (data : List α) (eos : Bool) :
    Account bufLen (s.setWrites client.channel (client.writeRequests ++ [⟨token,data,0,eos⟩])) delivered
      (written ++ data.map fun b => (client.channel,b)) (issued ++ [(client.channel,token)]) := by
  have among := among_distinct account.distinct clients
  have clients' := among.setWrites (client.writeRequests ++ [⟨token,data,0,eos⟩])
  have distinct := account.distinct
  have bytes := @bytes_change _ client s before after (s.setWrites client.channel (client.writeRequests ++ [⟨token,data,0,eos⟩]))
    { client with writeRequests := client.writeRequests ++ [⟨token,data,0,eos⟩] } delivered written among clients' rfl [] data
    (List.append_nil _).symm (by simp [Client.left,WriteRequest.left]) account.bytes
  have once := @replies_change _ client s before after (s.setWrites client.channel (client.writeRequests ++ [⟨token,data,0,eos⟩]))
    { client with writeRequests := client.writeRequests ++ [⟨token,data,0,eos⟩] } issued [(client.channel,token)] [] among clients'
    (List.append_nil _).symm (by simp only [Client.tokens,List.map_append,← Multiset.coe_add,Multiset.coe_nil,zero_add]; rfl)
    account.replies
  refine ⟨⟨account.indexed.inp,account.indexed.out⟩,account.capacity,account.readers,account.writers,?_,bytes,once⟩
  rw [clients] at distinct
  rw [clients']
  simpa using distinct

theorem queueWrite_spec {token size : Nat} {heap : Nat → α} {binary : Binary α} (exact_ : size = binary.bytes.length) :
    queueWrite s client token heap size binary =
      .ok (s.setWrites client.channel (client.writeRequests ++ [⟨token,binary.bytes,0,false⟩])) := by
  have none : binary.bytes.drop size = [] := List.drop_of_length_le (by omega)
  rw [queueWrite,none,exact_,fill_exact]
  rfl

theorem added_account {t : Stream α} {taken : List α}
    (account : Account bufLen s delivered written issued) (clients : s.clients = before ++ client :: after)
    (idle : client.writeRequests = []) (added : Added s t taken) : Account bufLen t delivered (written ++ taken.map fun b => (client.channel,b)) issued := by
  have among := among_distinct account.distinct clients
  have clients' : t.clients = before ++ client :: after := added.clients.trans clients
  refine ⟨added.indexed,added.out.1.trans account.capacity,added.access.1.trans account.readers,
    added.access.2.trans account.writers,by rw [added.clients]; exact account.distinct,?_,?_⟩
  · apply bytes_change among clients' rfl added.contents _ account.bytes
    simp [Client.left,idle]
  · have sent : answered t = answered s := by rw [answered,added.sent]; rfl
    have waits : waiting t = waiting s := by rw [waiting,added.clients]; rfl
    rw [account.replies,sent,waits]

theorem writeLoop_spec {token size : Nat} {heap : Nat → α} {base64 : Bool}
    {fuel offs : Nat} {bytes : List α} (account : Account bufLen s delivered written issued)
    (clients : s.clients = before ++ client :: after) (idle : client.writeRequests = []) (isOpen : s.eosInp = false)
    (sized : s.room < bytes.length → size = offs + bytes.length) (enough : bytes.length < fuel) :
    ∃ next, writeLoop client token heap size fuel s offs ⟨bytes,base64⟩ = .ok (next,none) ∧
      Account bufLen next delivered (written ++ bytes.map fun b => (client.channel,b)) (issued ++ [(client.channel,token)]) := by
  induction fuel generalizing s offs bytes written with
  | zero => omega
  | succ fuel ih =>
    unfold writeLoop
    dsimp only
    by_cases none : bytes = []
    · rw [if_pos none,none]
      refine ⟨_,rfl,?_⟩
      rw [List.map_nil,List.append_nil]
      exact refused_account account ..
    rw [if_neg none]
    obtain ⟨t,add,added,room,ends⟩ := add_open account.indexed account.readers isOpen (bytes.take 256) false
    have account₁ := added_account account clients idle added
    have some : 0 < bytes.length := List.length_pos_iff.mpr none
    have chunk : (bytes.take 256).length = min 256 bytes.length := List.length_take
    have fits : min s.room (bytes.take 256).length ≤ (bytes.take 256).length := Nat.min_le_right ..
    have moved : (bytes.take 256).take s.room = bytes.take (min s.room (bytes.take 256).length) := by
      rw [List.take_take,chunk]
      apply List.take_eq_take_iff.mpr
      omega
    rw [moved] at account₁
    have clients₁ : t.clients = before ++ client :: after := added.clients.trans clients
    have together : (written ++ (bytes.take (min s.room (bytes.take 256).length)).map fun b => (client.channel,b)) ++
        ((bytes.drop (min s.room (bytes.take 256).length)).map fun b => (client.channel,b)) =
        written ++ bytes.map fun b => (client.channel,b) := by
      rw [List.append_assoc,← List.map_append,List.take_append_drop]
    rw [add]
    simp only [Code.ok_bind,require_true fits,Option.isSome_none,Bool.false_eq_true,if_false]
    generalize taken : min s.room (bytes.take 256).length = done at *
    have left : (bytes.drop done).length = bytes.length - done := List.length_drop
    by_cases partly : done < (bytes.take 256).length
    · have declared := sized (by omega)
      have holds : ¬(size < offs + done ∨ size - (offs + done) < (bytes.take 256).length - done) := by omega
      rw [if_pos partly,if_neg holds,queueWrite_spec (by rw [left,declared]; omega)]
      refine ⟨_,rfl,?_⟩
      rw [← together]
      exact queue_account account₁ clients₁ token (bytes.drop done) false
    · obtain ⟨next,run,account₂⟩ := @ih t _ (offs + done) (bytes.drop done) account₁ clients₁ (by simpa using ends)
        (fun less => by rw [room] at less; have declared := sized (by omega); omega) (by omega)
      rw [if_neg partly]
      refine ⟨next,run,?_⟩
      rw [← together]
      exact account₂

theorem find_among (found : findClient s channel = some client) :
    client.channel = channel ∧ ∃ before after, s.clients = before ++ client :: after := by
  obtain ⟨own,before,after,clients,_⟩ := List.find?_eq_some_iff_append.mp found
  exact ⟨by simpa using own,before,after,clients⟩

theorem carried_refused (channel : Nat) (error : StreamError) (bytes : List α) : carried channel (some error) bytes = [] := rfl

/-- The agent is told of nothing new. -/
theorem told_account (account : Account bufLen s delivered written issued) :
    Account bufLen { s with dataAvailablePosted := true } delivered written issued :=
  ⟨⟨account.indexed.inp,account.indexed.out⟩,account.capacity,account.readers,account.writers,account.distinct,account.bytes,
    account.replies⟩

/-- A closed stream takes nothing. -/
theorem writeLoop_closed {token size : Nat} {heap : Nat → α} {binary : Binary α} {fuel : Nat}
    (account : Account bufLen s delivered written issued) (off : s.eosInp = true) :
    ∃ next error, writeLoop client token heap size (fuel + 1) s 0 binary = .ok (next,error) ∧
      Account bufLen (answerError client.channel token (next,error)) delivered
        (written ++ carried client.channel error binary.bytes) (issued ++ [(client.channel,token)]) ∧
      (Drained s → Drained (answerError client.channel token (next,error))) := by
  unfold writeLoop
  by_cases none : binary.bytes = []
  · refine ⟨_,_,if_pos none,?_,fun drained => drained⟩
    rw [none]
    have empty : carried client.channel Option.none ([] : List α) = [] := rfl
    rw [empty,List.append_nil]
    exact refused_account account ..
  · rw [if_neg none]
    dsimp only
    rw [add_closed account.readers off]
    refine ⟨_,_,rfl,?_,fun drained => drained⟩
    rw [carried_refused,List.append_nil]
    exact refused_account (told_account account) ..

theorem write_spec (token : Nat) {size : Nat} (heap : Nat → α) {binary : Binary α} (account : Account bufLen s delivered written issued)
    (sized : ∀ client ∈ s.clients, client.channel = channel →
      (client.writeRequests ≠ [] ∨ (s.eosInp = false ∧ s.room < binary.bytes.length)) → size = binary.bytes.length) :
    ∃ next error, virtualStreamWrite s channel token heap size binary = .ok (next,error) ∧
      Account bufLen (answerError channel token (next,error)) delivered (written ++ carried channel error binary.bytes)
        (issued ++ [(channel,token)]) ∧ (Drained s → Drained (answerError channel token (next,error))) := by
  unfold virtualStreamWrite
  rcases found : findClient s channel with _ | client
  · refine ⟨s,some .noSuchStream,rfl,?_,fun drained => drained⟩
    rw [carried_refused,List.append_nil]
    exact refused_account account ..
  obtain ⟨own,before,after,clients⟩ := find_among found
  have member : client ∈ s.clients := by
    rw [clients]
    simp
  subst own
  have writable : ¬s.remoteWrite = false := by simp [account.writers]
  dsimp only
  rw [if_neg writable]
  by_cases idle : client.writeRequests = []
  · rw [if_neg (not_not.mpr idle)]
    cases off : s.eosInp with
    | false =>
      obtain ⟨next,run,account'⟩ := @writeLoop_spec _ client s before after bufLen delivered written issued token size heap
        binary.base64 (binary.bytes.length + 1) 0 binary.bytes account clients idle off
        (fun less => by rw [sized client member rfl (.inr ⟨off,less⟩)]; omega) (Nat.lt_succ_self _)
      refine ⟨next,none,run,account',fun drained => ?_⟩
      exact absurd drained.1 (by simp [off])
    | true => exact writeLoop_closed account off
  · rw [if_pos idle,queueWrite_spec (sized client member rfl (.inl idle))]
    refine ⟨_,none,rfl,queue_account account clients token binary.bytes false,fun drained => ?_⟩
    exact absurd (drained.2.2 client member) idle

theorem eos_spec (channel token : Nat) (account : Account bufLen s delivered written issued) :
    ∃ next, commandEos s channel token = .ok next ∧ Account bufLen next delivered written (issued ++ [(channel,token)]) ∧
      (Drained s → Drained next) := by
  unfold commandEos virtualStreamEos
  rcases found : findClient s channel with _ | client
  · exact ⟨_,rfl,refused_account account ..,fun drained => drained⟩
  obtain ⟨own,before,after,clients⟩ := find_among found
  have member : client ∈ s.clients := by
    rw [clients]
    simp
  subst own
  have writable : ¬s.remoteWrite = false := by simp [account.writers]
  dsimp only
  rw [if_neg writable]
  by_cases idle : client.writeRequests = []
  · rw [if_neg (not_not.mpr idle)]
    cases off : s.eosInp with
    | false =>
      obtain ⟨t,add,added,_,_⟩ := add_open account.indexed account.readers off [] true
      have account₁ := added_account account clients idle added
      rw [List.take_nil,List.map_nil,List.append_nil] at account₁
      rw [add]
      exact ⟨_,rfl,refused_account account₁ ..,fun drained => absurd drained.1 (by simp [off])⟩
    | true =>
      rw [add_closed account.readers off]
      exact ⟨_,rfl,refused_account (told_account account) ..,fun drained => drained⟩
  · rw [if_pos idle]
    have account₁ := queue_account account clients token [] true
    rw [List.map_nil,List.append_nil] at account₁
    exact ⟨_,rfl,account₁,fun drained => absurd (drained.2.2 client member) idle⟩

theorem connect_spec (channel token : Nat) (account : Account bufLen s delivered written issued) :
    Account bufLen (commandConnect s channel token) delivered written (issued ++ [(channel,token)]) ∧
      (Drained s → Drained (commandConnect s channel token)) := by
  unfold commandConnect
  split
  next absent =>
    have others : channel ∉ s.clients.map Client.channel := by
      intro member
      obtain ⟨client,inside,same⟩ := List.mem_map.mp member
      exact List.find?_eq_none.mp absent client inside (by simpa using same)
    have account₁ : Account bufLen (createClient s channel) delivered written issued :=
      ⟨⟨account.indexed.inp,account.indexed.out⟩,account.capacity,account.readers,account.writers,
        List.nodup_cons.mpr ⟨others,account.distinct⟩,account.bytes,account.replies⟩
    refine ⟨refused_account account₁ ..,fun drained => ⟨drained.1,drained.2.1,fun client member => ?_⟩⟩
    rcases List.mem_cons.mp member with rfl | old
    · rfl
    · exact drained.2.2 client old
  next present => exact ⟨refused_account account ..,fun drained => drained⟩

/-- The account of a delivery. -/
structure Settled (bufLen : Nat) (t : Delivery α) : Prop where
  account : Account bufLen t.stream t.delivered t.written t.issued
  ended : t.ended = true → Drained t.stream

theorem step_settled {t : Delivery α} {e : Command α} (inv : Settled bufLen t) (faithful : Faithful t e) :
    ∃ next, t.step e = .ok next ∧ Settled bufLen next := by
  cases e with
  | connect channel token =>
    obtain ⟨account,drained⟩ := connect_spec channel token inv.account
    exact ⟨_,rfl,account,fun ended => drained (inv.ended ended)⟩
  | write channel token heap size binary =>
    obtain ⟨s,error,run,account,drained⟩ := write_spec token heap inv.account faithful
    refine ⟨{ t with
      stream := answerError channel token (s,error)
      written := t.written ++ carried channel error binary.bytes
      issued := t.issued ++ [(channel,token)] },?_,⟨account,fun ended => drained (inv.ended ended)⟩⟩
    simp only [Delivery.step,run,Code.ok_bind]
    rfl
  | eos channel token =>
    obtain ⟨s,run,account,drained⟩ := eos_spec channel token inv.account
    refine ⟨{ t with stream := s, issued := t.issued ++ [(channel,token)] },?_,⟨account,fun ended => drained (inv.ended ended)⟩⟩
    simp only [Delivery.step,run,Code.ok_bind]
    rfl
  | getData size =>
    obtain ⟨s,data,eos,run,account,last,drained,_⟩ := getData_spec inv.account faithful size
    refine ⟨{ t with stream := s, delivered := t.delivered ++ data, ended := t.ended || eos },?_,⟨account,fun ended => ?_⟩⟩
    · simp only [Delivery.step,run,Code.ok_bind]
      rfl
    · rcases Bool.or_eq_true_iff.mp ended with before | now
      · exact drained (inv.ended before)
      · exact last now

theorem create_settled (bufLen : Nat) (heap : Nat → α) : Settled bufLen (Delivery.create false bufLen heap) := by
  have positive : 0 < bufLen + 1 := Nat.succ_pos _
  refine ⟨⟨⟨positive,positive⟩,rfl,rfl,rfl,List.nodup_nil,⟨[],?_,fun _ => rfl⟩,rfl⟩,nofun⟩
  have empty : (Delivery.create false bufLen heap).stream.len = 0 := by
    simp [Delivery.create,virtualStreamCreate,Stream.len]
  have none : (Delivery.create false bufLen heap).stream.contents = [] := by
    apply List.length_eq_zero_iff.mp
    rw [contents_length,empty]
  rw [none]
  rfl

theorem exec_settled {t : Delivery α} {commands : List (Command α)} (inv : Settled bufLen t)
    (faithful : (delivery α).Meets Faithful t commands) : ∃ final, (delivery α).exec t commands = .ok final ∧ Settled bufLen final := by
  induction commands generalizing t with
  | nil => exact ⟨t,rfl,inv⟩
  | cons e rest ih =>
    obtain ⟨next,run,inv'⟩ := step_settled inv faithful.1
    obtain ⟨final,runs,last⟩ := ih inv' (faithful.2 next run)
    exact ⟨final,(delivery α).exec_cons.mpr ⟨trivial,next,run,runs⟩,last⟩

end Steps

/-- Writes whose lengths are right when they wait come to the agent: what it got, with what is in the buffer and what
waits, is an interleaving of what the clients wrote; the end of the stream comes after all of it; each command is answered
or waits, once; and a call of `virtual_stream_get_data` brings all this forward. -/
theorem writes_delivered (bufLen : Nat) (heap : Nat → α) {commands : List (Command α)}
    (faithful : (delivery α).Meets Faithful (Delivery.create false bufLen heap) commands) :
    ∃ final, (delivery α).exec (Delivery.create false bufLen heap) commands = .ok final ∧
      (∃ returned buffered : List (Nat × α), returned.map Prod.snd = final.delivered ∧
        buffered.map Prod.snd = final.stream.contents ∧
        ∀ channel, ofChannel channel (returned ++ buffered ++ pending final.stream) = ofChannel channel final.written) ∧
      (final.ended = true → final.stream.contents = [] ∧ pending final.stream = [] ∧ waiting final.stream = []) ∧
      (final.issued : Multiset (Nat × Nat)) = (answered final.stream : Multiset (Nat × Nat)) + waiting final.stream ∧
      (0 < bufLen → ∀ size, 0 < size → Faithful final (.getData size) → ∃ next, final.step (.getData size) = .ok next ∧
        (outstanding next.stream < outstanding final.stream ∨ outstanding final.stream = 0)) := by
  obtain ⟨final,run,inv⟩ := exec_settled (create_settled bufLen heap) faithful
  refine ⟨final,run,?_,fun ended => ?_,inv.account.replies,fun room size some well => ?_⟩
  · obtain ⟨accepted,values,each⟩ := inv.account.bytes
    obtain ⟨returned,buffered,rfl,one,two⟩ := List.map_eq_append_iff.mp values
    exact ⟨returned,buffered,one,two,each⟩
  · obtain ⟨_,empty,idle⟩ := inv.ended ended
    refine ⟨empty,?_,?_⟩
    · exact List.flatMap_eq_nil_iff.mpr fun client member => by rw [Client.left,idle client member]; rfl
    · exact List.flatMap_eq_nil_iff.mpr fun client member => by rw [Client.tokens,idle client member]; rfl
  · obtain ⟨s,data,eos,step,_,_,_,less⟩ := getData_spec inv.account well size
    refine ⟨{ final with stream := s, delivered := final.delivered ++ data, ended := final.ended || eos },?_,less room some⟩
    simp only [Delivery.step,step,Code.ok_bind]
    rfl

/-- Two clients, of which one has to wait and then closes the stream. -/
def writesOfTwo : List (Command Nat) :=
  [.connect 1 1,.connect 2 2,.write 1 3 (fun _ => 99) 3 ⟨[10,11,12],false⟩,.eos 1 4,.getData 10,.write 2 5 (fun _ => 99) 8 ⟨[20],true⟩,
    .getData 10,.getData 10,.getData 10]

theorem writes_delivered_run : ∃ final, (delivery Nat).exec (Delivery.create false 2 fun _ => 0) writesOfTwo = .ok final ∧
    final.delivered = [10,11,20,12] ∧ final.ended = true ∧
    ((∃ returned buffered : List (Nat × Nat), returned.map Prod.snd = final.delivered ∧
        buffered.map Prod.snd = final.stream.contents ∧
        ∀ channel, ofChannel channel (returned ++ buffered ++ pending final.stream) = ofChannel channel final.written) ∧
      (final.ended = true → final.stream.contents = [] ∧ pending final.stream = [] ∧ waiting final.stream = []) ∧
      (final.issued : Multiset (Nat × Nat)) = (answered final.stream : Multiset (Nat × Nat)) + waiting final.stream) := by
  have faithful : (delivery Nat).Meets Faithful (Delivery.create false 2 fun _ => 0) writesOfTwo := by decide +kernel
  have values : ∃ final, (delivery Nat).exec (Delivery.create false 2 fun _ => 0) writesOfTwo = .ok final ∧
      final.delivered = [10,11,20,12] ∧ final.ended = true := by decide +kernel
  obtain ⟨final,run,bytes,ended,replies,_⟩ := writes_delivered 2 (fun _ => 0) faithful
  obtain ⟨same,run',delivered,closed⟩ := values
  rw [run] at run'
  cases run'
  exact ⟨final,run,delivered,closed,bytes,ended,replies⟩

/-- The declared length is 5. The agent gets two bytes that nobody wrote. -/
theorem writes_invented : ∃ final, (delivery Nat).exec (Delivery.create false 2 fun _ => 0)
    ([.connect 1 1,.write 1 2 (fun _ => 99) 5 ⟨[10,11,12],false⟩] ++ List.replicate 5 (.getData 10)) = .ok final ∧
    final.delivered = [10,11,12,99,99] ∧ final.written = [(1,10),(1,11),(1,12)] ∧ pending final.stream = [] ∧
    final.stream.contents = [] := by decide +kernel

end Tcf.Streams
