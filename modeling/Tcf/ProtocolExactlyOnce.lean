import Tcf.ProtocolWalk
import Mathlib.Tactic.Abel
import Mathlib.Data.List.TakeWhile

/-! Each command's handler is called once: what was issued is what waits in the table, what
failed and is in the event queue, and what was invoked. -/
namespace Tcf.Protocol.Replies

open Json Framing

def State.running (s : State) (i : Nat) : Option Nat :=
  s.closing.bind fun call => if call.chain = i then some call.rh.self else none

/-- Commands in the table whose handler was not called. -/
def pending (m : MemUsage) (s : State) : Multiset Nat :=
  ∑ i ∈ Finset.range m.replyHashSize, liveIds (s.running i) (s.table i)

def postedIds (s : State) : Multiset Nat := (s.posted.filter fun rh => rh.handler.isSome).map ReplyHandlerInfo.self

def invokedIds (s : State) : Multiset Nat := s.invoked.map Prod.fst

/-- Tables whose entries can be told apart, each in its chain. -/
structure Placed (m : MemUsage) (table : Table) (serial : Nat) : Prop where
  distinct : ∀ i, Distinct (table i)
  tokens : ∀ i, (table i).Pairwise fun a b => ¬(a.c = b.c ∧ a.tokenid = b.tokenid)
  chain : ∀ i, ∀ rh ∈ table i, replyHash m rh.c rh.tokenid = i
  bound : ∀ i, ∀ rh ∈ table i, rh.tokenid < 2^64 ∧ rh.self < serial

theorem Placed.keys {m : MemUsage} {table table' : Table} {serial : Nat} (h : Placed m table serial)
    (sub : ∀ i, ((table' i).map key).Sublist ((table i).map key)) : Placed m table' serial := by
  have origin : ∀ i, ∀ rh ∈ table' i, ∃ rh' ∈ table i, key rh' = key rh := fun i rh member =>
    List.mem_map.mp ((sub i).subset (List.mem_map_of_mem member))
  refine ⟨fun i => distinct_keys (sub i) (h.distinct i),fun i => ?_,fun i rh member => ?_,fun i rh member => ?_⟩
  · have pairs : ((table i).map key).Pairwise fun a b => ¬(a.2.1 = b.2.1 ∧ a.2.2 = b.2.2) :=
      List.pairwise_map.mpr (h.tokens i)
    exact List.pairwise_map.mp (pairs.sublist (sub i))
  · obtain ⟨rh',member',same⟩ := origin i rh member
    simp only [key,Prod.mk.injEq] at same
    rw [← same.2.1,← same.2.2]
    exact h.chain i rh' member'
  · obtain ⟨rh',member',same⟩ := origin i rh member
    simp only [key,Prod.mk.injEq] at same
    rw [← same.1,← same.2.2]
    exact h.bound i rh' member'

theorem replyHash_bound (m : MemUsage) (c : Address) (tokenid : Nat) : replyHash m c tokenid < m.replyHashSize := by
  have positive := m.positive
  apply Nat.mod_lt
  unfold MemUsage.replyHashSize
  omega

/-- Where the walk stands while a handler runs. -/
def Walking (m : MemUsage) (s : State) (call : Closing) : Prop :=
  call.chain < m.replyHashSize ∧ (s.disconnected call.c = true → ∀ j < call.chain, ∀ x ∈ s.table j, x.c ≠ call.c) ∧
    ∃ pre rest, Stands (s.disconnected call.c) s.table call pre rest ∧ LooseLink (s.disconnected call.c) call.rhp pre

structure Inv (m : MemUsage) (s : State) : Prop where
  placed : Placed m s.table s.serial
  once : pending m s + postedIds s + invokedIds s = (s.issued : Multiset Nat)
  nodup : s.issued.Nodup
  fresh : ∀ id ∈ s.issued, id < s.serial
  tokenid : ∀ p, s.tokenid p < 2^64
  gone : ∀ c, s.disconnected c = true → (∀ call ∈ s.closing, call.c ≠ c) → ∀ i, ∀ rh ∈ s.table i, rh.c ≠ c
  walking : ∀ call ∈ s.closing, Walking m s call

/-- One chain changes. -/
theorem sum_change {size i : Nat} {F F' : Nat → Multiset Nat} (inside : i < size) (same : ∀ j, j ≠ i → F' j = F j) :
    (∑ j ∈ Finset.range size, F' j) + F i = (∑ j ∈ Finset.range size, F j) + F' i := by
  have member : i ∈ Finset.range size := Finset.mem_range.mpr inside
  have others : ∑ j ∈ (Finset.range size).erase i, F' j = ∑ j ∈ (Finset.range size).erase i, F j :=
    Finset.sum_congr rfl fun j other => same j (Finset.ne_of_mem_erase other)
  rw [← Finset.add_sum_erase _ F' member,← Finset.add_sum_erase _ F member,others]
  abel

section Steps

variable {m : MemUsage} {s : State}

theorem running_none (closed : s.closing = none) (i : Nat) : s.running i = none := by simp [State.running,closed]

/-! Sending. -/

theorem freeToken_spec {table : Table} {c : Address} {fuel tokenid token next : Nat} (bound : tokenid < 2^64)
    (run : freeToken m table c fuel tokenid = .ok (token,next)) :
    findReplyHandler m table c token = none ∧ token < 2^64 ∧ next < 2^64 := by
  induction fuel generalizing tokenid with
  | zero => cases run
  | succ fuel ih =>
    have wrapped : (tokenid + 1) % 2^64 < 2^64 := Nat.mod_lt _ (by decide)
    unfold freeToken at run
    split at run
    next free =>
      cases run
      exact ⟨free,bound,wrapped⟩
    next => exact ih wrapped run

/-- A token that is free is found. -/
theorem freeToken_finds {table : Table} {c : Address} {fuel tokenid : Nat} (bound : tokenid < 2^64)
    {k : Nat} (near : k < fuel) (free : findReplyHandler m table c ((tokenid + k) % 2^64) = none) :
    ∃ found, freeToken m table c fuel tokenid = .ok found := by
  induction fuel generalizing tokenid k with
  | zero => omega
  | succ fuel ih =>
    unfold freeToken
    split
    · exact ⟨_,rfl⟩
    next taken =>
      cases k with
      | zero =>
        rw [Nat.add_zero,Nat.mod_eq_of_lt bound] at free
        exact absurd free taken
      | succ k =>
        have same : ((tokenid + 1) % 2^64 + k) % 2^64 = (tokenid + (k + 1)) % 2^64 := by
          rw [Nat.mod_add_mod,Nat.add_assoc,Nat.add_comm 1]
        exact ih (Nat.mod_lt _ (by decide)) (Nat.lt_of_succ_lt_succ near) (by rw [same]; exact free)

theorem liveIds_push {run : Option Nat} {rh : ReplyHandlerInfo} (other : run ≠ some rh.self) (chain : List ReplyHandlerInfo) :
    liveIds run (rh :: chain) = ownId rh + liveIds run chain := by
  unfold liveIds ownId
  cases some_ : rh.handler <;> simp [live,some_,other]

theorem Placed.later {table : Table} {serial later : Nat} (h : Placed m table serial) (less : serial ≤ later) :
    Placed m table later :=
  ⟨h.distinct,h.tokens,h.chain,fun i rh member => ⟨(h.bound i rh member).1,Nat.lt_of_lt_of_le (h.bound i rh member).2 less⟩⟩

/-- The running handler is one of an earlier allocation. -/
theorem running_bound (inv : Inv m s) {i id : Nat} (running : s.running i = some id) : id < s.serial := by
  rcases closing : s.closing with _ | call
  · rw [running_none closing] at running
    cases running
  · obtain ⟨_,_,pre,rest,stands,_⟩ := inv.walking call (by rw [closing]; rfl)
    have member : call.rh ∈ s.table call.chain := by
      rw [stands.entry]
      simp
    simp only [State.running,closing,Option.bind_some] at running
    split at running
    · cases running
      exact (inv.placed.bound _ _ member).2
    · cases running

theorem coe_push (ids : List Nat) (id : Nat) : ((ids ++ [id] : List Nat) : Multiset Nat) = (ids : Multiset Nat) + {id} := by
  rw [← Multiset.coe_add,Multiset.coe_singleton]

theorem issue_once {serial : Nat} {issued : List Nat} {handler : Option Address} {rh : ReplyHandlerInfo}
    (same : rh.handler = handler) (self : rh.self = serial) :
    ((if handler.isSome then issued ++ [serial] else issued : List Nat) : Multiset Nat) = (issued : Multiset Nat) + ownId rh := by
  rw [ownId,same,self]
  cases handler with
  | none => simp
  | some handler => exact coe_push issued serial

theorem issue_fresh {serial : Nat} {issued : List Nat} (handler : Option Address) (nodup : issued.Nodup)
    (fresh : ∀ id ∈ issued, id < serial) :
    (if handler.isSome then issued ++ [serial] else issued).Nodup ∧
      ∀ id ∈ (if handler.isSome then issued ++ [serial] else issued), id < serial + 1 := by
  cases handler with
  | none => exact ⟨nodup,fun id member => Nat.lt_succ_of_lt (fresh id member)⟩
  | some handler =>
    simp only [Option.isSome_some,if_true,List.mem_append,List.mem_singleton]
    refine ⟨?_,?_⟩
    · rw [List.nodup_append]
      refine ⟨nodup,List.nodup_singleton _,fun id member id' member' => ?_⟩
      rw [List.mem_singleton.mp member']
      exact Nat.ne_of_lt (fresh id member)
    · rintro id (member | rfl)
      · exact Nat.lt_succ_of_lt (fresh id member)
      · exact Nat.lt_succ_self _

theorem send_inv (inv : Inv m s) {c : Address} {handler progress : Option Address} {clientData : Address} {next : State}
    (clear : NoIntrusion m s (.send c handler progress clientData))
    (run : sendCommand m s c handler progress clientData = .ok next) : Inv m next := by
  obtain ⟨nodup,fresh⟩ := issue_fresh handler inv.nodup inv.fresh
  unfold sendCommand at run
  dsimp only at run
  split at run
  · cases run
    refine ⟨inv.placed.later (Nat.le_succ _),?_,nodup,fresh,inv.tokenid,inv.gone,inv.walking⟩
    have posted (rh : ReplyHandlerInfo) : (((s.posted ++ [rh]).filter fun rh : ReplyHandlerInfo => rh.handler.isSome).map
        ReplyHandlerInfo.self : Multiset Nat) = postedIds s + ownId rh := by
      unfold postedIds ownId
      rw [List.filter_append,List.map_append]
      cases some_ : rh.handler with
      | none => simp [some_]
      | some handler => simpa [some_] using coe_push _ rh.self
    rw [@issue_once s.serial s.issued handler ⟨s.serial,0,c,handler,progress,clientData⟩ rfl rfl,← inv.once]
    generalize (⟨s.serial,0,c,handler,progress,clientData⟩ : ReplyHandlerInfo) = rh
    change pending m s + (((s.posted ++ [rh]).filter fun rh : ReplyHandlerInfo => rh.handler.isSome).map
      ReplyHandlerInfo.self : Multiset Nat) + invokedIds s = _
    rw [posted]
    abel
  next closed =>
    have isOpen : (s.channels c).open = true := by simpa using closed
    have connected : s.disconnected c = false := by
      have state := (Bool.and_eq_true_iff.mp isOpen).1
      simpa [State.disconnected] using state
    rcases found : freeToken m s.table c (2^64) (s.tokenid (s.channels c).protocol) with stop | ⟨token,following⟩
    · rw [found] at run
      cases run
    rw [found] at run
    cases run
    obtain ⟨free,small,small'⟩ := freeToken_spec (inv.tokenid _) found
    have sent : sentTo m s c = some (replyHash m c token) := by rw [sentTo,if_neg closed,found]
    generalize chain : replyHash m c token = h at sent
    generalize entered : (⟨s.serial,token,c,handler,progress,clientData⟩ : ReplyHandlerInfo) = rh
    have fields : rh.self = s.serial ∧ rh.tokenid = token ∧ rh.c = c ∧ rh.handler = handler := by
      rw [← entered]
      exact ⟨rfl,rfl,rfl,rfl⟩
    obtain ⟨self,number,channel,_⟩ := fields
    have members (j : Nat) (x : ReplyHandlerInfo) (member : x ∈ Function.update s.table h (rh :: s.table h) j) :
        (j = h ∧ x = rh) ∨ x ∈ s.table j := by
      by_cases here : j = h
      · subst here
        rw [Function.update_self] at member
        exact (List.mem_cons.mp member).imp_left fun same => ⟨rfl,same⟩
      · rw [Function.update_of_ne here] at member
        exact .inr member
    have outsider {d : Address} (gone : s.disconnected d = true) : rh.c ≠ d := by
      rw [channel]
      rintro rfl
      rw [connected] at gone
      cases gone
    refine ⟨⟨fun i => ?_,fun i => ?_,fun i x member => ?_,fun i x member => ?_⟩,?_,nodup,fresh,fun p => ?_,?_,?_⟩
    · dsimp only
      by_cases here : i = h
      · subst here
        rw [Function.update_self,Distinct,List.map_cons,List.nodup_cons]
        refine ⟨fun member => ?_,inv.placed.distinct i⟩
        obtain ⟨x,member,same⟩ := List.mem_map.mp member
        have bound := (inv.placed.bound i x member).2
        omega
      · rw [Function.update_of_ne here]
        exact inv.placed.distinct i
    · dsimp only
      by_cases here : i = h
      · subst here
        rw [Function.update_self,List.pairwise_cons]
        refine ⟨?_,inv.placed.tokens i⟩
        rintro x member ⟨same,same'⟩
        rw [findReplyHandler,chain,List.find?_eq_none] at free
        apply free x member
        simp [ReplyHandlerInfo.answers,← same,← same',channel,number]
      · rw [Function.update_of_ne here]
        exact inv.placed.tokens i
    · rcases members i x member with ⟨rfl,rfl⟩ | old
      · rw [channel,number,chain]
      · exact inv.placed.chain i x old
    · rcases members i x member with ⟨rfl,rfl⟩ | old
      · rw [number,self]
        exact ⟨small,Nat.lt_succ_self _⟩
      · exact ⟨(inv.placed.bound i x old).1,Nat.lt_succ_of_lt (inv.placed.bound i x old).2⟩
    · have inside : h < m.replyHashSize := by
        rw [← chain]
        exact replyHash_bound m c token
      have change := @sum_change m.replyHashSize h (fun j => liveIds (s.running j) (s.table j))
        (fun j => liveIds (s.running j) (Function.update s.table h (rh :: s.table h) j)) inside
        (fun j other => by rw [Function.update_of_ne other])
      have other : s.running h ≠ some rh.self := by
        intro same
        have bound := running_bound inv same
        omega
      simp only [Function.update_self,liveIds_push other] at change
      have grown : (∑ j ∈ Finset.range m.replyHashSize, liveIds (s.running j) (Function.update s.table h (rh :: s.table h) j)) =
          pending m s + ownId rh := by
        rw [add_left_comm,← add_assoc] at change
        exact (add_right_cancel change).trans (add_comm _ _)
      have issued := @issue_once s.serial s.issued handler rh (by rw [← entered]) self
      rw [issued,← inv.once]
      change (∑ j ∈ Finset.range m.replyHashSize, liveIds (s.running j) (Function.update s.table h (rh :: s.table h) j)) +
        postedIds s + invokedIds s = _
      rw [grown]
      abel
    · dsimp only
      by_cases here : p = (s.channels c).protocol
      · rw [here,Function.update_self]
        exact small'
      · rw [Function.update_of_ne here]
        exact inv.tokenid p
    · intro d gone away i x member
      rcases members i x member with ⟨rfl,rfl⟩ | old
      · exact outsider gone
      · exact inv.gone d gone away i x old
    · intro call member
      obtain ⟨inside,before,pre,rest,stands,link⟩ := inv.walking call member
      refine ⟨inside,fun gone j less x member => ?_,?_⟩
      · rcases members j x member with ⟨_,rfl⟩ | old
        · exact outsider gone
        · exact before gone j less x old
      · by_cases here : call.chain = h
        · refine ⟨rh :: pre,rest,⟨?_,stands.mine,stands.handler,fun gone x member => ?_⟩,?_⟩
          · change Function.update s.table h (rh :: s.table h) call.chain = _
            rw [here,Function.update_self,← here,stands.entry]
            rfl
          · rcases List.mem_cons.mp member with rfl | member
            · exact outsider gone
            · exact stands.passed gone x member
          · rcases position : call.rhp with _ | q
            · intro gone
              exact absurd (by rw [sent,here]) (clear call member position gone)
            · rw [position] at link
              obtain ⟨front,e,same,link⟩ := link
              exact ⟨rh :: front,e,by rw [same]; rfl,link⟩
        · have entry : Function.update s.table h (rh :: s.table h) call.chain = pre ++ call.rh :: rest := by
            rw [Function.update_of_ne here]
            exact stands.entry
          exact ⟨pre,rest,⟨entry,stands.mine,stands.handler,stands.passed⟩,link⟩

/-! Replies, and commands that failed. -/

theorem invokedIds_invoke (s : State) (rh : ReplyHandlerInfo) (error : Int) :
    invokedIds (s.invoke rh error) = invokedIds s + ownId rh := by
  unfold State.invoke ownId
  split
  · simp only [invokedIds,List.map_append,List.map_cons,List.map_nil]
    exact coe_push _ rh.self
  · simp

/-- A call leaves everything but the list of calls. -/
theorem invoke_inv {rh : ReplyHandlerInfo} (error : Int) (placed : Placed m s.table s.serial)
    (once : pending m s + postedIds s + invokedIds s + ownId rh = (s.issued : Multiset Nat)) (nodup : s.issued.Nodup)
    (fresh : ∀ id ∈ s.issued, id < s.serial) (tokenid : ∀ p, s.tokenid p < 2^64)
    (gone : ∀ c, s.disconnected c = true → (∀ call ∈ s.closing, call.c ≠ c) → ∀ i, ∀ rh ∈ s.table i, rh.c ≠ c)
    (walking : ∀ call ∈ s.closing, Walking m s call) : Inv m (s.invoke rh error) := by
  have ids := invokedIds_invoke s rh error
  have total : pending m (s.invoke rh error) + postedIds (s.invoke rh error) + invokedIds (s.invoke rh error) =
      ((s.invoke rh error).issued : Multiset Nat) := by
    rw [ids,← add_assoc]
    unfold State.invoke
    split
    · exact once
    · exact once
  unfold State.invoke at *
  split at total
  next called =>
    simp only [called,if_true]
    exact ⟨placed,total,nodup,fresh,tokenid,gone,walking⟩
  next idle =>
    simp only [idle]
    exact ⟨placed,total,nodup,fresh,tokenid,gone,walking⟩

theorem takeReplyHandler_spec {table : Table} {c : Address} {tokenid : Nat} {rh : ReplyHandlerInfo}
    (found : findReplyHandler m table c tokenid = some rh) :
    ∃ before behind, table (replyHash m c tokenid) = before ++ rh :: behind ∧
      takeReplyHandler m table c tokenid = Function.update table (replyHash m c tokenid) (before ++ behind) ∧
      rh.tokenid = tokenid := by
  obtain ⟨answers,before,behind,chain,others⟩ := List.find?_eq_some_iff_append.mp found
  have unlinked : (before ++ rh :: behind).eraseP (ReplyHandlerInfo.answers c tokenid) = before ++ behind := by
    rw [List.eraseP_append_right _ fun x member => by simpa using others x member,List.eraseP_cons_of_pos answers]
  refine ⟨before,behind,chain,?_,?_⟩
  · rw [takeReplyHandler,chain,unlinked]
  · simp only [ReplyHandlerInfo.answers,decide_eq_true_eq] at answers
    exact answers.2

theorem reply_inv (inv : Inv m s) (closed : s.closing = none) (c : Address) (type token : List UInt8) :
    Inv m (replyMessage m s c type token) := by
  unfold replyMessage
  rcases (tokenNumber token) with _ | tokenid
  · exact inv
  rw [Option.bind_some]
  rcases found : findReplyHandler m s.table c tokenid with _ | rh
  · exact inv
  dsimp only
  split
  · exact inv
  obtain ⟨before,behind,chain,taken,same⟩ := takeReplyHandler_spec found
  rw [same]
  generalize hash : replyHash m c tokenid = h at chain taken
  have others (i : Nat) (away : i ≠ h) : takeReplyHandler m s.table c tokenid i = s.table i := by
    rw [taken,Function.update_of_ne away]
  have here : takeReplyHandler m s.table c tokenid h = before ++ behind := by rw [taken,Function.update_self]
  have sub (i : Nat) : (takeReplyHandler m s.table c tokenid i).Sublist (s.table i) := by
    by_cases away : i = h
    · rw [away,here,chain]
      exact List.Sublist.append (List.Sublist.refl _) (List.sublist_cons_self ..)
    · rw [others i away]
  have idle := running_none closed
  apply invoke_inv
  · exact inv.placed.keys fun i => (sub i).map key
  · have inside : h < m.replyHashSize := by
      rw [← hash]
      exact replyHash_bound m c tokenid
    have change := @sum_change m.replyHashSize h (fun i => liveIds (s.running i) (s.table i))
      (fun i => liveIds (s.running i) (takeReplyHandler m s.table c tokenid i)) inside
      (fun i away => by rw [others i away])
    simp only [here,chain,idle,liveIds_at] at change
    have shrunk : pending m { s with table := takeReplyHandler m s.table c tokenid } + ownId rh = pending m s := by
      simp only [pending,State.running,closed]
      rw [← add_assoc] at change
      exact add_right_cancel change
    have once := inv.once
    rw [← shrunk] at once
    rw [← once]
    change pending m { s with table := takeReplyHandler m s.table c tokenid } + postedIds s + invokedIds s + ownId rh = _
    abel
  · exact inv.nodup
  · exact inv.fresh
  · exact inv.tokenid
  · exact fun d gone away i rh member => inv.gone d gone away i rh ((sub i).subset member)
  · intro call member
    rw [closed] at member
    cases member

theorem failed_inv (inv : Inv m s) : Inv m (sendCommandFailed s) := by
  unfold sendCommandFailed
  rcases queue : s.posted with _ | ⟨rh,posted⟩
  · exact inv
  dsimp only
  apply invoke_inv
  · exact inv.placed
  · have own : postedIds s = ownId rh + postedIds { s with posted } := by
      unfold postedIds ownId
      rw [queue]
      cases some_ : rh.handler with
      | none => simp [some_]
      | some handler =>
        simp only [List.filter_cons,some_,Option.isSome_some,if_true,List.map_cons]
        exact (Multiset.cons_coe ..).symm.trans (Multiset.singleton_add ..).symm
    have once := inv.once
    rw [own] at once
    change pending m s + postedIds { s with posted } + invokedIds s + ownId rh = _
    rw [← once]
    abel
  · exact inv.nodup
  · exact inv.fresh
  · exact inv.tokenid
  · exact inv.gone
  · exact inv.walking

/-! Closing. -/

theorem Placed.inside {table : Table} {serial : Nat} (h : Placed m table serial) {i : Nat} {rh : ReplyHandlerInfo}
    (member : rh ∈ table i) : i < m.replyHashSize := by
  rw [← h.chain i rh member]
  exact replyHash_bound m rh.c rh.tokenid

theorem disconnected_update {c : Address} {p : Peer} (same : p.state = (s.channels c).state) (d : Address) :
    ({ s with channels := Function.update s.channels c p } : State).disconnected d = s.disconnected d := by
  unfold State.disconnected
  by_cases here : d = c
  · simp [here,same]
  · simp [here]

theorem disconnected_other {c d : Address} (other : d ≠ c) (p : Peer) :
    ({ s with channels := Function.update s.channels c p } : State).disconnected d = s.disconnected d := by
  simp [State.disconnected,other]

/-- The running handler counts as invoked. -/
theorem sum_running {table : Table} {call : Closing} {pre rest : List ReplyHandlerInfo} {disconnected : Bool}
    (inside : call.chain < m.replyHashSize) (stands : Stands disconnected table call pre rest)
    (distinct : ∀ i, Distinct (table i)) :
    (∑ i ∈ Finset.range m.replyHashSize, liveIds (if call.chain = i then some call.rh.self else none) (table i)) +
      ownId call.rh = ∑ i ∈ Finset.range m.replyHashSize, liveIds none (table i) := by
  have change := @sum_change m.replyHashSize call.chain (fun i => liveIds none (table i))
    (fun i => liveIds (if call.chain = i then some call.rh.self else none) (table i)) inside
    (fun i other => by rw [if_neg other.symm])
  have own := distinct call.chain
  rw [stands.entry] at own
  simp only [if_true,stands.entry,liveIds_running own,liveIds_at] at change
  rw [← add_assoc] at change
  exact add_right_cancel change

theorem proceed_inv {c : Address} {table : Table} {next : Option Closing} (placed : Placed m table s.serial)
    (once : (∑ i ∈ Finset.range m.replyHashSize, liveIds none (table i)) + postedIds s + invokedIds s = (s.issued : Multiset Nat))
    (nodup : s.issued.Nodup) (fresh : ∀ id ∈ s.issued, id < s.serial) (tokenid : ∀ p, s.tokenid p < 2^64)
    (gone : ∀ d, d ≠ c → s.disconnected d = true → ∀ i, ∀ rh ∈ table i, rh.c ≠ d)
    (done : next = none → s.disconnected c = true → ∀ i < m.replyHashSize, ∀ rh ∈ table i, rh.c ≠ c)
    (calls : ∀ call ∈ next, call.c = c ∧ call.chain < m.replyHashSize ∧
      (s.disconnected c = true → ∀ j < call.chain, ∀ x ∈ table j, x.c ≠ c) ∧
      ∃ pre rest, Stands (s.disconnected c) table call pre rest ∧ Link call.rhp pre) :
    Inv m (s.proceed c (table,next)) := by
  cases next with
  | none =>
    have same (d : Address) := @disconnected_update s c { s.channels c with services := false } rfl d
    refine ⟨placed,once,nodup,fresh,tokenid,fun d off _ i rh member => ?_,nofun⟩
    have off' : s.disconnected d = true := (same d).symm.trans off
    by_cases here : d = c
    · rw [here] at off' ⊢
      exact done rfl off' i (placed.inside member) rh member
    · exact gone d here off' i rh member
  | some call =>
    obtain ⟨mine,inside,before,pre,rest,stands,link⟩ := calls call rfl
    apply invoke_inv
    · exact placed
    · change (∑ i ∈ Finset.range m.replyHashSize, liveIds (if call.chain = i then some call.rh.self else none) (table i)) +
        postedIds s + invokedIds s + ownId call.rh = _
      rw [← once,← sum_running inside stands placed.distinct]
      abel
    · exact nodup
    · exact fresh
    · exact tokenid
    · exact fun d off away i rh member => gone d (fun same => away call rfl (mine.trans same.symm)) off i rh member
    · rintro other ⟨⟩
      have own : (s.disconnected call.c) = s.disconnected c := by rw [mine]
      refine ⟨inside,?_,pre,rest,?_,link.loose⟩
      · change s.disconnected call.c = true → _
        rw [own,mine]
        exact before
      · change Stands (s.disconnected call.c) table call pre rest
        rw [own]
        exact stands

theorem Kept.origin {run : Option Nat} {chain chain' : List ReplyHandlerInfo} (kept : Kept run chain chain')
    {rh : ReplyHandlerInfo} (member : rh ∈ chain') : ∃ rh' ∈ chain, rh'.c = rh.c := by
  obtain ⟨rh',member',same⟩ := List.mem_map.mp (kept.keys.subset (List.mem_map_of_mem member))
  simp only [key,Prod.mk.injEq] at same
  exact ⟨rh',member',same.2.1⟩

/-- From one stop of the walk to the next. Only the channel that is closed may have changed. -/
theorem walk_inv (inv : Inv m s) {c : Address} {channels : Address → Peer} {table : Table} {next : Option Closing}
    (others : ∀ d, d ≠ c → channels d = s.channels d) (current : ∀ call ∈ s.closing, call.c = c)
    (kept : ∀ j, Kept (s.running j) (s.table j) (table j))
    (done : next = none → ({ s with channels } : State).disconnected c = true →
      ∀ i < m.replyHashSize, ∀ rh ∈ table i, rh.c ≠ c)
    (calls : ∀ call ∈ next, call.c = c ∧ call.chain < m.replyHashSize ∧
      (({ s with channels } : State).disconnected c = true → ∀ j < call.chain, ∀ x ∈ table j, x.c ≠ c) ∧
      ∃ pre rest, Stands (({ s with channels } : State).disconnected c) table call pre rest ∧ Link call.rhp pre) :
    Inv m (({ s with channels } : State).proceed c (table,next)) := by
  apply proceed_inv
  · exact inv.placed.keys fun j => (kept j).keys
  · rw [Finset.sum_congr rfl fun j _ => (kept j).ids]
    exact inv.once
  · exact inv.nodup
  · exact inv.fresh
  · exact inv.tokenid
  · intro d other off i rh member
    obtain ⟨rh',member',same⟩ := (kept i).origin member
    rw [← same]
    refine inv.gone d ?_ (fun call running here => other (here ▸ current call running)) i rh' member'
    rw [← off]
    simp only [State.disconnected,others d other]
  · exact done
  · exact calls

theorem close_inv (inv : Inv m s) (closed : s.closing = none) (c : Address) (p : Peer) :
    Inv m (channelClosed m { s with channels := Function.update s.channels c p } c) := by
  unfold channelClosed
  generalize found : ({ s with channels := Function.update s.channels c p } : State).disconnected c = off
  obtain ⟨table,next,walk,kept,done,calls⟩ := @walkChains_spec off c m.replyHashSize 0 s.table inv.placed.distinct
    (fun _ _ less => absurd less (Nat.not_lt_zero _))
  rw [Nat.zero_add] at done calls
  change Inv m (State.proceed _ c (walkChains off c m.replyHashSize 0 s.table))
  rw [walk]
  apply walk_inv inv
  · exact fun d other => Function.update_of_ne other ..
  · rw [closed]
    exact nofun
  · intro j
    rw [running_none closed]
    exact kept j
  · rw [found]
    exact done
  · rw [found]
    exact calls

theorem returned_inv {call : Closing} (inv : Inv m s) (closing : s.closing = some call) : Inv m (handlerReturned m s call) := by
  obtain ⟨inside,before,pre,rest,stands,link⟩ := inv.walking call (by rw [closing]; rfl)
  have running (j : Nat) : s.running j = if call.chain = j then some call.rh.self else none := by
    simp [State.running,closing]
  have current : ∀ other ∈ s.closing, other.c = call.c := by
    rw [closing]
    rintro other ⟨⟩
    rfl
  unfold handlerReturned
  generalize found : s.disconnected call.c = off at before stands link
  obtain ⟨table₁,rhp₁,pre₁,after,stands₁,link₁,frame₁,kept₁,same₁⟩ :=
    afterHandler_spec stands.entry link (inv.placed.distinct _)
  have distinct₁ := distinct_keys kept₁.keys (inv.placed.distinct _)
  have passed₁ : off = true → ∀ x ∈ pre₁, x.c ≠ call.c := by
    intro on
    rw [same₁ on]
    exact stands.passed on
  obtain ⟨table₂,next,walk,frame₂,kept₂,done,calls⟩ := walkChain_spec stands₁ link₁ distinct₁ passed₁
  have kept (j : Nat) : Kept (s.running j) (s.table j) (table₂ j) := by
    rw [running]
    split
    next here =>
      subst here
      exact kept₁.trans kept₂
    next other =>
      have away : j ≠ call.chain := fun same => other same.symm
      rw [frame₂ j away,frame₁ j away]
      exact .refl _
  have passed₂ : off = true → ∀ j < call.chain, ∀ x ∈ table₂ j, x.c ≠ call.c := by
    intro on j less
    have away : j ≠ call.chain := Nat.ne_of_lt less
    rw [frame₂ j away,frame₁ j away]
    exact before on j less
  have linked₁ : linked (table₁ call.chain) rhp₁ = rest := by
    rw [stands₁] at distinct₁ ⊢
    exact linked_link link₁ distinct₁
  rw [after]
  dsimp only
  rw [linked₁,walk]
  cases next with
  | some next =>
    change Inv m (({ s with channels := s.channels } : State).proceed call.c (table₂,some next))
    refine @walk_inv m s inv call.c s.channels table₂ (some next) (fun _ _ => rfl) current kept nofun ?_
    change ∀ other ∈ some next, other.c = call.c ∧ other.chain < m.replyHashSize ∧ (s.disconnected call.c = true → _) ∧
      ∃ pre rest, Stands (s.disconnected call.c) table₂ other pre rest ∧ Link other.rhp pre
    rintro other ⟨⟩
    obtain ⟨mine,chain,place⟩ := calls next rfl
    rw [found,chain]
    exact ⟨mine,inside,passed₂,place⟩
  | none =>
    have passed₃ : off = true → ∀ j < call.chain + 1, ∀ x ∈ table₂ j, x.c ≠ call.c := by
      intro on j less
      rcases Nat.lt_succ_iff_lt_or_eq.mp less with less | rfl
      · exact passed₂ on j less
      · exact done rfl on
    obtain ⟨table₃,next,walk₃,kept₃,done₃,calls₃⟩ := @walkChains_spec off call.c (m.replyHashSize - (call.chain + 1))
      (call.chain + 1) table₂ (fun j => distinct_keys (kept j).keys (inv.placed.distinct j)) passed₃
    have size : call.chain + 1 + (m.replyHashSize - (call.chain + 1)) = m.replyHashSize := by omega
    rw [size] at done₃ calls₃
    dsimp only
    rw [walk₃]
    change Inv m (({ s with channels := s.channels } : State).proceed call.c (table₃,next))
    apply walk_inv inv (fun _ _ => rfl) current (fun j => (kept j).trans (kept₃ j))
    · change next = none → s.disconnected call.c = true → _
      rw [found]
      exact done₃
    · change ∀ other ∈ next, other.c = call.c ∧ other.chain < m.replyHashSize ∧ (s.disconnected call.c = true → _) ∧
        ∃ pre rest, Stands (s.disconnected call.c) table₃ other pre rest ∧ Link other.rhp pre
      rw [found]
      exact calls₃

/-! Runs. -/

/-- Other changes of channels: only a closed channel is opened, and none is closed. -/
theorem channels_inv (inv : Inv m s) {channels : Address → Peer}
    (less : ∀ d, ({ s with channels } : State).disconnected d = true → s.disconnected d = true)
    (same : ∀ call ∈ s.closing, ({ s with channels } : State).disconnected call.c = s.disconnected call.c) :
    Inv m { s with channels } := by
  refine ⟨inv.placed,inv.once,inv.nodup,inv.fresh,inv.tokenid,fun d off => inv.gone d (less d off),fun call member => ?_⟩
  have walking := inv.walking call member
  unfold Walking at *
  rw [same call member]
  exact walking

theorem step_inv {event : Event} {next : State} (inv : Inv m s) (can : Enabled s event) (clear : NoIntrusion m s event)
    (run : step m s event = .ok next) : Inv m next := by
  cases event with
  | «open» c protocol =>
    cases run
    obtain ⟨off,free⟩ := can
    apply channels_inv inv
    · intro d
      by_cases here : d = c
      · rw [here]
        intro
        simpa [State.disconnected] using off
      · rw [disconnected_other here]
        exact id
    · exact fun call member => disconnected_other (free call member) _
  | setState c state services =>
    cases run
    obtain ⟨on,stays⟩ := can
    have same (d : Address) : ({ s with channels := Function.update s.channels c { s.channels c with state, services } } :
        State).disconnected d = s.disconnected d := by
      by_cases here : d = c
      · simp [State.disconnected,here,on,stays]
      · exact disconnected_other here _
    exact channels_inv inv (fun d off => (same d).symm.trans off) fun call _ => same call.c
  | send c handler progress clientData => exact send_inv inv clear run
  | message c type token =>
    cases run
    exact reply_inv inv can.1 c type token
  | failed =>
    cases run
    exact failed_inv inv
  | close c state =>
    cases run
    exact close_inv inv can.1 c _
  | returned =>
    rcases closing : s.closing with _ | call
    · exact absurd closing can
    · simp only [step,closing] at run
      cases run
      exact returned_inv inv closing

theorem initial_inv (m : MemUsage) : Inv m State.initial := by
  refine ⟨⟨fun _ => List.nodup_nil,fun _ => .nil,nofun,nofun⟩,?_,List.nodup_nil,nofun,fun _ => by simp [State.initial],
    fun _ _ _ => nofun,nofun⟩
  simp [pending,State.initial,postedIds,invokedIds]

/-! The token in a reply. -/

theorem digits_value (n : Nat) : (decimal n).foldl (fun n ch => n * 10 + (ch.toNat - 0x30)) 0 = n := by
  induction n using Nat.strongRecOn with
  | ind n ih =>
    unfold decimal
    by_cases more : n ≥ 10
    · have last := (@digit_ofNat (n % 10) (by omega)).2
      rw [if_pos more,List.foldl_append,ih (n / 10) (by omega)]
      simp only [List.foldl_cons,List.foldl_nil,last]
      omega
    · have last := (@digit_ofNat n (by omega)).2
      rw [if_neg more]
      simp only [List.foldl_cons,List.foldl_nil,last]
      omega

theorem tokenNumber_decimal {n : Nat} (small : n < 2^64) : tokenNumber (decimal n) = some n := by
  obtain ⟨digits,some_⟩ := decimal_digits n
  have all : ∀ ch ∈ decimal n, isDigit ch = true := by
    intro ch member
    have digit := digits ch member
    unfold Digit at digit
    simp only [isDigit,Bool.and_eq_true,decide_eq_true_eq,UInt8.le_iff_toNat_le,UInt8.reduceToNat]
    exact digit
  obtain ⟨first,rest,text⟩ := List.exists_cons_of_ne_nil some_
  have digit := digits first (by rw [text]; exact List.mem_cons_self)
  have plain : (decimal n).dropWhile (fun ch => isSpace (.byte ch)) = decimal n := by
    rw [text,List.dropWhile_cons_of_neg (by rw [isSpace_digit digit]; simp)]
  have unsigned : ((decimal n).head? == some 0x2d) = false ∧ ((decimal n).head? == some 0x2b) = false := by
    rw [text]
    obtain ⟨low,_⟩ := digit
    constructor
    · apply beq_false_of_ne
      rintro ⟨⟩
      exact absurd low (by decide)
    · apply beq_false_of_ne
      rintro ⟨⟩
      exact absurd low (by decide)
  have taken : (decimal n).takeWhile isDigit = decimal n := List.takeWhile_eq_self_iff.mpr all
  have fits : ¬18446744073709551616 ≤ n := Nat.not_le.mpr small
  simp [tokenNumber,strtoul,plain,unsigned.1,unsigned.2,taken,some_,digits_value,fits]

/-- The entry is found by its token. -/
theorem findReplyHandler_entry (inv : Inv m s) {i : Nat} {rh : ReplyHandlerInfo} (member : rh ∈ s.table i) :
    findReplyHandler m s.table rh.c rh.tokenid = some rh := by
  have chain := inv.placed.chain i rh member
  obtain ⟨before,behind,split⟩ := List.append_of_mem member
  have pairs := inv.placed.tokens i
  rw [split] at pairs
  have apart := (List.pairwise_append.mp pairs).2.2
  rw [findReplyHandler,chain,List.find?_eq_some_iff_append]
  refine ⟨by simp [ReplyHandlerInfo.answers],before,behind,split,fun x early => ?_⟩
  have other := apart x early rh List.mem_cons_self
  simp only [ReplyHandlerInfo.answers,other,decide_false,Bool.not_false]

end Steps

/-- Every command that was issued with a handler waits in the table, failed and is posted, or its handler was called: one
of these, and once. A reply to a command in the table is matched to it. -/
theorem replies_exactly_once {m : MemUsage} {events : List Event} {final : State}
    (run : (replies m).exec State.initial events = .ok final)
    (clear : (replies m).Meets (NoIntrusion m) State.initial events) :
    final.issued.Nodup ∧ pending m final + postedIds final + invokedIds final = (final.issued : Multiset Nat) ∧
      (∀ i, ∀ rh ∈ final.table i, ∀ type ∈ [stringR,stringN], replyMessage m final rh.c type (decimal rh.tokenid) =
        { final with table := takeReplyHandler m final.table rh.c rh.tokenid }.invoke rh
          (if type = stringN then ERR_INV_COMMAND else 0)) ∧
      ∀ c, final.disconnected c = true → (∀ call ∈ final.closing, call.c ≠ c) → ∀ i, ∀ rh ∈ final.table i, rh.c ≠ c := by
  have inv : Inv m final := (replies m).exec_invariant (Inv m)
    (fun s e next inv can clear run => step_inv inv can clear run) (initial_inv m) run clear
  refine ⟨inv.nodup,inv.once,?_,inv.gone⟩
  intro i rh member type final_
  have small := (inv.placed.bound i rh member).1
  have found := findReplyHandler_entry inv member
  have last : type ≠ stringP := by
    rcases List.mem_pair.mp final_ with rfl | rfl
    · decide
    · decide
  rw [replyMessage,tokenNumber_decimal small,Option.bind_some,found]
  exact if_neg last

/-- A run with a close, a handler that sends, a reply and a refused command. -/
theorem replies_exactly_once_run : ∃ events final, (replies ⟨2,by decide⟩).exec State.initial events = .ok final ∧
    1 ∈ final.issued ∧ 1 ∉ invokedIds final ∧ final.disconnected 16 = true ∧
    (final.issued.Nodup ∧ pending ⟨2,by decide⟩ final + postedIds final + invokedIds final = (final.issued : Multiset Nat) ∧
      (∀ i, ∀ rh ∈ final.table i, ∀ type ∈ [stringR,stringN],
        replyMessage ⟨2,by decide⟩ final rh.c type (decimal rh.tokenid) =
          { final with table := takeReplyHandler ⟨2,by decide⟩ final.table rh.c rh.tokenid }.invoke rh
            (if type = stringN then ERR_INV_COMMAND else 0)) ∧
      ∀ c, final.disconnected c = true → (∀ call ∈ final.closing, call.c ≠ c) →
        ∀ i, ∀ rh ∈ final.table i, rh.c ≠ c) := by
  let events : List Event := [.open 16 1,.setState 16 .connected true,.open 32 1,.setState 32 .connected true,
    .send 16 (some 100) none 0,.close 16 .disconnected,.send 32 (some 200) none 0,.returned,.send 16 (some 100) none 0,.failed]
  obtain ⟨final,run,issued,free,off⟩ : ∃ final, (replies ⟨2,by decide⟩).exec State.initial events = .ok final ∧
      1 ∈ final.issued ∧ 1 ∉ invokedIds final ∧ final.disconnected 16 = true := by decide +kernel
  have clear : (replies ⟨2,by decide⟩).Meets (NoIntrusion ⟨2,by decide⟩) State.initial events := by decide +kernel
  exact ⟨events,final,run,issued,free,off,replies_exactly_once run clear⟩

/-- The handler of the first entry of a chain sends a command that becomes the first entry. The new entry is dropped. -/
theorem replies_dropped : ∃ final, (replies ⟨2,by decide⟩).exec State.initial
    [.open 16 1,.setState 16 .connected true,.open 112 1,.setState 112 .connected true,.send 16 (some 100) none 0,
      .close 16 .disconnected,.send 112 (some 200) none 0,.returned] = .ok final ∧
    1 ∈ final.issued ∧ 1 ∉ pending ⟨2,by decide⟩ final ∧ 1 ∉ postedIds final ∧ 1 ∉ invokedIds final ∧
    findReplyHandler ⟨2,by decide⟩ final.table 112 2 = none := by decide +kernel

/-- Whatever has happened, a command is sent, or fails, as long as one of the 2^64 tokens is not taken. -/
theorem sends_return {m : MemUsage} {events : List Event} {s : State} (run : (replies m).exec State.initial events = .ok s)
    (clear : (replies m).Meets (NoIntrusion m) State.initial events) {c : Address} {token : Nat} (small : token < 2^64)
    (free : findReplyHandler m s.table c token = none) (handler progress : Option Address) (clientData : Address) :
    ∃ next, sendCommand m s c handler progress clientData = .ok next := by
  have inv : Inv m s := (replies m).exec_invariant (Inv m) (fun _ _ _ => step_inv) (initial_inv m) run clear
  unfold sendCommand
  dsimp only
  split
  · exact ⟨_,rfl⟩
  · have bound := inv.tokenid (s.channels c).protocol
    have near : (token + 2^64 - s.tokenid (s.channels c).protocol) % 2^64 < 2^64 := Nat.mod_lt _ (by decide)
    have there : (s.tokenid (s.channels c).protocol + (token + 2^64 - s.tokenid (s.channels c).protocol) % 2^64) % 2^64 =
        token := by omega
    obtain ⟨⟨found,next⟩,run⟩ := freeToken_finds bound near (by rw [there]; exact free)
    exact ⟨_,by rw [run]; rfl⟩

/-- After a command, token 5 is free. -/
theorem sends_return_again : ∃ s, (replies ⟨2,by decide⟩).exec State.initial
    [.open 16 1,.setState 16 .connected true,.send 16 (some 100) none 0] = .ok s ∧
    ∃ next, sendCommand ⟨2,by decide⟩ s 16 none none 0 = .ok next := by
  obtain ⟨s,run,free⟩ : ∃ s, (replies ⟨2,by decide⟩).exec State.initial
      [.open 16 1,.setState 16 .connected true,.send 16 (some 100) none 0] = .ok s ∧
      findReplyHandler ⟨2,by decide⟩ s.table 16 5 = none := by decide +kernel
  exact ⟨s,run,sends_return run (by decide +kernel) (by decide) free _ _ _⟩

end Tcf.Protocol.Replies
