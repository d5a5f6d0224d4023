import Tcf.Discovery

/-! The tables of discovery are safe against packets that end their strings and do not name local peers. -/
namespace Tcf.Discovery

open Announcements

variable {lib : Library} {s : State}

/-- What a listener is told of a peer. -/
def shown (p : PeerServer) : Text × UInt32 × List (Text × Text) := (p.id,p.flags,p.list)

/-- One entry for each ID and for each address, and the peers are what listeners were told. -/
structure Tables (s : State) : Prop where
  distinct : (s.peers.map PeerServer.id).Nodup
  replayed : ∀ id, replay PeerServer.id shown s.notified id = (lookup PeerServer.id s.peers id).map shown
  slaves : (s.slaves.map SlaveInfo.addr).Nodup

def State.withBuf (s : State) (buf : List UInt8) : State := { s with recvBuf := buf }

section Peers

theorem Tables.find {p : PeerServer} (tables : Tables s) (member : p ∈ s.peers) : s.peers.find? (·.id = p.id) = some p :=
  lookup_mem tables.distinct member

theorem peerServerRemove_tables (tables : Tables s) (id : Text) : Tables (peerServerRemove s id) := by
  unfold peerServerRemove
  split
  next p found =>
    obtain ⟨-,own⟩ := lookup_some found
    refine ⟨tables.distinct.sublist (List.eraseP_sublist.map _),fun k => ?_,tables.slaves⟩
    simp only [State.notify,replay_snoc,Note.apply,lookup_eraseP tables.distinct,own]
    by_cases asked : k = id
    · simp [asked]
    · simp [asked,tables.replayed k]
  next => exact tables

theorem clearStalePeers_tables (tables : Tables s) (now : Int) : Tables (clearStalePeers s now) := by
  refine ⟨tables.distinct.sublist (List.filter_sublist.map _),fun k => ?_,tables.slaves⟩
  simp only [clearStalePeers,replay_append,foldl_removed,lookup_filter tables.distinct,tables.replayed k]
  cases found : lookup PeerServer.id s.peers k with
  | none =>
    have absent := lookup_none.mp found
    have gone : k ∉ (s.peers.filter fun p => !(now < p.expirationTime)).map PeerServer.id := fun member =>
      absent ((List.filter_sublist.map _).mem member)
    simp
  | some p =>
    obtain ⟨member,own⟩ := lookup_some found
    by_cases stays : now < p.expirationTime
    · have other : k ∉ (s.peers.filter fun p => !(now < p.expirationTime)).map PeerServer.id := fun member' => by
        obtain ⟨q,inside,same⟩ := List.mem_map.mp member'
        obtain ⟨listed,stale⟩ := List.mem_filter.mp inside
        have first := lookup_mem tables.distinct listed
        rw [same,found] at first
        obtain rfl := Option.some.inj first
        simp [stays] at stale
      rw [if_neg other]
      simp [Option.filter,stays]
    · have gone : k ∈ (s.peers.filter fun p => !(now < p.expirationTime)).map PeerServer.id :=
        List.mem_map.mpr ⟨p,List.mem_filter.mpr ⟨member,by simpa using stays⟩,own⟩
      rw [if_pos gone]
      simp [Option.filter,stays]

/-- A peer that is listed already with the same attributes has the same flags, unless it is local. -/
def Kept (s : State) (n : PeerServer) : Prop := ∀ p ∈ s.peers, p.id = n.id → p.isLocal = false → isSame p n → p.flags = n.flags

theorem refreshed_shown {n p : PeerServer} {now delta : Int} (flags : p.isLocal = false → p.flags = n.flags) :
    shown (refreshed n now delta p) = shown p := by
  cases own : p.isLocal with
  | true => simp [shown,refreshed,own]
  | false => simp [shown,refreshed,own,flags own]

theorem peerServerAdd_tables (tables : Tables s) {n : PeerServer} (kept : Kept s n) (now delta : Int) :
    Tables (peerServerAdd s n now delta) := by
  unfold peerServerAdd
  dsimp only
  split
  next p found =>
    obtain ⟨member,own⟩ := lookup_some found
    split
    next stays =>
      have flags : p.isLocal = false → p.flags = n.flags := fun remote => by
        rcases stays with ⟨local_,_⟩ | same
        · simp [remote] at local_
        · exact kept p member own remote same
      refine ⟨?_,fun k => ?_,tables.slaves⟩
      · simp only [State.notify]
        rw [modifyFirst_keys fun _ => by rfl]
        exact tables.distinct
      · have found' : lookup PeerServer.id s.peers n.id = some p := found
        have told : shown (refreshed n now delta p) = shown p := refreshed_shown flags
        simp only [State.notify,replay_snoc,Note.apply]
        rw [lookup_modifyFirst (fun _ => by rfl),tables.replayed k]
        split
        next asked =>
          rw [asked,found']
          exact congrArg some told.symm
        next => rfl
    next =>
      refine ⟨?_,fun k => ?_,tables.slaves⟩
      · refine List.nodup_cons.mpr ⟨?_,tables.distinct.sublist (List.eraseP_sublist.map _)⟩
        exact lookup_none.mp (by rw [lookup_eraseP tables.distinct,if_pos rfl])
      · simp only [State.notify,replay_snoc,Note.apply,lookup_cons,lookup_eraseP tables.distinct]
        by_cases asked : k = n.id
        · simp [asked]
        · simp [asked,tables.replayed k]
  next absent =>
    refine ⟨List.nodup_cons.mpr ⟨lookup_none.mp absent,tables.distinct⟩,fun k => ?_,tables.slaves⟩
    simp only [State.notify,replay_snoc,Note.apply,lookup_cons]
    by_cases asked : k = n.id
    · simp [asked]
    · simp [asked,tables.replayed k]

/-! What happens to an entry of a local peer. -/

theorem peerServerRemove_keeps {p q : PeerServer} {id : Text} (tables : Tables s) (member : p ∈ s.peers) (local_ : p.isLocal = true)
    (found : peerServerFind s id = some q) (remote : q.isLocal = false) : p ∈ (peerServerRemove s id).peers := by
  have other : p.id ≠ id := fun own => by
    have here := tables.find member
    rw [own] at here
    obtain rfl : q = p := Option.some.inj (found.symm.trans here)
    simp [remote] at local_
  unfold peerServerRemove
  split
  · exact (List.mem_eraseP_of_neg (by simpa using other)).mpr member
  · exact member

theorem peerServerAdd_keeps {p n : PeerServer} (member : p ∈ s.peers) (other : p.id ≠ n.id) (now delta : Int) :
    p ∈ (peerServerAdd s n now delta).peers := by
  unfold peerServerAdd
  dsimp only
  split
  · split
    · exact mem_modifyFirst member (by simpa using other)
    · exact List.mem_cons_of_mem _ ((List.mem_eraseP_of_neg (by simpa using other)).mpr member)
  · exact List.mem_cons_of_mem _ member

end Peers

section Slaves

variable {slaves : List SlaveInfo}

theorem addSlave_distinct (distinct : (slaves.map SlaveInfo.addr).Nodup) (addr : SockAddr) (timestamp : Int) :
    ((addSlave slaves addr timestamp).map SlaveInfo.addr).Nodup := by
  unfold addSlave
  split
  next =>
    have same : ∀ x : SlaveInfo, (if x.lastPacketTime < timestamp then { x with lastPacketTime := timestamp } else x).addr = x.addr :=
      fun x => by split <;> rfl
    rwa [modifyFirst_keys same]
  next absent =>
    rw [List.map_append,List.nodup_append]
    refine ⟨distinct,by simp,fun a member b last => ?_⟩
    rintro rfl
    obtain ⟨x,inside,own⟩ := List.mem_map.mp member
    have addr_ : x.addr = addr := own.trans (by simpa using last)
    exact absent (List.any_eq_true.mpr ⟨x,inside,by simpa using addr_⟩)

theorem addSlaves_distinct (distinct : (slaves.map SlaveInfo.addr).Nodup) (ifcs : List Ifc) (port : UInt16)
    (now : Int) : ((ifcs.foldl (fun slaves ifc => addSlave slaves ⟨ifc.addr,port⟩ now) slaves).map SlaveInfo.addr).Nodup := by
  induction ifcs generalizing slaves with
  | nil => exact distinct
  | cons ifc rest ih => exact ih (addSlave_distinct distinct ⟨ifc.addr,port⟩ now)

theorem udpRefreshTimer_tables (tables : Tables s) (now : Int) (port : UInt16) (ifcs : List Ifc) :
    Tables (udpRefreshTimer s now port ifcs) := by
  unfold udpRefreshTimer
  split
  · exact tables
  · refine ⟨tables.distinct,tables.replayed,?_⟩
    have fewer := tables.slaves.sublist ((List.filter_sublist (p := fun x => decide (now ≤ x.lastPacketTime + retentionPeriod))).map _)
    dsimp only
    generalize (if s.serverPort ≠ discoveryTcfPort ∧ s.lastMasterPacketTime + retentionPeriod / 2 ≤ now then port else s.serverPort) = own
    split
    · exact addSlaves_distinct fewer ifcs own now
    · exact fewer

theorem addAcked_distinct (distinct : (slaves.map SlaveInfo.addr).Nodup) (now : Int) (text : Text) :
    ((addAcked lib now text slaves).map SlaveInfo.addr).Nodup := by
  unfold addAcked
  split
  · exact addSlave_distinct distinct _ _
  · exact distinct

/-- A string ends in its packet. -/
theorem split_nul {body : List UInt8} (inside : 0 ∈ body) :
    ∃ text rest, body = text ++ 0 :: rest ∧ ∀ more, (body ++ more).takeWhile (· ≠ 0) = text := by
  induction body with
  | nil => simp at inside
  | cons c body ih =>
    by_cases nul : c = 0
    · exact ⟨[],body,by simp [nul],fun more => by simp [nul]⟩
    · have later : 0 ∈ body := (List.mem_cons.mp inside).resolve_left (Ne.symm nul)
      obtain ⟨text,rest,eq,taken⟩ := ih later
      refine ⟨c :: text,rest,by rw [eq]; rfl,fun more => ?_⟩
      rw [List.cons_append,List.takeWhile_cons_of_pos (by simpa using nul),taken more]

/-- The strings of a packet, all of which end in it, are all that is read. -/
theorem receiveAckSlaves_body {fuel : Nat} {body : List UInt8} (now : Int)
    (ends : body = [] ∨ body.getLast? = some 0) (enough : body.length ≤ fuel) (distinct : (slaves.map SlaveInfo.addr).Nodup) :
    ∃ after : List SlaveInfo, (after.map SlaveInfo.addr).Nodup ∧ ∀ behind, ∃ memory,
      receiveAckSlaves lib now fuel (body ++ behind) body.length slaves = .ok (after,memory) := by
  induction fuel generalizing body slaves with
  | zero =>
    obtain rfl : body = [] := List.length_eq_zero_iff.mp (Nat.le_zero.mp enough)
    exact ⟨slaves,distinct,fun behind => ⟨behind,rfl⟩⟩
  | succ fuel ih =>
    rcases ends with rfl | last
    · exact ⟨slaves,distinct,fun behind => ⟨behind,rfl⟩⟩
    · obtain ⟨text,rest,eq,taken⟩ := split_nul (List.mem_of_getLast? last)
      have ends' : rest = [] ∨ rest.getLast? = some 0 := by
        cases rest with
        | nil => exact .inl rfl
        | cons c more =>
          right
          rwa [eq,List.getLast?_append_of_ne_nil _ (List.cons_ne_nil 0 _),List.getLast?_cons_cons] at last
      have enough' : rest.length ≤ fuel := by
        rw [eq,List.length_append,List.length_cons] at enough
        omega
      obtain ⟨after,distinct'',reads⟩ := ih ends' enough' (addAcked_distinct distinct now text)
      refine ⟨after,distinct'',fun behind => ?_⟩
      obtain ⟨memory,read⟩ := reads behind
      have count : body.length = text.length + rest.length + 1 := by
        rw [eq,List.length_append,List.length_cons]
        omega
      have dropped : (body ++ behind).drop text.length = 0 :: (rest ++ behind) := by
        rw [eq,List.append_assoc,List.drop_left]
        rfl
      refine ⟨cutColons 2 text ++ 0 :: memory,?_⟩
      rw [count,receiveAckSlaves]
      simp only [taken behind,dropped]
      rw [Nat.add_sub_cancel_left,read]
      rfl

end Slaves

section Packets

theorem Tables.withBuf (tables : Tables s) (buf : List UInt8) : Tables (s.withBuf buf) :=
  ⟨tables.distinct,tables.replayed,tables.slaves⟩

theorem removeRemote_tables (tables : Tables s) (id : Text) : Tables (removeRemote s id) := by
  unfold removeRemote
  split
  · split
    · exact tables
    · exact peerServerRemove_tables tables id
  · exact tables

theorem removeRemote_keeps {p : PeerServer} (tables : Tables s) (id : Text) (member : p ∈ s.peers) (local_ : p.isLocal = true) :
    p ∈ (removeRemote s id).peers := by
  unfold removeRemote
  split
  next q found =>
    split
    next => exact member
    next remote => exact peerServerRemove_keeps tables member local_ found (Bool.eq_false_iff.mpr remote)
  next => exact member

theorem removeRemote_withBuf (s : State) (buf : List UInt8) (id : Text) :
    removeRemote (s.withBuf buf) id = (removeRemote s id).withBuf buf := by
  have peers : (s.withBuf buf).peers = s.peers := rfl
  unfold removeRemote peerServerRemove peerServerFind
  rw [peers]
  cases s.peers.find? (·.id = id) with
  | none => rfl
  | some p => cases local_ : p.isLocal <;> simp [local_,State.notify,State.withBuf]

theorem receivePeerRemoved_tables (tables : Tables s) (fuel : Nat) (body : List UInt8) : Tables (receivePeerRemoved fuel s body) := by
  induction fuel generalizing s body with
  | zero => exact tables
  | succ fuel ih =>
    unfold receivePeerRemoved
    split
    · exact tables
    · dsimp only
      split
      · exact tables
      · exact ih (removeRemote_tables tables _) _

theorem receivePeerRemoved_keeps {p : PeerServer} (tables : Tables s) (fuel : Nat) (body : List UInt8) (member : p ∈ s.peers)
    (local_ : p.isLocal = true) : p ∈ (receivePeerRemoved fuel s body).peers := by
  induction fuel generalizing s body with
  | zero => exact member
  | succ fuel ih =>
    unfold receivePeerRemoved
    split
    · exact member
    · dsimp only
      split
      · exact member
      · exact ih (removeRemote_tables tables _) _ (removeRemote_keeps tables _ member local_)

theorem receivePeerRemoved_withBuf (fuel : Nat) (s : State) (buf body : List UInt8) :
    receivePeerRemoved fuel (s.withBuf buf) body = (receivePeerRemoved fuel s body).withBuf buf := by
  induction fuel generalizing s body with
  | zero => rfl
  | succ fuel ih =>
    unfold receivePeerRemoved
    split
    · rfl
    · dsimp only
      split
      · rfl
      · rw [removeRemote_withBuf,ih]

theorem peerServerAdd_withBuf (s : State) (buf : List UInt8) (n : PeerServer) (now delta : Int) :
    peerServerAdd (s.withBuf buf) n now delta = (peerServerAdd s n now delta).withBuf buf := by
  have peers : (s.withBuf buf).peers = s.peers := rfl
  unfold peerServerAdd
  dsimp only
  rw [peers]
  cases s.peers.find? (·.id = n.id) with
  | none => rfl
  | some p =>
    dsimp only
    split <;> rfl

/-- The peer that a packet adds, if any. -/
def acked (lib : Library) (s : State) (data : List UInt8) : Option PeerServer :=
  ackedPeer lib s.ifcs (readAttrs data.length (data.drop 8) ⟨none,[]⟩).1

/-- Strings end in their packet; a packet does not name a local peer; and nothing is added again with other flags only. -/
def Orderly (lib : Library) (s : State) : Event → Prop
  | .recv data sender _ => Accepted s data sender →
    (kind data = udpAckSlaves → data.length = 8 ∨ data.getLast? = some 0) ∧
      (kind data = udpAckInfo → ∀ n ∈ acked lib s data, ∀ p ∈ s.peers, p.id = n.id →
        p.isLocal = false ∧ (isSame p n → p.flags = n.flags))
  | .addPeer n _ _ => ∀ p ∈ s.peers, p.id = n.id → p.isLocal = false → isSame p n → p.flags = n.flags
  | _ => True

/-- Tables that come of a packet, whatever is behind it in the buffer. -/
structure Receives (s t : State) (run : List UInt8 → Code State) : Prop where
  tables : Tables t
  keeps : ∀ p ∈ s.peers, p.isLocal = true → p ∈ t.peers
  reads : ∀ buf, ∃ memory, run buf = .ok (t.withBuf memory)

theorem receiveAckInfo_receives {data : List UInt8} (now : Int) (tables : Tables s)
    (names : ∀ n ∈ acked lib s data, ∀ p ∈ s.peers, p.id = n.id → p.isLocal = false ∧ (isSame p n → p.flags = n.flags)) :
    ∃ t, Receives s t fun buf => .ok (receiveAckInfo lib (s.withBuf (data ++ buf)) data now) := by
  cases adds : acked lib s data with
  | none =>
    refine ⟨s,tables,fun p member _ => member,fun buf =>
      ⟨data.take 8 ++ ((readAttrs data.length (data.drop 8) ⟨none,[]⟩).2 ++ (data ++ buf).drop data.length),?_⟩⟩
    have none_ : ackedPeer lib (s.withBuf (data ++ buf)).ifcs (readAttrs data.length (data.drop 8) ⟨none,[]⟩).1 = none := adds
    simp only [receiveAckInfo,none_]
    rfl
  | some n =>
    have kept : Kept s n := fun p member own _ => (names n adds p member own).2
    have other : ∀ p ∈ s.peers, p.isLocal = true → p.id ≠ n.id := fun p member local_ own => by
      simp [(names n adds p member own).1] at local_
    refine ⟨peerServerAdd s n now retentionPeriod,peerServerAdd_tables tables kept now _,
      fun p member local_ => peerServerAdd_keeps member (other p member local_) now _,fun buf =>
      ⟨data.take 8 ++ ((readAttrs data.length (data.drop 8) ⟨none,[]⟩).2 ++ (data ++ buf).drop data.length),?_⟩⟩
    have some_ : ackedPeer lib (s.withBuf (data ++ buf)).ifcs (readAttrs data.length (data.drop 8) ⟨none,[]⟩).1 = some n := adds
    simp only [receiveAckInfo,some_,← peerServerAdd_withBuf]
    rfl

theorem dispatch_receives {data : List UInt8} {sender : SockAddr} {now : Int} (tables : Tables s) (long : 8 ≤ data.length)
    (strings : kind data = udpAckSlaves → data.length = 8 ∨ data.getLast? = some 0)
    (names : kind data = udpAckInfo → ∀ n ∈ acked lib s data, ∀ p ∈ s.peers, p.id = n.id →
      p.isLocal = false ∧ (isSame p n → p.flags = n.flags)) :
    ∃ t, Receives s t fun buf => dispatch lib (s.withBuf (data ++ buf)) data sender now := by
  unfold dispatch
  by_cases info : kind data = udpAckInfo
  · simp only [if_pos info]
    exact receiveAckInfo_receives now tables (names info)
  · simp only [if_neg info]
    by_cases reqSlaves : kind data = udpReqSlaves
    · simp only [if_pos reqSlaves]
      by_cases master : sender.port = discoveryTcfPort
      · simp only [if_pos master]
        exact ⟨s,tables,fun _ member _ => member,fun buf => ⟨data ++ buf,rfl⟩⟩
      · simp only [if_neg master]
        have same : ∀ x : SlaveInfo, { x with lastReqSlavesTime := now }.addr = x.addr := fun _ => rfl
        refine ⟨{ s with slaves := modifyFirst (·.addr = sender) (fun x => { x with lastReqSlavesTime := now }) s.slaves },
          ⟨tables.distinct,tables.replayed,?_⟩,fun _ member _ => member,fun buf => ⟨data ++ buf,rfl⟩⟩
        rw [modifyFirst_keys same]
        exact tables.slaves
    · simp only [if_neg reqSlaves]
      by_cases ackSlaves : kind data = udpAckSlaves
      · simp only [if_pos ackSlaves]
        have ends : data.drop 8 = [] ∨ (data.drop 8).getLast? = some 0 := by
          rcases strings ackSlaves with short | last
          · exact .inl (List.drop_eq_nil_iff.mpr (Nat.le_of_eq short))
          · by_cases none : data.drop 8 = []
            · exact .inl none
            · exact .inr (by rw [← last,List.getLast?_drop,if_neg (by simpa using none)])
        have enough : (data.drop 8).length ≤ data.length := by simp
        obtain ⟨after,distinct,reads⟩ : ∃ after : List SlaveInfo, (after.map SlaveInfo.addr).Nodup ∧ ∀ behind, ∃ memory,
            receiveAckSlaves lib now data.length (data.drop 8 ++ behind) (data.drop 8).length s.slaves = .ok (after,memory) :=
          receiveAckSlaves_body now ends enough tables.slaves
        refine ⟨{ s with slaves := after },⟨tables.distinct,tables.replayed,distinct⟩,fun _ member _ => member,fun buf => ?_⟩
        obtain ⟨memory,read⟩ := reads buf
        have behind : (s.withBuf (data ++ buf)).recvBuf.drop 8 = data.drop 8 ++ buf := List.drop_append_of_le_length long
        rw [List.length_drop] at read
        have own : (s.withBuf (data ++ buf)).slaves = s.slaves := rfl
        refine ⟨(s.withBuf (data ++ buf)).recvBuf.take 8 ++ memory,?_⟩
        rw [behind,own,read]
        rfl
      · simp only [if_neg ackSlaves]
        exact ⟨s,tables,fun _ member _ => member,fun buf => ⟨data ++ buf,rfl⟩⟩

theorem noteSlave_tables (tables : Tables s) (sender : SockAddr) (now : Int) : Tables (noteSlave s sender now) := by
  unfold noteSlave
  split
  · exact ⟨tables.distinct,tables.replayed,addSlave_distinct tables.slaves sender now⟩
  · exact tables

theorem noteSlave_peers (s : State) (sender : SockAddr) (now : Int) : (noteSlave s sender now).peers = s.peers := by
  unfold noteSlave
  split <;> rfl

theorem noteSlave_ifcs (s : State) (sender : SockAddr) (now : Int) : (noteSlave s sender now).ifcs = s.ifcs := by
  unfold noteSlave
  split <;> rfl

theorem noteSlave_withBuf (s : State) (buf : List UInt8) (sender : SockAddr) (now : Int) :
    noteSlave (s.withBuf buf) sender now = (noteSlave s sender now).withBuf buf := by
  unfold noteSlave
  split <;> rfl

theorem heardMaster_tables (tables : Tables s) (sender : SockAddr) (now : Int) : Tables (heardMaster s sender now) := by
  unfold heardMaster
  split
  · exact ⟨tables.distinct,tables.replayed,tables.slaves⟩
  · exact tables

theorem heardMaster_peers (s : State) (sender : SockAddr) (now : Int) : (heardMaster s sender now).peers = s.peers := by
  unfold heardMaster
  split <;> rfl

theorem heardMaster_withBuf (s : State) (buf : List UInt8) (sender : SockAddr) (now : Int) :
    heardMaster (s.withBuf buf) sender now = (heardMaster s sender now).withBuf buf := by
  have same : (sender.port = discoveryTcfPort ∧ (s.withBuf buf).ifcs.any (·.addr = sender.addr)) ↔
      (sender.port = discoveryTcfPort ∧ s.ifcs.any (·.addr = sender.addr)) := Iff.rfl
  unfold heardMaster
  simp only [same]
  split <;> rfl

theorem udpServerRecv_receives {data : List UInt8} {sender : SockAddr} {now : Int} (tables : Tables s)
    (orderly : Orderly lib s (.recv data sender now)) :
    ∃ t, Receives s t fun buf => udpServerRecv lib (s.withBuf buf) data sender now := by
  have starts : ∀ buf, udpServerRecv lib (s.withBuf buf) data sender now =
      received lib (s.withBuf (data ++ buf.drop data.length)) data sender now := fun _ => rfl
  by_cases accepted : Accepted s data sender
  · obtain ⟨strings,names⟩ := orderly accepted
    have long : 8 ≤ data.length := accepted.2.1
    have taken : ∀ buf, ¬¬Accepted (s.withBuf buf) data sender := fun _ => not_not_intro accepted
    by_cases removed : kind data = udpPeersRemoved
    · refine ⟨receivePeerRemoved data.length s (data.drop 8),receivePeerRemoved_tables tables _ _,
        fun p member local_ => receivePeerRemoved_keeps tables _ _ member local_,fun buf => ⟨data ++ buf.drop data.length,?_⟩⟩
      rw [starts,received,if_neg (taken _),if_pos removed,receivePeerRemoved_withBuf]
      rfl
    · have names' : kind data = udpAckInfo → ∀ n ∈ acked lib (noteSlave s sender now) data, ∀ p ∈ (noteSlave s sender now).peers,
          p.id = n.id → p.isLocal = false ∧ (isSame p n → p.flags = n.flags) := by
        rw [noteSlave_peers,acked,noteSlave_ifcs]
        exact names
      obtain ⟨t,tables',keeps,reads⟩ := dispatch_receives (noteSlave_tables tables sender now) long strings names'
      refine ⟨heardMaster t sender now,heardMaster_tables tables' sender now,fun p member local_ => ?_,fun buf => ?_⟩
      · rw [heardMaster_peers]
        exact keeps p (by rwa [noteSlave_peers]) local_
      · obtain ⟨memory,read⟩ := reads (buf.drop data.length)
        refine ⟨memory,?_⟩
        rw [starts,received,if_neg (taken _),if_neg removed,noteSlave_withBuf,read]
        exact congrArg Except.ok (heardMaster_withBuf t memory sender now)
  · refine ⟨s,tables,fun _ member _ => member,fun buf => ⟨data ++ buf.drop data.length,?_⟩⟩
    have refused : ¬Accepted (s.withBuf (data ++ buf.drop data.length)) data sender := accepted
    rw [starts,received,if_pos refused]
    rfl

end Packets

section Runs

/-- A packet leaves local peers as they are, and what it does depends on its own bytes only. -/
def Outcome (lib : Library) (s : State) (e : Event) (t : State) : Prop := match e with
  | .recv _ _ _ => (∀ p ∈ s.peers, p.isLocal = true → p ∈ t.peers) ∧
      ∀ buf, ∃ memory, step lib (s.withBuf buf) e = .ok (t.withBuf memory)
  | _ => True

theorem step_tables {e : Event} (tables : Tables s) (orderly : Orderly lib s e) :
    ∃ t, step lib s e = .ok t ∧ Tables t ∧ Outcome lib s e t := by
  cases e with
  | recv data sender now =>
    obtain ⟨t,tables',keeps,reads⟩ := udpServerRecv_receives tables orderly
    obtain ⟨memory,read⟩ := reads s.recvBuf
    refine ⟨t.withBuf memory,read,tables'.withBuf memory,keeps,fun buf => ?_⟩
    obtain ⟨memory',read'⟩ := reads buf
    exact ⟨memory',read'⟩
  | refresh now port ifcs => exact ⟨_,rfl,udpRefreshTimer_tables tables now port ifcs,trivial⟩
  | clearStale now => exact ⟨_,rfl,clearStalePeers_tables tables now,trivial⟩
  | addPeer n now delta => exact ⟨_,rfl,peerServerAdd_tables tables orderly now delta,trivial⟩
  | removePeer id => exact ⟨_,rfl,peerServerRemove_tables tables id,trivial⟩
  | stop => exact ⟨_,rfl,⟨tables.distinct,tables.replayed,List.nodup_nil⟩,trivial⟩

theorem initial_tables (port : UInt16) (ifcs : List Ifc) : Tables (initial port ifcs) := ⟨List.nodup_nil,fun _ => rfl,List.nodup_nil⟩

/-- Every step of an orderly run. -/
theorem discovery_tables_safe (lib : Library) (port : UInt16) (ifcs : List Ifc) (events : List Event) (e : Event)
    (meets : (process lib).Meets (Orderly lib) (initial port ifcs) (events ++ [e])) :
    (∃ s t, (process lib).exec (initial port ifcs) events = .ok s ∧ (process lib).step s e = .ok t ∧ Tables t ∧ Outcome lib s e t) ∨
      (process lib).exec (initial port ifcs) (events ++ [e]) = .error .stuck := by
  refine (process lib).exec_last Tables (Outcome lib) (fun s e tables _ orderly => ?_) (initial_tables port ifcs) meets
  exact step_tables tables orderly

instance (lib : Library) (s : State) : ∀ e, Decidable (Orderly lib s e)
  | .recv _ _ _ => inferInstanceAs (Decidable (_ → _))
  | .addPeer n _ _ => inferInstanceAs (Decidable (∀ p ∈ s.peers, p.id = n.id → p.isLocal = false → isSame p n → p.flags = n.flags))
  | .refresh _ _ _ | .clearStale _ | .removePeer _ | .stop => isTrue trivial

/-- A few addresses and ports. -/
def fewAddresses : Library where
  inetPton := fun text =>
    if text = bytes "10.0.0.1" then some 0x0100000a else if text = bytes "10.0.0.5" then some 0x0500000a else none
  atoi := fun text => if text = bytes "1535" then 1535 else if text = bytes "1540" then 1540 else 0

def network : List Ifc := [⟨0x0100000a,0x00ffffff⟩]

def slaveAddr : SockAddr := ⟨0x0500000a,1535⟩

def packet (kind : UInt8) (body : List UInt8) : List UInt8 := bytes "TCF2" ++ [kind,0,0,0] ++ body

def infoBody : List UInt8 :=
  bytes "ID=TCP:10.0.0.1:1540" ++ 0 :: (bytes "TransportName=TCP" ++ 0 :: (bytes "Host=10.0.0.1" ++ 0 :: (bytes "Port=1540" ++ [0])))

def ownPeer : PeerServer :=
  ⟨bytes "TCP:10.0.0.1:1540",psFlagLocal ||| psFlagDiscoverable,
    [(bytes "TransportName",bytes "TCP"),(bytes "Host",bytes "10.0.0.1"),(bytes "Port",bytes "1540")],0,0⟩

/-- A peer is learned and gets stale, slaves are learned, and a packet wants to remove a local peer. -/
theorem discovery_tables_safe_example :
    (∃ s t, (process fewAddresses).exec (initial 1534 network)
        [.recv (packet udpAckInfo infoBody) slaveAddr 1000,.recv (packet udpAckSlaves (bytes "60000:1540:10.0.0.1" ++ [0])) slaveAddr 1001,
          .clearStale 1070,.addPeer ownPeer 1071 120,.refresh 1072 1534 network] = .ok s ∧
        (process fewAddresses).step s (.recv (packet udpPeersRemoved (ownPeer.id ++ [0])) slaveAddr 1073) = .ok t ∧ Tables t ∧
        Outcome fewAddresses s (.recv (packet udpPeersRemoved (ownPeer.id ++ [0])) slaveAddr 1073) t) ∨
      (process fewAddresses).exec (initial 1534 network)
        [.recv (packet udpAckInfo infoBody) slaveAddr 1000,.recv (packet udpAckSlaves (bytes "60000:1540:10.0.0.1" ++ [0])) slaveAddr 1001,
          .clearStale 1070,.addPeer ownPeer 1071 120,.refresh 1072 1534 network,
          .recv (packet udpPeersRemoved (ownPeer.id ++ [0])) slaveAddr 1073] = .error .stuck :=
  discovery_tables_safe _ _ _ _ _ (by decide +kernel)

/-- A list of slaves goes on in the bytes of an earlier packet; a packet makes a local peer stale; and a listener does not
learn that a peer is local now. -/
theorem packet_overread :
    (∃ s, (process fewAddresses).exec (initial 1534 network)
        [.recv (packet udpReqInfo (bytes "0:1540:10.0.0.1" ++ [0])) slaveAddr 1000,.recv (packet udpAckSlaves (bytes "0")) slaveAddr 1000] = .ok s ∧
        s.slaves.map SlaveInfo.addr = [slaveAddr,⟨0x0100000a,1540⟩]) ∧
      (∃ s, (process fewAddresses).exec (initial 1534 network)
        [.addPeer ownPeer 1000 120,.recv (packet udpAckInfo infoBody) slaveAddr 1000,.clearStale 1060] = .ok s ∧ s.peers = []) ∧
      ∃ s, (process fewAddresses).exec (initial 1534 network)
        [.recv (packet udpAckInfo infoBody) slaveAddr 1000,.addPeer ownPeer 1001 120] = .ok s ∧
        s.peers.map PeerServer.isLocal = [true] ∧
        (replay PeerServer.id shown s.notified ownPeer.id).map (fun (_,flags,_) => flags &&& psFlagLocal) = some 0 := by
  decide +kernel

end Runs

end Tcf.Discovery
