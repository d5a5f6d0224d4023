import Tcf.DiscoveryInfoExact
import Tcf.DiscoverySlavesExact
import Mathlib.Data.List.TakeWhile

/-! What the packets of an agent with a peer or with slaves are for the agents that get them. -/
namespace Tcf.Discovery

/-- The table of slaves as `add_slave` makes it: no address is there twice. -/
structure SlaveTable where
  slaves : List SlaveInfo
  distinct : (slaves.map SlaveInfo.addr).Nodup

section Slaves

variable (lib : Libc) (serverPort : UInt16) (ifcs : List Ifc) (addr : SockAddr) (now : Int)

/-- A slave other than the addressee, in the subnet of an interface that the addressee gets packets from. -/
def Reached (s : SlaveInfo) : Prop :=
  s.addr ≠ addr ∧ ∃ ifc ∈ ifcs, sends serverPort ifc addr = true ∧ (ifc.addr = loopback ∨ ifc.sameNet s.addr.addr = true)

/-- The table that the packets give is that of the slaves that are alive and reached, whatever the buffer had. -/
def SlavesExact (slaves : List SlaveInfo) : Prop :=
  ∀ behind, ∃ table, receiveAll lib now behind (udpSendAckSlavesAll lib serverPort slaves addr now ifcs) [] = .ok table ∧
    (table.map SlaveInfo.addr).Nodup ∧ ∀ a t, (∃ x ∈ table, x.addr = a ∧ x.lastPacketTime = t) ↔
      ∃ s ∈ slaves, Alive now s ∧ Reached serverPort ifcs addr s ∧ s.addr = a ∧ s.lastPacketTime = t

/-- No slave is at the port of masters or more than ten minutes ahead, and the milliseconds since a dead one went do not wrap
to a time to live. -/
def SlavesFit (slaves : List SlaveInfo) : Prop :=
  ∀ s ∈ slaves, Reached serverPort ifcs addr s →
    (Alive now s → s.addr.port ≠ discoveryTcfPort ∧ s.lastPacketTime ≤ now + 60 * 10) ∧
    (¬Alive now s → s.addr.port = discoveryTcfPort ∨ Int.bmod ((s.lastPacketTime + retentionPeriod - now) * 1000) (2 ^ 32) ≤ 0)

theorem told_mem (slaves : List SlaveInfo) (s : SlaveInfo) :
    s ∈ told serverPort ifcs slaves addr now ↔ s ∈ slaves ∧ 0 < ttl now s ∧ Reached serverPort ifcs addr s := by
  unfold told
  rw [List.mem_flatMap]
  constructor
  · rintro ⟨ifc,goes,member⟩
    obtain ⟨inside,goes⟩ := List.mem_filter.mp goes
    obtain ⟨member,tells⟩ := List.mem_filter.mp member
    simp only [tellsOf,Bool.and_eq_true,Bool.or_eq_true,decide_eq_true_eq] at tells
    exact ⟨member,tells.1.1,tells.1.2,ifc,inside,goes,tells.2⟩
  · rintro ⟨member,lives,other,ifc,inside,goes,near⟩
    refine ⟨ifc,List.mem_filter.mpr ⟨inside,goes⟩,List.mem_filter.mpr ⟨member,?_⟩⟩
    simp only [tellsOf,Bool.and_eq_true,Bool.or_eq_true,decide_eq_true_eq]
    exact ⟨⟨lives,other⟩,near⟩

/-- The table of a receiver: the slaves it was told of, but for those with the port of masters. -/
theorem receiveAll_told (table : SlaveTable) (behind : List UInt8) : ∃ after,
    receiveAll lib now behind (udpSendAckSlavesAll lib serverPort table.slaves addr now ifcs) [] = .ok after ∧
    (after.map SlaveInfo.addr).Nodup ∧ ∀ x, x ∈ after ↔ ∃ s ∈ table.slaves, 0 < ttl now s ∧ Reached serverPort ifcs addr s ∧
      s.addr.port ≠ discoveryTcfPort ∧ x = ⟨s.addr,heardAt now s,0⟩ := by
  obtain ⟨groups,packets,texts⟩ := udpSendAckSlavesAll_groups lib serverPort table.slaves addr now ifcs
  have plain : ∀ text ∈ groups.flatten, ∀ c ∈ text, c ≠ 0 := by
    intro text member
    rw [texts] at member
    obtain ⟨s,-,rfl⟩ := List.mem_map.mp member
    exact slaveText_plain lib now s
  have fold : ∀ items start : List SlaveInfo, (items.map (slaveText lib now)).foldl (fun slaves text => addAcked lib.toLibrary now text slaves) start =
      (items.filter (·.addr.port ≠ discoveryTcfPort)).foldl (fun table s => addSlave table s.addr (heardAt now s)) start := by
    intro items start
    rw [List.foldl_map,List.foldl_filter]
    simp only [addAcked_text,decide_eq_true_eq]
  have member : ∀ s, s ∈ (told serverPort ifcs table.slaves addr now).filter (·.addr.port ≠ discoveryTcfPort) ↔
      s ∈ table.slaves ∧ 0 < ttl now s ∧ Reached serverPort ifcs addr s ∧ s.addr.port ≠ discoveryTcfPort := by
    intro s
    rw [List.mem_filter,told_mem,decide_eq_true_eq,and_assoc,and_assoc]
  have one : ∀ a ∈ [] ++ (told serverPort ifcs table.slaves addr now).filter (·.addr.port ≠ discoveryTcfPort),
      ∀ b ∈ [] ++ (told serverPort ifcs table.slaves addr now).filter (·.addr.port ≠ discoveryTcfPort), a.addr = b.addr → a = b := by
    intro a first b second same
    rw [List.nil_append] at first second
    exact List.inj_on_of_nodup_map table.distinct ((member a).mp first).1 ((member b).mp second).1 same
  have empty : (([] : List SlaveInfo).map SlaveInfo.addr).Nodup := List.nodup_nil
  obtain ⟨distinct,entries⟩ := addSlaves_entries (heardAt now) one empty (by simp)
  refine ⟨_,?_,distinct,fun x => ?_⟩
  · rw [packets,receiveAll_groups lib plain,texts,fold]
  · rw [entries x,List.nil_append]
    constructor
    · rintro ⟨s,inside,eq⟩
      obtain ⟨listed,lives,reached,port⟩ := (member s).mp inside
      exact ⟨s,listed,lives,reached,port,eq⟩
    · rintro ⟨s,listed,lives,reached,port,eq⟩
      exact ⟨s,(member s).mpr ⟨listed,lives,reached,port⟩,eq⟩

theorem slavesExact_iff (table : SlaveTable) :
    SlavesExact lib serverPort ifcs addr now table.slaves ↔ SlavesFit serverPort ifcs addr now table.slaves := by
  constructor
  · intro exact_ s listed reached
    obtain ⟨after,received,-,entries⟩ := exact_ []
    obtain ⟨after',received',-,members⟩ := receiveAll_told lib serverPort ifcs addr now table []
    obtain rfl : after = after' := Except.ok.inj (received.symm.trans received')
    constructor
    · intro alive
      obtain ⟨x,member,own,time⟩ := (entries s.addr s.lastPacketTime).mpr ⟨s,listed,alive,reached,rfl,rfl⟩
      obtain ⟨r,listed',-,-,port,rfl⟩ := (members x).mp member
      obtain rfl : r = s := List.inj_on_of_nodup_map table.distinct listed' listed own
      have bound := heardAt_le now r
      exact ⟨port,time ▸ bound⟩
    · intro dead
      by_contra wraps
      obtain ⟨port,positive⟩ := not_or.mp wraps
      have lives : 0 < ttl now s := by
        rw [ttl_eq]
        exact Int.not_le.mp positive
      have member := (members ⟨s.addr,heardAt now s,0⟩).mpr ⟨s,listed,lives,reached,port,rfl⟩
      obtain ⟨r,listed',alive,-,own,-⟩ := (entries s.addr (heardAt now s)).mp ⟨_,member,rfl,rfl⟩
      obtain rfl : r = s := List.inj_on_of_nodup_map table.distinct listed' listed own
      exact dead alive
  · intro fits behind
    obtain ⟨after,received,distinct,members⟩ := receiveAll_told lib serverPort ifcs addr now table behind
    refine ⟨after,received,distinct,fun a t => ⟨?_,?_⟩⟩
    · rintro ⟨x,member,rfl,rfl⟩
      obtain ⟨s,listed,lives,reached,port,rfl⟩ := (members x).mp member
      have alive : Alive now s := by
        by_contra dead
        have wraps := ((fits s listed reached).2 dead).resolve_left port
        rw [← ttl_eq] at wraps
        exact absurd lives (Int.not_lt.mpr wraps)
      have near := ((fits s listed reached).1 alive).2
      exact ⟨s,listed,alive,reached,rfl,(heardAt_alive alive near).2.symm⟩
    · rintro ⟨s,listed,alive,reached,rfl,rfl⟩
      obtain ⟨port,near⟩ := (fits s listed reached).1 alive
      obtain ⟨lives,time⟩ := heardAt_alive alive near
      exact ⟨⟨s.addr,heardAt now s,0⟩,(members _).mpr ⟨s,listed,lives,reached,port,rfl⟩,rfl,time⟩

end Slaves

section Claims

/-- Packets with a peer and with slaves, both. -/
theorem packets_exact_iff (lib : Libc) (d : Described) (serverPort : UInt16) (ifcs : List Ifc) (addr : SockAddr) (now : Int)
    (table : SlaveTable) : InfoExact lib.toLibrary d.ps ∧ SlavesExact lib serverPort ifcs addr now table.slaves ↔
      InfoFits lib.toLibrary d.ps ∧ SlavesFit serverPort ifcs addr now table.slaves :=
  and_congr (infoExact_iff lib.toLibrary d) (slavesExact_iff lib serverPort ifcs addr now table)

/-! Addresses as four decimals. -/

def dot : UInt8 := 0x2e

/-- A decimal of a byte, as `inet_pton` takes it: without other characters or zeros in front. -/
def octet (text : Text) : Option Nat :=
  let n := text.foldl Json.addDigit 0
  if n < 256 ∧ Json.decimal n = text then some n else none

def octets (addr : UInt32) : List Nat :=
  [addr.toNat % 256,addr.toNat / 256 % 256,addr.toNat / 65536 % 256,addr.toNat / 16777216]

def quad (addr : UInt32) : Text := [dot].intercalate ((octets addr).map Json.decimal)

def ofQuad (text : Text) : Option UInt32 := do
  match ← (text.splitOn dot).mapM octet with
  | [a,b,c,d] => some (UInt32.ofNat (a + 256 * b + 65536 * c + 16777216 * d))
  | _ => none

theorem octets_lt (addr : UInt32) : ∀ n ∈ octets addr, n < 256 := by
  have limit := addr.toNat_lt
  intro n member
  simp only [octets,List.mem_cons,List.not_mem_nil,or_false] at member
  rcases member with rfl | rfl | rfl | rfl <;> omega

theorem octet_decimal {n : Nat} (small : n < 256) : octet (Json.decimal n) = some n := by
  have value : (Json.decimal n).foldl Json.addDigit 0 = n := Json.decimal_value (Nat.lt_trans small (by decide))
  unfold octet
  rw [value]
  exact if_pos ⟨small,rfl⟩

theorem ofQuad_quad (addr : UInt32) : ofQuad (quad addr) = some addr := by
  have split : (quad addr).splitOn dot = (octets addr).map Json.decimal := by
    apply List.splitOn_intercalate
    · intro text member inside
      obtain ⟨n,-,rfl⟩ := List.mem_map.mp member
      exact absurd ((Json.decimal_digits n).1 dot inside).1 (by decide)
    · exact List.cons_ne_nil _ _
  have numbers : ((octets addr).map Json.decimal).mapM octet = some (octets addr) := by
    have bounds := octets_lt addr
    generalize octets addr = list at bounds ⊢
    induction list with
    | nil => rfl
    | cons n rest ih =>
      obtain ⟨own,others⟩ := List.forall_mem_cons.mp bounds
      rw [List.map_cons,List.mapM_cons,octet_decimal own,ih others]
      rfl
  unfold ofQuad
  rw [split,numbers]
  change some (UInt32.ofNat _) = some addr
  congr 1
  apply UInt32.toNat_inj.mp
  have limit := addr.toNat_lt
  rw [UInt32.toNat_ofNat']
  omega

theorem quad_eq (addr : UInt32) : ∃ a b c d, octets addr = [a,b,c,d] ∧
    quad addr = Json.decimal a ++ dot :: (Json.decimal b ++ dot :: (Json.decimal c ++ dot :: Json.decimal d)) :=
  ⟨_,_,_,_,rfl,by simp [quad,octets,List.intercalate]⟩

theorem quad_chars (addr : UInt32) : ∀ c ∈ quad addr, c = dot ∨ Json.Digit c := by
  obtain ⟨n,m,k,l,-,eq⟩ := quad_eq addr
  rw [eq]
  intro c member
  simp only [List.mem_append,List.mem_cons] at member
  have digits := fun n => (Json.decimal_digits n).1 c
  rcases member with first | rfl | second | rfl | third | rfl | last
  · exact Or.inr (digits n first)
  · exact Or.inl rfl
  · exact Or.inr (digits m second)
  · exact Or.inl rfl
  · exact Or.inr (digits k third)
  · exact Or.inl rfl
  · exact Or.inr (digits l last)

theorem quad_length (addr : UInt32) : (quad addr).length ≤ 15 := by
  obtain ⟨a,b,c,d,list,eq⟩ := quad_eq addr
  have short : ∀ n ∈ octets addr, (Json.decimal n).length ≤ 3 := fun n member =>
    decimal_length (by decide) (Nat.lt_trans (octets_lt addr n member) (by decide))
  rw [list] at short
  simp only [List.forall_mem_cons] at short
  simp only [eq,List.length_append,List.length_cons]
  omega

theorem takeWhile_decimal (n : Nat) : (Json.decimal n).takeWhile (fun c => 0x30 ≤ c && c ≤ 0x39) = Json.decimal n := by
  apply List.takeWhile_eq_self_iff.mpr
  intro c member
  have digit := (Json.decimal_digits n).1 c member
  simp only [Bool.and_eq_true,decide_eq_true_eq]
  exact ⟨UInt8.le_iff_toNat_le.mpr digit.1,UInt8.le_iff_toNat_le.mpr digit.2⟩

/-- The C library, where numbers have no sign and no blanks in front. -/
def numerals : Libc where
  inetPton := ofQuad
  atoi := fun text => ((text.takeWhile fun c => 0x30 ≤ c && c ≤ 0x39).foldl Json.addDigit 0 : Nat)
  inetNtoa := quad
  plain := by
    intro addr c member
    rcases quad_chars addr c member with rfl | digit
    · decide
    · constructor
      · rintro rfl
        exact absurd digit.1 (by decide)
      · rintro rfl
        exact absurd digit.2 (by decide)
  short := quad_length
  inetPton_ntoa := ofQuad_quad
  atoi_decimal := by
    intro n small
    have value : (Json.decimal n).foldl Json.addDigit 0 = n := Json.decimal_value (Nat.lt_trans small (by decide))
    rw [takeWhile_decimal,value]

/-! A peer with an attribute of which the packet has the first part only, up to its end, and a slave with a clock that is ahead. -/

def note : Text := List.replicate 8883 0x61

def bigPeer : PeerServer where
  id := bytes "TCP:127.0.0.1:1534"
  flags := psFlagDiscoverable
  list := [(bytes "TransportName",bytes "TCP"),(bytes "Host",quad loopback),(bytes "Note",note),(bytes "Port",bytes "1534")]
  creationTime := 0
  expirationTime := 0

def big : Described where
  ps := bigPeer
  distinct := by decide
  notId := by decide
  idPlain := fun c member => (plain_literal (by decide) c member).1
  namePlain := by
    intro a member
    simp only [bigPeer,List.mem_cons,List.not_mem_nil,or_false] at member
    rcases member with rfl | rfl | rfl | rfl <;> exact plain_literal (by decide)
  valuePlain := by
    intro a member c inside
    simp only [bigPeer,List.mem_cons,List.not_mem_nil,or_false] at member
    rcases member with rfl | rfl | rfl | rfl
    · exact (plain_literal (by decide) c inside).1
    · exact (numerals.plain loopback c inside).1
    · rw [List.eq_of_mem_replicate inside]
      decide
    · exact (plain_literal (by decide) c inside).1

theorem quad_loopback : quad loopback = bytes "127.0.0.1" := by
  have four : octets loopback = [127,0,0,1] := by decide
  unfold quad
  rw [four]
  simp [Json.decimal]
  decide

theorem big_full : (infoText bigPeer.id (bigPeer.list.take 3)).length = maxPacketSize := by
  have count : note.length = 8883 := List.length_replicate
  have front : infoText bigPeer.id (bigPeer.list.take 3) =
      infoText bigPeer.id (bigPeer.list.take 2) ++ (bytes "Note" ++ equals :: (note ++ [0])) := by
    simp [infoText,infoAttrs,attrsText,attrText,bigPeer]
  have two : (infoText bigPeer.id (bigPeer.list.take 2)).length = 63 := by
    unfold bigPeer
    rw [quad_loopback]
    decide
  rw [front,List.length_append,two,List.length_append,List.length_cons,List.length_append,count]
  decide

def ahead : SlaveTable := ⟨[⟨slaveAddr,1660,0⟩],by decide⟩

/-- The packet of the peer ends behind its note, and the slave is half a minute old for a receiver. -/
theorem packet_ends_early : ¬InfoExact numerals.toLibrary big.ps ∧
    ¬SlavesExact numerals discoveryTcfPort network ⟨0x0700000a,1535⟩ 1000 ahead.slaves := by
  constructor
  · intro exact_
    rcases (infoExact_iff numerals.toLibrary big).mp exact_ with hidden | fits
    · exact absurd hidden (by decide)
    · apply fits 3 (by decide) big_full
      refine ⟨by decide,?_⟩
      have host : getProp (bigPeer.list.take 3) (bytes "Host") = some (quad loopback) := rfl
      change ((getProp (bigPeer.list.take 3) (bytes "Host")).bind ofQuad).isSome = true
      rw [host,Option.bind_some,ofQuad_quad]
      rfl
  · intro exact_
    have fits := (slavesExact_iff numerals discoveryTcfPort network ⟨0x0700000a,1535⟩ 1000 ahead).mp exact_
    have reached : Reached discoveryTcfPort network ⟨0x0700000a,1535⟩ ⟨slaveAddr,1660,0⟩ :=
      ⟨by decide,_,List.mem_singleton.mpr rfl,by decide,by decide⟩
    exact absurd ((fits _ (List.mem_singleton.mpr rfl) reached).1 (by unfold Alive; decide)).2 (by decide)

end Claims

end Tcf.Discovery
