import Tcf.DiscoveryPackets
import Tcf.DiscoverySafe

/-! The packets with the slaves of an agent give its slaves to a receiver. -/
namespace Tcf.Discovery

open Json (decimal)
open Announcements (modifyFirst modifyFirst_same)

section Texts

variable (lib : Libc) {now : Int} {s : SlaveInfo}

theorem decimal_length {k n : Nat} (some_ : 0 < k) (small : n < 10 ^ k) : (decimal n).length ≤ k := by
  induction k generalizing n with
  | zero => exact absurd some_ (Nat.lt_irrefl 0)
  | succ k ih =>
    unfold decimal
    by_cases more : n ≥ 10
    · rw [if_pos more,List.length_append]
      have rest : 0 < k := by
        by_contra none
        obtain rfl : k = 0 := Nat.eq_zero_of_not_pos none
        exact absurd small (Nat.not_lt.mpr more)
      have shorter : n / 10 < 10 ^ k := by
        rw [Nat.pow_succ] at small
        exact Nat.div_lt_of_lt_mul (Nat.mul_comm .. ▸ small)
      exact Nat.succ_le_succ (ih rest shorter)
    · rw [if_neg more]
      exact Nat.succ_le_succ (Nat.zero_le _)

theorem decimal_plain (n : Nat) : ∀ c ∈ decimal n, c ≠ 0 ∧ c ≠ colon := by
  intro c member
  have digit := (Json.decimal_digits n).1 c member
  constructor
  · rintro rfl
    exact absurd digit.1 (by decide)
  · rintro rfl
    exact absurd digit.2 (by decide)

theorem ttl_lt (now : Int) (s : SlaveInfo) : (ttl now s).toNat < 2 ^ 31 := by
  unfold ttl
  generalize Int.bmod (s.lastPacketTime + retentionPeriod - now) (2 ^ 32) * 1000 = n
  have bound := @Int.bmod_lt n (2 ^ 32) (by decide)
  omega

theorem slaveText_plain (now : Int) (s : SlaveInfo) : ∀ c ∈ slaveText lib now s, c ≠ 0 := by
  intro c member
  unfold slaveText at member
  rcases List.mem_append.mp member with first | member
  · exact (decimal_plain _ c first).1
  rcases List.mem_cons.mp member with rfl | member
  · decide
  rcases List.mem_append.mp member with second | member
  · exact (decimal_plain _ c second).1
  rcases List.mem_cons.mp member with rfl | member
  · decide
  · exact (lib.plain _ c member).1

theorem slaveText_length (now : Int) (s : SlaveInfo) : (slaveText lib now s).length ≤ 32 := by
  have first : (decimal (ttl now s).toNat).length ≤ 10 :=
    decimal_length (by decide) (Nat.lt_trans (ttl_lt now s) (by decide))
  have second : (decimal s.addr.port.toNat).length ≤ 5 :=
    decimal_length (by decide) (Nat.lt_trans s.addr.port.toNat_lt (by decide))
  have third := lib.short s.addr.addr
  unfold slaveText
  rw [List.length_append,List.length_cons,List.length_append,List.length_cons]
  omega

/-- Digits up to a colon are a number of 64 bits. -/
theorem readStamp_digits {digits rest : Text} (all : ∀ c ∈ digits, Json.Digit c) (ts : UInt64) :
    (readStamp ts (digits ++ colon :: rest)).toNat = digits.foldl Json.addDigit ts.toNat := by
  induction digits generalizing ts with
  | nil =>
    change (if _ then _ else ts).toNat = ts.toNat
    rw [if_neg (by decide)]
  | cons c digits ih =>
    obtain ⟨digit,others⟩ := List.forall_mem_cons.mp all
    have low : 0x30 ≤ c ∧ c ≤ 0x39 := ⟨UInt8.le_iff_toNat_le.mpr digit.1,UInt8.le_iff_toNat_le.mpr digit.2⟩
    change (if 0x30 ≤ c ∧ c ≤ 0x39 then readStamp (ts * 10 + (c - 0x30).toUInt64) (digits ++ colon :: rest) else ts).toNat = _
    rw [if_pos low,ih others,List.foldl_cons]
    congr 1
    unfold Json.addDigit
    have value : (c - 0x30).toNat = c.toNat - 0x30 := UInt8.toNat_sub_of_le _ _ low.1
    rw [UInt64.toNat_add,UInt64.toNat_mul,UInt8.toNat_toUInt64,value]
    simp only [UInt64.reduceToNat]
    omega

theorem upToColon_run {run rest : Text} (all : ∀ c ∈ run, c ≠ colon) : upToColon (run ++ colon :: rest) = run := by
  unfold upToColon
  rw [List.takeWhile_append_of_pos fun c member => decide_eq_true (all c member),List.takeWhile_cons_of_neg (by decide),List.append_nil]

theorem behindColon_run {run rest : Text} (all : ∀ c ∈ run, c ≠ colon) : behindColon (run ++ colon :: rest) = rest := by
  unfold behindColon
  rw [List.dropWhile_append_of_pos fun c member => decide_eq_true (all c member),List.dropWhile_cons_of_neg (by decide),List.tail_cons]

/-- The text of a slave is read as its address and time to live, unless it has the port of masters. -/
theorem getSlaveAddr_text (now : Int) (s : SlaveInfo) : getSlaveAddr lib.toLibrary (slaveText lib now s) =
    if s.addr.port = discoveryTcfPort then none else some (s.addr,UInt64.ofNat (ttl now s).toNat) := by
  have first : behindColon (slaveText lib now s) = decimal s.addr.port.toNat ++ colon :: lib.inetNtoa s.addr.addr :=
    behindColon_run fun c member => (decimal_plain _ c member).2
  have second : behindColon (decimal s.addr.port.toNat ++ colon :: lib.inetNtoa s.addr.addr) = lib.inetNtoa s.addr.addr :=
    behindColon_run fun c member => (decimal_plain _ c member).2
  have port : upToColon (decimal s.addr.port.toNat ++ colon :: lib.inetNtoa s.addr.addr) = decimal s.addr.port.toNat :=
    upToColon_run fun c member => (decimal_plain _ c member).2
  have limit := s.addr.port.toNat_lt
  have stamp : readStamp 0 (slaveText lib now s) = UInt64.ofNat (ttl now s).toNat := by
    have small := ttl_lt now s
    apply UInt64.toNat_inj.mp
    rw [slaveText,readStamp_digits (Json.decimal_digits _).1,UInt64.toNat_ofNat_of_lt' (Nat.lt_trans small (by decide))]
    exact Json.decimal_value (Nat.lt_trans small (by decide))
  unfold getSlaveAddr
  dsimp only
  rw [first,second,lib.inetPton_ntoa,port,lib.atoi_decimal _ (Nat.lt_trans limit (by decide)),stamp]
  dsimp only
  by_cases master : s.addr.port = discoveryTcfPort
  · rw [if_pos master,if_pos (by rw [master])]
  · have other : ¬((s.addr.port.toNat : Int) = discoveryTcfPort.toNat) :=
      fun same => master (UInt16.toNat_inj.mp (Int.ofNat.inj same))
    have value : ((s.addr.port.toNat : Int) % 2 ^ 16).toNat = s.addr.port.toNat := by omega
    rw [if_neg master,if_neg other,value,UInt16.ofNat_toNat]

end Texts

section Packets

variable (lib : Libc) {now : Int} {texts : List Text} {slaves : List SlaveInfo}

/-- A packet with some strings. -/
def packetOf (texts : List Text) : List UInt8 := header udpAckSlaves ++ texts.flatMap (· ++ [0])

theorem packetOf_length (texts : List Text) : (packetOf texts).length = 8 + (texts.flatMap (· ++ [0])).length := List.length_append

theorem packetOf_snoc (texts : List Text) (str : Text) : packetOf (texts ++ [str]) = packetOf texts ++ (str ++ [0]) := by
  unfold packetOf
  rw [List.flatMap_append,List.flatMap_singleton,List.append_assoc]

theorem appStrz_packetOf {str : Text} (fits : (packetOf texts).length + str.length < maxPacketSize) :
    appStrz (packetOf texts) str = packetOf (texts ++ [str]) := by
  have whole : appStr (packetOf texts) str = packetOf texts ++ str := by
    unfold appStr
    rw [List.take_of_length_le (by omega)]
  have room : (packetOf texts ++ str).length < maxPacketSize := by
    rw [List.length_append]
    exact fits
  unfold appStrz appChar
  rw [whole,if_pos room,packetOf_snoc,List.append_assoc]

/-- The loop spreads the strings of the slaves over packets, in order. -/
theorem ackSlavesLoop_groups (ifc : Ifc) (addr : SockAddr) (now : Int) (slaves : List SlaveInfo) {before : List Text}
    (room : (packetOf before).length ≤ prefPacketSize) : ∃ (groups : List (List Text)) (last : List Text),
      ackSlavesLoop lib ifc addr now slaves (packetOf before) = (groups.map packetOf,packetOf last) ∧
      groups.flatten ++ last = before ++ (slaves.filter (tellsOf ifc addr now)).map (slaveText lib now) := by
  induction slaves generalizing before with
  | nil => exact ⟨[],before,rfl,(List.append_nil before).symm⟩
  | cons s rest ih =>
    have short := slaveText_length lib now s
    have limits : prefPacketSize = 1452 ∧ maxPacketSize = 8952 := ⟨rfl,rfl⟩
    unfold ackSlavesLoop
    by_cases tells : tellsOf ifc addr now s
    · rw [if_pos tells,List.filter_cons_of_pos tells,List.map_cons]
      dsimp only
      by_cases full : (packetOf before).length + (slaveText lib now s).length ≥ prefPacketSize
      · have empty : (packetOf []).length = 8 := rfl
        have first : appStrz (header udpAckSlaves) (slaveText lib now s) = packetOf [slaveText lib now s] :=
          by
          have fits : (packetOf []).length + (slaveText lib now s).length < maxPacketSize := by omega
          exact appStrz_packetOf fits
        have size : (packetOf [slaveText lib now s]).length ≤ prefPacketSize := by
          rw [packetOf_length,List.flatMap_singleton,List.length_append,List.length_singleton]
          omega
        obtain ⟨groups,last,loop,all⟩ := ih size
        rw [if_pos full,first,loop]
        refine ⟨before :: groups,last,rfl,?_⟩
        rw [List.flatten_cons,List.append_assoc,all]
        rfl
      · have next : appStrz (packetOf before) (slaveText lib now s) = packetOf (before ++ [slaveText lib now s]) :=
          appStrz_packetOf (by omega)
        have size : (packetOf (before ++ [slaveText lib now s])).length ≤ prefPacketSize := by
          rw [packetOf_snoc,List.length_append,List.length_append,List.length_singleton]
          omega
        obtain ⟨groups,last,loop,all⟩ := ih size
        rw [if_neg full,next,loop]
        refine ⟨groups,last,rfl,?_⟩
        rw [all,List.append_assoc]
        rfl
    · rw [if_neg tells,List.filter_cons_of_neg tells]
      exact ih room

/-- The slaves that an addressee is told of, once for each interface that sends to it. -/
def told (serverPort : UInt16) (ifcs : List Ifc) (slaves : List SlaveInfo) (addr : SockAddr) (now : Int) : List SlaveInfo :=
  (ifcs.filter (sends serverPort · addr)).flatMap fun ifc => slaves.filter (tellsOf ifc addr now)

theorem udpSendAckSlavesAll_groups (serverPort : UInt16) (slaves : List SlaveInfo) (addr : SockAddr) (now : Int) (ifcs : List Ifc) :
    ∃ groups : List (List Text), udpSendAckSlavesAll lib serverPort slaves addr now ifcs = groups.map packetOf ∧
      groups.flatten = (told serverPort ifcs slaves addr now).map (slaveText lib now) := by
  induction ifcs with
  | nil => exact ⟨[],rfl,rfl⟩
  | cons ifc rest ih =>
    obtain ⟨later,same,all⟩ := ih
    have silent : sends serverPort ifc addr = false →
        told serverPort (ifc :: rest) slaves addr now = told serverPort rest slaves addr now := fun no => by
      unfold told
      rw [List.filter_cons_of_neg (by rw [no]; exact Bool.false_ne_true)]
    unfold udpSendAckSlavesAll
    by_cases near : ifc.sameNet addr.addr = true
    · rw [if_pos near,same]
      by_cases goes : sends serverPort ifc addr = true
      · have empty : (packetOf []).length ≤ prefPacketSize := by decide
        obtain ⟨groups,last,loop,texts⟩ := ackSlavesLoop_groups lib ifc addr now slaves empty
        have start : header udpAckSlaves = packetOf [] := rfl
        have tells : told serverPort (ifc :: rest) slaves addr now =
            slaves.filter (tellsOf ifc addr now) ++ told serverPort rest slaves addr now := by
          unfold told
          rw [List.filter_cons_of_pos (p := (sends serverPort · addr)) goes,List.flatMap_cons]
        rw [start,loop,tells,List.map_append]
        dsimp only
        rw [if_pos goes]
        rw [List.nil_append] at texts
        by_cases more : (packetOf last).length > 8
        · refine ⟨groups ++ [last] ++ later,?_,?_⟩
          · rw [if_pos more,List.map_append,List.map_append]
            rfl
          · rw [List.flatten_append,List.flatten_append,List.flatten_singleton,texts,all]
        · have none : last = [] := by
            rcases last with _ | ⟨text,others⟩
            · rfl
            · rw [packetOf_length,List.flatMap_cons,List.length_append,List.length_append,List.length_singleton] at more
              omega
          refine ⟨groups ++ later,?_,?_⟩
          · rw [if_neg more,List.map_append]
          · rw [none,List.append_nil] at texts
            rw [List.flatten_append,texts,all]
      · have no := Bool.eq_false_iff.mpr goes
        rw [silent no]
        dsimp only
        rw [if_neg goes]
        exact ⟨later,List.nil_append _,all⟩
    · have no : sends serverPort ifc addr = false := by
        unfold sends
        rw [Bool.eq_false_iff.mpr near,Bool.false_and]
      rw [if_neg near,silent no]
      exact ⟨later,same,all⟩

/-- The strings of a packet, whatever is behind it. -/
theorem receiveAckSlaves_texts (now : Int) {fuel : Nat} (plain : ∀ text ∈ texts, ∀ c ∈ text, c ≠ 0) (enough : texts.length ≤ fuel)
    (slaves : List SlaveInfo) (behind : List UInt8) : ∃ memory,
      receiveAckSlaves lib.toLibrary now fuel (texts.flatMap (· ++ [0]) ++ behind) (texts.flatMap (· ++ [0])).length slaves =
        .ok (texts.foldl (fun slaves text => addAcked lib.toLibrary now text slaves) slaves,memory) := by
  induction texts generalizing fuel slaves with
  | nil => exact ⟨behind,by cases fuel <;> rfl⟩
  | cons text rest ih =>
    obtain ⟨own,others⟩ := List.forall_mem_cons.mp plain
    obtain ⟨fuel,rfl⟩ : ∃ more, fuel = more + 1 := Nat.exists_eq_add_one.mpr (Nat.lt_of_lt_of_le (Nat.succ_pos _) enough)
    obtain ⟨memory,read⟩ := ih others (Nat.le_of_succ_le_succ enough) (addAcked lib.toLibrary now text slaves)
    have memory_ : (text :: rest).flatMap (· ++ [0]) ++ behind = text ++ 0 :: (rest.flatMap (· ++ [0]) ++ behind) := by
      rw [List.flatMap_cons,List.append_assoc,List.append_assoc]
      rfl
    have count : ((text :: rest).flatMap (· ++ [0])).length = text.length + (rest.flatMap (· ++ [0])).length + 1 := by
      rw [List.flatMap_cons,List.length_append,List.length_append,List.length_singleton]
      omega
    have taken : (text ++ 0 :: (rest.flatMap (· ++ [0]) ++ behind)).takeWhile (· ≠ 0) = text := by
      rw [List.takeWhile_append_of_pos fun c member => decide_eq_true (own c member),List.takeWhile_cons_of_neg (by decide),List.append_nil]
    refine ⟨cutColons 2 text ++ 0 :: memory,?_⟩
    rw [memory_,count,receiveAckSlaves]
    simp only [taken,List.drop_left]
    rw [Nat.add_sub_cancel_left,read]
    rfl

theorem receiveAll_groups {groups : List (List Text)} (plain : ∀ text ∈ groups.flatten, ∀ c ∈ text, c ≠ 0) (behind : List UInt8)
    (slaves : List SlaveInfo) : receiveAll lib now behind (groups.map packetOf) slaves =
      .ok (groups.flatten.foldl (fun slaves text => addAcked lib.toLibrary now text slaves) slaves) := by
  induction groups generalizing slaves with
  | nil => rfl
  | cons texts rest ih =>
    rw [List.flatten_cons] at plain ⊢
    have count : ∀ texts : List Text, texts.length ≤ (texts.flatMap (· ++ [0])).length := fun texts => by
      induction texts with
      | nil => exact Nat.le_refl 0
      | cons text texts ih =>
        rw [List.flatMap_cons,List.length_append,List.length_append,List.length_singleton,List.length_cons]
        omega
    have enough : texts.length ≤ (packetOf texts).length := by
      rw [packetOf_length]
      exact Nat.le_trans (count texts) (Nat.le_add_left _ 8)
    have body : (packetOf texts).drop 8 = texts.flatMap (· ++ [0]) := rfl
    have size : (packetOf texts).length - 8 = (texts.flatMap (· ++ [0])).length := by
      rw [packetOf_length,Nat.add_sub_cancel_left]
    obtain ⟨memory,read⟩ := receiveAckSlaves_texts lib now (fun text member => plain text (List.mem_append_left _ member))
      enough slaves behind
    have later := ih (fun text member => plain text (List.mem_append_right _ member))
      (texts.foldl (fun slaves text => addAcked lib.toLibrary now text slaves) slaves)
    rw [List.foldl_append,← later]
    unfold receiveAll
    rw [List.map_cons,List.foldlM_cons,body,size,read]
    rfl

end Packets

section Table

variable (lib : Libc) {now : Int}

/-- The time that a receiver saves for a slave. -/
def heardAt (now : Int) (s : SlaveInfo) : Int := slaveTime now (UInt64.ofNat (ttl now s).toNat)

theorem addAcked_text (now : Int) (s : SlaveInfo) (table : List SlaveInfo) :
    addAcked lib.toLibrary now (slaveText lib now s) table =
      if s.addr.port ≠ discoveryTcfPort then addSlave table s.addr (heardAt now s) else table := by
  unfold addAcked
  rw [getSlaveAddr_text]
  by_cases master : s.addr.port = discoveryTcfPort
  · rw [if_pos master,if_neg (not_not_intro master)]
  · rw [if_neg master,if_pos master]
    rfl

/-- Slaves that are added with a time each are there once, also when they are added again. -/
theorem addSlaves_entries (time : SlaveInfo → Int) {before items table : List SlaveInfo}
    (one : ∀ a ∈ before ++ items, ∀ b ∈ before ++ items, a.addr = b.addr → a = b) (distinct : (table.map SlaveInfo.addr).Nodup)
    (entries : ∀ x, x ∈ table ↔ ∃ s ∈ before, x = ⟨s.addr,time s,0⟩) :
    ((items.foldl (fun table s => addSlave table s.addr (time s)) table).map SlaveInfo.addr).Nodup ∧
      ∀ x, x ∈ items.foldl (fun table s => addSlave table s.addr (time s)) table ↔ ∃ s ∈ before ++ items, x = ⟨s.addr,time s,0⟩ := by
  induction items generalizing before table with
  | nil =>
    rw [List.append_nil]
    exact ⟨distinct,entries⟩
  | cons s rest ih =>
    have split : before ++ s :: rest = (before ++ [s]) ++ rest := List.append_cons before s rest
    rw [List.foldl_cons,split]
    apply ih
    · rwa [← split]
    · exact addSlave_distinct distinct s.addr (time s)
    · intro x
      have self : s ∈ before ++ s :: rest := List.mem_append_right _ List.mem_cons_self
      unfold addSlave
      by_cases known : table.any (·.addr = s.addr) = true
      · have again : s ∈ before := by
          obtain ⟨y,member,same⟩ := List.any_eq_true.mp known
          obtain ⟨a,inside,rfl⟩ := (entries y).mp member
          have own : a = s := one a (List.mem_append_left _ inside) s self (of_decide_eq_true same)
          exact own ▸ inside
        have still : modifyFirst (·.addr = s.addr)
            (fun x => if x.lastPacketTime < time s then { x with lastPacketTime := time s } else x) table = table := by
          apply modifyFirst_same
          intro y member same
          obtain ⟨a,inside,rfl⟩ := (entries y).mp member
          obtain rfl : a = s := one a (List.mem_append_left _ inside) s self (of_decide_eq_true same)
          exact if_neg (Int.lt_irrefl _)
        rw [if_pos known,still,entries x]
        constructor
        · rintro ⟨a,member,eq⟩
          exact ⟨a,List.mem_append_left _ member,eq⟩
        · rintro ⟨a,member,eq⟩
          rcases List.mem_append.mp member with member | last
          · exact ⟨a,member,eq⟩
          · exact ⟨s,again,List.mem_singleton.mp last ▸ eq⟩
      · rw [if_neg known,List.mem_append,List.mem_singleton,entries x]
        constructor
        · rintro (⟨a,member,eq⟩ | eq)
          · exact ⟨a,List.mem_append_left _ member,eq⟩
          · exact ⟨s,List.mem_append_right _ (List.mem_singleton.mpr rfl),eq⟩
        · rintro ⟨a,member,eq⟩
          rcases List.mem_append.mp member with member | last
          · exact Or.inl ⟨a,member,eq⟩
          · exact Or.inr (List.mem_singleton.mp last ▸ eq)

end Table

section Times

variable {now : Int} {s : SlaveInfo}

def Alive (now : Int) (s : SlaveInfo) : Prop := now < s.lastPacketTime + retentionPeriod

theorem ttl_eq (now : Int) (s : SlaveInfo) : ttl now s = Int.bmod ((s.lastPacketTime + retentionPeriod - now) * 1000) (2 ^ 32) :=
  Int.bmod_mul_bmod

/-- Nothing is heard from the future, but for the ten minutes that clocks may differ. -/
theorem heardAt_le (now : Int) (s : SlaveInfo) : heardAt now s ≤ now + 60 * 10 := by
  unfold heardAt slaveTime
  dsimp only
  generalize (if UInt64.ofNat (ttl now s).toNat < 3600000 then _ else _ : Int) = timeval
  unfold retentionPeriod
  split <;> omega

theorem heardAt_alive (alive : Alive now s) (near : s.lastPacketTime ≤ now + 60 * 10) : 0 < ttl now s ∧ heardAt now s = s.lastPacketTime := by
  unfold Alive retentionPeriod at alive
  have time : ttl now s = (s.lastPacketTime + 60 - now) * 1000 := by
    rw [ttl_eq]
    apply Int.bmod_eq_of_le <;> unfold retentionPeriod <;> omega
  have stamp : (UInt64.ofNat (ttl now s).toNat).toNat = ((s.lastPacketTime + 60 - now) * 1000).toNat := by
    rw [time]
    apply UInt64.toNat_ofNat_of_lt'
    change _ < 18446744073709551616
    omega
  have small : UInt64.ofNat (ttl now s).toNat < 3600000 := by
    apply UInt64.lt_iff_toNat_lt.mpr
    rw [stamp]
    change _ < 3600000
    omega
  constructor
  · omega
  · unfold heardAt slaveTime retentionPeriod
    dsimp only
    rw [if_pos small,stamp]
    have value : now + (((s.lastPacketTime + 60 - now) * 1000).toNat : Int) / 1000 - 60 = s.lastPacketTime := by omega
    have here : ¬(s.lastPacketTime < now - 60 * 10 ∨ s.lastPacketTime > now + 60 * 10) := by omega
    rw [value,if_neg here]

end Times

end Tcf.Discovery
