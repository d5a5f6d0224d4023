import Tcf.DiscoveryPackets

/-! A packet with the attributes of a peer gives the same attributes to its receivers, or nothing. -/
namespace Tcf.Discovery

/-- A peer as `peer_server_addprop` and C strings make it: no name is there twice, or is that of the ID. -/
structure Described where
  ps : PeerServer
  distinct : (ps.list.map Prod.fst).Nodup
  notId : ∀ a ∈ ps.list, a.1 ≠ bytes "ID"
  idPlain : ∀ c ∈ ps.id, c ≠ 0
  namePlain : ∀ a ∈ ps.list, ∀ c ∈ a.1, c ≠ 0 ∧ c ≠ equals
  valuePlain : ∀ a ∈ ps.list, ∀ c ∈ a.2, c ≠ 0

section Text

def attrText (a : Text × Text) : Text := a.1 ++ equals :: (a.2 ++ [0])

def attrsText (list : List (Text × Text)) : Text := list.flatMap attrText

/-- The attributes in the packet of a peer: the first one is its ID. -/
def infoAttrs (id : Text) (list : List (Text × Text)) : List (Text × Text) := (bytes "ID",id) :: list

def infoText (id : Text) (list : List (Text × Text)) : Text := header udpAckInfo ++ attrsText (infoAttrs id list)

variable {text str : Text}

theorem appStr_take : appStr (text.take maxPacketSize) str = (text ++ str).take maxPacketSize := by
  unfold appStr
  rw [List.take_append,List.length_take]
  congr 2
  omega

theorem appChar_eq (buf : List UInt8) (ch : UInt8) : appChar buf ch = appStr buf [ch] := by
  unfold appChar appStr
  split
  · rename_i room
    rw [List.take_of_length_le]
    exact Nat.le_sub_of_add_le (Nat.add_comm .. ▸ room)
  · rename_i full
    rw [Nat.sub_eq_zero_of_le (Nat.le_of_not_lt full),List.take_zero,List.append_nil]

theorem appStrz_take : appStrz (text.take maxPacketSize) str = (text ++ str ++ [0]).take maxPacketSize := by
  unfold appStrz
  rw [appChar_eq,appStr_take,appStr_take]

/-- What is in the buffer is the text as far as it fits. -/
theorem infoPacket_eq (id : Text) (list : List (Text × Text)) : infoPacket id list = (infoText id list).take maxPacketSize := by
  have fold : ∀ (list : List (Text × Text)) (text : Text),
      list.foldl (fun buf a => appStrz (appChar (appStr buf a.1) equals) a.2) (text.take maxPacketSize) =
        (text ++ attrsText list).take maxPacketSize := by
    intro list
    induction list with
    | nil =>
      intro text
      simp [attrsText]
    | cons a rest ih =>
      intro text
      rw [List.foldl_cons,appStr_take,appChar_eq,appStr_take,appStrz_take,ih]
      unfold attrsText attrText
      rw [List.flatMap_cons]
      simp
  have first : appStrz (appStr (header udpAckInfo) (bytes "ID=")) id =
      (header udpAckInfo ++ bytes "ID=" ++ id ++ [0]).take maxPacketSize := by
    rw [← appStrz_take,← appStr_take]
    rfl
  have packet : infoPacket id list =
      list.foldl (fun buf a => appStrz (appChar (appStr buf a.1) equals) a.2) (appStrz (appStr (header udpAckInfo) (bytes "ID=")) id) := rfl
  rw [packet,first,fold]
  unfold infoText infoAttrs attrsText attrText
  rw [List.flatMap_cons]
  have idIs : bytes "ID=" = bytes "ID" ++ [equals] := by decide
  rw [idIs]
  simp

end Text

section Reading

variable {name value tail : Text} {a : Text × Text} {ps : Props}

def Plain (a : Text × Text) : Prop := (∀ c ∈ a.1, c ≠ 0 ∧ c ≠ equals) ∧ ∀ c ∈ a.2, c ≠ 0

variable {rest : Text}

theorem takeWhile_run {p : UInt8 → Bool} {run : Text} (all : ∀ c ∈ run, p c = true) (stops : ∀ c ∈ rest.head?, p c = false) :
    (run ++ rest).takeWhile p = run := by
  rw [List.takeWhile_append_of_pos all]
  cases rest with
  | nil => simp
  | cons c rest =>
    rw [List.takeWhile_cons_of_neg (by rw [stops c rfl]; exact Bool.false_ne_true),List.append_nil]

def nameOf (body : Text) : Text := body.takeWhile fun c => c ≠ 0 && c ≠ equals
def valueOf (rest : Text) : Text := rest.takeWhile (· ≠ 0)

theorem nameOf_plain (plain : Plain a) (stops : ∀ c ∈ rest.head?, c = 0 ∨ c = equals) : nameOf (a.1 ++ rest) = a.1 :=
  takeWhile_run (fun c member => by simpa using plain.1 c member) (fun c head => by
    rcases stops c head with rfl | rfl
    · rfl
    · decide)

theorem valueOf_plain (plain : Plain a) (stops : ∀ c ∈ rest.head?, c = 0) : valueOf (a.2 ++ rest) = a.2 :=
  takeWhile_run (fun c member => by simpa using plain.2 c member) (fun c head => by
    rw [stops c head]
    rfl)

/-- A name that is not followed by an equals sign. -/
theorem readAttrs_noEquals {body : Text} (some_ : body ≠ []) (fuel : Nat) (no : (body.drop (nameOf body).length).head? ≠ some equals) :
    (readAttrs (fuel + 1) body ps).1 = none := by
  obtain ⟨c,cs,rfl⟩ := List.exists_cons_of_ne_nil some_
  unfold nameOf at no
  unfold readAttrs
  cases behind : (c :: cs).drop ((c :: cs).takeWhile fun c => c ≠ 0 && c ≠ equals).length with
  | nil => simp only [behind]
  | cons d rest =>
    rw [behind] at no
    have other : d ≠ equals := fun same => no (congrArg some same)
    simp only [behind,if_pos other]

/-- A body that begins with a name and an equals sign. -/
theorem nameOf_cons (plain : Plain a) : ∃ c cs, a.1 ++ equals :: rest = c :: cs ∧
    ((c :: cs).takeWhile fun c => c ≠ 0 && c ≠ equals) = a.1 ∧ (c :: cs).drop a.1.length = equals :: rest := by
  have name : nameOf (a.1 ++ equals :: rest) = a.1 :=
    nameOf_plain plain fun c head => Or.inr (Option.some.inj head).symm
  have behind : (a.1 ++ equals :: rest).drop a.1.length = equals :: rest := List.drop_left
  obtain ⟨c,cs,eq⟩ := List.exists_cons_of_ne_nil (List.append_ne_nil_of_right_ne_nil a.1 (List.cons_ne_nil equals rest))
  rw [eq] at name behind
  exact ⟨c,cs,eq,name,behind⟩

/-- A value that the body ends in. -/
theorem readAttrs_open (plain : Plain a) (fuel : Nat) (ends : rest.drop (valueOf rest).length = []) :
    (readAttrs (fuel + 1) (a.1 ++ equals :: rest) ps).1 = none := by
  obtain ⟨c,cs,eq,name,behind⟩ := nameOf_cons plain
  unfold valueOf at ends
  rw [eq]
  unfold readAttrs
  simp only [name,behind,ne_eq,not_true_eq_false,if_false,ends]

/-- A value with something behind it. -/
theorem readAttrs_closed {rest' : Text} {nul : UInt8} (plain : Plain a) (fuel : Nat)
    (ends : rest.drop (valueOf rest).length = nul :: rest') :
    (readAttrs (fuel + 1) (a.1 ++ equals :: rest) ps).1 = (readAttrs fuel rest' (ps.add a.1 (valueOf rest))).1 := by
  obtain ⟨c,cs,eq,name,behind⟩ := nameOf_cons plain
  unfold valueOf at ends ⊢
  rw [eq,readAttrs]
  · simp only [name,behind,ne_eq,not_true_eq_false,if_false,ends]
  · exact List.cons_ne_nil c cs

theorem readAttrs_attr (plain : Plain a) (fuel : Nat) :
    (readAttrs (fuel + 1) (attrText a ++ tail) ps).1 = (readAttrs fuel tail (ps.add a.1 a.2)).1 := by
  have text : attrText a ++ tail = a.1 ++ equals :: (a.2 ++ 0 :: tail) := by
    unfold attrText
    simp
  have value : valueOf (a.2 ++ 0 :: tail) = a.2 := valueOf_plain plain fun c head => (Option.some.inj head).symm
  have ends : (a.2 ++ 0 :: tail).drop (valueOf (a.2 ++ 0 :: tail)).length = 0 :: tail := by rw [value,List.drop_left]
  rw [text,readAttrs_closed plain fuel ends,value]

/-- A part of an attribute is refused. -/
theorem readAttrs_part {part more : Text} (plain : Plain a) (fuel : Nat) (split : attrText a = part ++ more) (some_ : part ≠ [])
    (less : more ≠ []) : (readAttrs (fuel + 1) part ps).1 = none := by
  have inName : (∀ c ∈ part, c ≠ 0 ∧ c ≠ equals) → (readAttrs (fuel + 1) part ps).1 = none := by
    intro all
    have name : nameOf (part ++ []) = part := takeWhile_run (fun c member => by simpa using all c member) (fun c head => nomatch head)
    rw [List.append_nil] at name
    apply readAttrs_noEquals some_ fuel
    rw [name,List.drop_length]
    exact nofun
  unfold attrText at split
  rcases List.append_eq_append_iff.mp split with ⟨behind,rfl,eq⟩ | ⟨behind,eq,-⟩
  · cases behind with
    | nil =>
      rw [List.append_nil] at inName ⊢
      exact inName plain.1
    | cons c rest =>
      obtain ⟨rfl,values⟩ := List.cons.inj eq
      have nonzero : ∀ c ∈ rest, c ≠ 0 := by
        rcases List.append_eq_append_iff.mp values with ⟨last,rfl,zero⟩ | ⟨last,within,-⟩
        · cases last with
          | nil =>
            rw [List.append_nil]
            exact plain.2
          | cons d last =>
            have none : last ++ more = [] := (List.cons.inj zero).2.symm
            exact absurd (List.append_eq_nil_iff.mp none).2 less
        · exact fun c member => plain.2 c (within ▸ List.mem_append_left _ member)
      have value : valueOf (rest ++ []) = rest := takeWhile_run (fun c member => by simpa using nonzero c member) (fun c head => nomatch head)
      rw [List.append_nil] at value
      exact readAttrs_open plain fuel (by rw [value,List.drop_length])
  · exact inName fun c member => plain.1 c (eq ▸ List.mem_append_left _ member)

/-- Whole attributes, and what is read behind them. -/
theorem readAttrs_attrs {list : List (Text × Text)} (plain : ∀ a ∈ list, Plain a) {fuel : Nat} (enough : list.length ≤ fuel) :
    (readAttrs fuel (attrsText list ++ tail) ps).1 =
      (readAttrs (fuel - list.length) tail (list.foldl (fun ps a => ps.add a.1 a.2) ps)).1 := by
  induction list generalizing fuel ps with
  | nil => rfl
  | cons a rest ih =>
    obtain ⟨first,others⟩ := List.forall_mem_cons.mp plain
    obtain ⟨fuel,rfl⟩ := Nat.exists_eq_add_of_le' (Nat.lt_of_lt_of_le (Nat.succ_pos rest.length) enough)
    have text : attrsText (a :: rest) ++ tail = attrText a ++ (attrsText rest ++ tail) := by
      unfold attrsText
      rw [List.flatMap_cons,List.append_assoc]
    rw [text,readAttrs_attr first,ih others (Nat.le_of_succ_le_succ enough),List.length_cons,Nat.add_sub_add_right]
    rfl

/-- As much of a text as fits is attributes and a part of the next one. -/
theorem attrsText_take (list : List (Text × Text)) (n : Nat) : ∃ k ≤ list.length, ∃ part,
    (attrsText list).take n = attrsText (list.take k) ++ part ∧
      (part = [] ∨ ∃ a ∈ list, ∃ more, attrText a = part ++ more ∧ part ≠ [] ∧ more ≠ []) ∧
      (k = list.length → part = []) := by
  induction list generalizing n with
  | nil => exact ⟨0,Nat.le_refl _,[],List.take_nil,Or.inl rfl,fun _ => rfl⟩
  | cons a rest ih =>
    have text : attrsText (a :: rest) = attrText a ++ attrsText rest := List.flatMap_cons
    rw [text,List.take_append]
    by_cases whole : (attrText a).length ≤ n
    · obtain ⟨k,bound,part,eq,kind,last⟩ := ih (n - (attrText a).length)
      refine ⟨k + 1,Nat.succ_le_succ bound,part,?_,?_,fun all => last (Nat.succ.inj all)⟩
      · rw [List.take_of_length_le whole,eq,List.take_succ_cons]
        unfold attrsText
        rw [List.flatMap_cons,List.append_assoc]
      · rcases kind with empty | ⟨b,member,more⟩
        · exact Or.inl empty
        · exact Or.inr ⟨b,List.mem_cons_of_mem _ member,more⟩
    · have less := Nat.lt_of_not_le whole
      refine ⟨0,Nat.zero_le _,(attrText a).take n,?_,?_,fun none => nomatch none⟩
      · rw [Nat.sub_eq_zero_of_le (Nat.le_of_lt less),List.take_zero,List.append_nil]
        rfl
      · cases n with
        | zero => exact Or.inl List.take_zero
        | succ n =>
          right
          refine ⟨a,List.mem_cons_self,(attrText a).drop (n + 1),(List.take_append_drop _ _).symm,?_,?_⟩
          · intro empty
            have := congrArg List.length empty
            rw [List.length_take,List.length_nil] at this
            omega
          · intro empty
            have := congrArg List.length empty
            rw [List.length_drop,List.length_nil] at this
            omega

/-- Attributes with different names are all there, in their order. -/
theorem add_distinct {list : List (Text × Text)} (id : Option Text) (front : List (Text × Text))
    (distinct : ((front ++ list).map Prod.fst).Nodup) (notId : ∀ a ∈ list, a.1 ≠ bytes "ID") :
    list.foldl (fun ps a => Props.add ps a.1 a.2) ⟨id,front⟩ = ⟨id,front ++ list⟩ := by
  induction list generalizing front with
  | nil => rw [List.append_nil]; rfl
  | cons a rest ih =>
    obtain ⟨first,others⟩ := List.forall_mem_cons.mp notId
    have fresh : ¬ front.any (·.1 = a.1) = true := by
      intro found
      obtain ⟨b,member,same⟩ := List.any_eq_true.mp found
      rw [List.map_append] at distinct
      exact (List.nodup_append.mp distinct).2.2 _ (List.mem_map_of_mem member) _ (List.mem_map_of_mem List.mem_cons_self)
        (of_decide_eq_true same)
    have step : Props.add ⟨id,front⟩ a.1 a.2 = ⟨id,front ++ [a]⟩ := by
      unfold Props.add
      rw [if_neg first,if_neg fresh]
    rw [List.foldl_cons,step,ih (front ++ [a]) (by rwa [List.append_assoc]) others,List.append_assoc]
    rfl

end Reading

section Claims

/-- What a receiver makes of the packet. -/
def readInfo (data : List UInt8) : Option Props := (readAttrs data.length (data.drop 8) ⟨none,[]⟩).1

/-- Every receiver of a packet for the peer adds the same ID and attributes, or nothing. -/
def InfoExact (lib : Library) (ps : PeerServer) : Prop :=
  ∀ serverPort ifcs packets, udpSendPeerInfo lib serverPort ifcs ps = .ok packets → ∀ packet ∈ packets,
    ∀ ifcs' n, ackedPeer lib ifcs' (readInfo packet.2) = some n → n.id = ps.id ∧ n.list = ps.list

/-- Attributes that a receiver can add: those of an Internet peer with an address. -/
def Addable (lib : Library) (list : List (Text × Text)) : Prop :=
  isIpPeer list = true ∧ ((getProp list (bytes "Host")).bind lib.inetPton).isSome

/-- No packet is sent, or the end of the buffer is not at the end of an attribute behind which there are others and
before which there are enough for a peer. -/
def InfoFits (lib : Library) (ps : PeerServer) : Prop :=
  (ps.flags &&& psFlagPrivate ≠ 0 ∨ ps.flags &&& psFlagDiscoverable = 0) ∨
    ∀ k < ps.list.length, (infoText ps.id (ps.list.take k)).length = maxPacketSize → ¬ Addable lib (ps.list.take k)

variable {lib : Library} {d : Described} {list : List (Text × Text)}

theorem attrsText_length (list : List (Text × Text)) : list.length ≤ (attrsText list).length := by
  induction list with
  | nil => exact Nat.zero_le _
  | cons a rest ih =>
    unfold attrsText attrText at ih ⊢
    rw [List.flatMap_cons,List.length_append,List.length_append,List.length_cons,List.length_cons]
    omega

theorem infoText_take (id : Text) (list : List (Text × Text)) :
    (infoText id list).take maxPacketSize = header udpAckInfo ++ (attrsText (infoAttrs id list)).take (maxPacketSize - 8) := by
  unfold infoText
  rw [List.take_append]
  rfl

theorem plain_literal {text : Text} (all : (text.all fun c => c ≠ 0 && c ≠ equals) = true) : ∀ c ∈ text, c ≠ 0 ∧ c ≠ equals := by
  intro c member
  have own := List.all_eq_true.mp all c member
  rwa [Bool.and_eq_true,decide_eq_true_eq,decide_eq_true_eq] at own

theorem Described.plain (d : Described) : ∀ a ∈ infoAttrs d.ps.id d.ps.list, Plain a := by
  intro a member
  rcases List.mem_cons.mp member with rfl | member
  · have name : ∀ c ∈ bytes "ID", c ≠ 0 ∧ c ≠ equals := plain_literal (by decide)
    exact ⟨name,d.idPlain⟩
  · exact ⟨d.namePlain a member,d.valuePlain a member⟩

/-- Attributes behind the ID. -/
theorem Described.added (d : Described) (j : Nat) :
    (infoAttrs d.ps.id (d.ps.list.take j)).foldl (fun ps a => Props.add ps a.1 a.2) ⟨none,[]⟩ = ⟨some d.ps.id,d.ps.list.take j⟩ := by
  have distinct : (([] ++ d.ps.list.take j).map Prod.fst).Nodup := by
    rw [List.nil_append]
    exact (d.distinct.sublist ((List.take_sublist j _).map _))
  exact add_distinct (some d.ps.id) [] distinct fun a member => d.notId a (List.mem_of_mem_take member)

theorem readAttrs_nil (fuel : Nat) (ps : Props) : (readAttrs fuel [] ps).1 = some ps := by
  cases fuel with
  | zero => rfl
  | succ fuel => rfl

/-- Attributes that fit are all read. -/
theorem readInfo_whole (d : Described) (j : Nat) (fits : (infoText d.ps.id (d.ps.list.take j)).length ≤ maxPacketSize) :
    readInfo (infoPacket d.ps.id (d.ps.list.take j)) = some ⟨some d.ps.id,d.ps.list.take j⟩ := by
  have plain : ∀ a ∈ infoAttrs d.ps.id (d.ps.list.take j), Plain a := by
    intro a member
    apply d.plain a
    rcases List.mem_cons.mp member with rfl | member
    · exact List.mem_cons_self
    · exact List.mem_cons_of_mem _ (List.mem_of_mem_take member)
  have enough := attrsText_length (infoAttrs d.ps.id (d.ps.list.take j))
  rw [infoPacket_eq,List.take_of_length_le fits]
  have body : (infoText d.ps.id (d.ps.list.take j)).drop 8 = attrsText (infoAttrs d.ps.id (d.ps.list.take j)) ++ [] :=
    (List.append_nil _).symm
  have length : (infoText d.ps.id (d.ps.list.take j)).length = 8 + (attrsText (infoAttrs d.ps.id (d.ps.list.take j))).length :=
    List.length_append
  unfold readInfo
  rw [body,length,readAttrs_attrs plain (by omega),readAttrs_nil,d.added]

/-- All attributes are read, or those that end at the end of the buffer, or none. -/
theorem readInfo_cases (d : Described) :
    (∃ j ≤ d.ps.list.length, readInfo (infoPacket d.ps.id d.ps.list) = some ⟨some d.ps.id,d.ps.list.take j⟩ ∧
      (j = d.ps.list.length ∨ (infoText d.ps.id (d.ps.list.take j)).length = maxPacketSize)) ∨
    readInfo (infoPacket d.ps.id d.ps.list) = none ∨ readInfo (infoPacket d.ps.id d.ps.list) = some ⟨none,[]⟩ := by
  have plain := d.plain
  obtain ⟨k,bound,part,eq,kind,all⟩ := attrsText_take (infoAttrs d.ps.id d.ps.list) (maxPacketSize - 8)
  have enough := attrsText_length ((infoAttrs d.ps.id d.ps.list).take k)
  have read : readInfo (infoPacket d.ps.id d.ps.list) =
      (readAttrs (8 + (attrsText ((infoAttrs d.ps.id d.ps.list).take k) ++ part).length)
        (attrsText ((infoAttrs d.ps.id d.ps.list).take k) ++ part) ⟨none,[]⟩).1 := by
    unfold readInfo
    rw [infoPacket_eq,infoText_take,eq,List.length_append]
    rfl
  rw [List.length_append,readAttrs_attrs (fun a member => plain a (List.mem_of_mem_take member)) (by omega)] at read
  rcases kind with rfl | ⟨a,member,more,split,some_,less⟩
  · rw [readAttrs_nil] at read
    cases k with
    | zero => exact Or.inr (Or.inr read)
    | succ j =>
      have bound : j ≤ d.ps.list.length := Nat.le_of_succ_le_succ bound
      refine Or.inl ⟨j,bound,read.trans (congrArg some (d.added j)),?_⟩
      rcases Nat.lt_or_eq_of_le bound with less | same
      · right
        rw [List.append_nil] at eq
        have lengths := congrArg List.length eq
        have split : attrsText (infoAttrs d.ps.id d.ps.list) =
            attrsText ((infoAttrs d.ps.id d.ps.list).take (j + 1)) ++ attrsText ((infoAttrs d.ps.id d.ps.list).drop (j + 1)) := by
          unfold attrsText
          rw [← List.flatMap_append,List.take_append_drop]
        have behind := attrsText_length ((infoAttrs d.ps.id d.ps.list).drop (j + 1))
        have count : ((infoAttrs d.ps.id d.ps.list).drop (j + 1)).length = d.ps.list.length - j := by
          rw [List.length_drop]
          exact Nat.add_sub_add_right _ _ _
        rw [List.length_take,split,List.length_append] at lengths
        have total : (infoText d.ps.id (d.ps.list.take j)).length =
            8 + (attrsText ((infoAttrs d.ps.id d.ps.list).take (j + 1))).length := List.length_append
        have room : 8 ≤ maxPacketSize := by decide
        omega
      · exact Or.inl same
  · right
    left
    obtain ⟨c,rest,rfl⟩ := List.exists_cons_of_ne_nil some_
    rw [read]
    obtain ⟨fuel,same⟩ : ∃ fuel, 8 + ((attrsText ((infoAttrs d.ps.id d.ps.list).take k)).length + (c :: rest).length) -
        ((infoAttrs d.ps.id d.ps.list).take k).length = fuel + 1 := by
      refine ⟨8 + ((attrsText ((infoAttrs d.ps.id d.ps.list).take k)).length + rest.length) -
        ((infoAttrs d.ps.id d.ps.list).take k).length,?_⟩
      rw [List.length_cons]
      omega
    rw [same]
    exact readAttrs_part (plain a member) fuel split some_ less

theorem getProp_take {k : Nat} {name value : Text} (found : getProp (list.take k) name = some value) : getProp list name = some value := by
  unfold getProp at found ⊢
  obtain ⟨a,first,rfl⟩ := Option.map_eq_some_iff.mp found
  rw [← List.take_append_drop k list,List.find?_append,first]
  rfl

/-- What a receiver can add it could add from all attributes too. -/
theorem Addable.of_take {k : Nat} (addable : Addable lib (list.take k)) : Addable lib list := by
  obtain ⟨ip,host⟩ := addable
  constructor
  · unfold isIpPeer at ip ⊢
    cases found : getProp (list.take k) (bytes "TransportName") with
    | none =>
      rw [found] at ip
      cases ip
    | some prot =>
      rw [found] at ip
      rw [getProp_take found]
      exact ip
  · obtain ⟨addr,host⟩ := Option.isSome_iff_exists.mp host
    obtain ⟨value,found,address⟩ := Option.bind_eq_some_iff.mp host
    rw [getProp_take found,Option.bind_some,address]
    rfl

theorem ackedPeer_addable {ifcs : List Ifc} {id : Text} {n : PeerServer} (acked : ackedPeer lib ifcs (some ⟨some id,list⟩) = some n) :
    Addable lib list ∧ n.id = id ∧ n.list = list := by
  unfold ackedPeer at acked
  dsimp only at acked
  split at acked
  · rename_i ip
    cases host : (getProp list (bytes "Host")).bind lib.inetPton with
    | none =>
      rw [host] at acked
      cases acked
    | some addr =>
      rw [host] at acked
      dsimp only at acked
      split at acked
      · cases acked
        refine ⟨⟨ip,?_⟩,rfl,rfl⟩
        rw [host]
        rfl
      · cases acked
  · cases acked

/-- A receiver with an interface for every address adds what can be added. -/
theorem addable_acked (id : Text) (addable : Addable lib list) :
    ackedPeer lib [⟨0,0⟩] (some ⟨some id,list⟩) = some ⟨id,psFlagDiscoverable,list,0,0⟩ := by
  obtain ⟨addr,host⟩ := Option.isSome_iff_exists.mp addable.2
  have near : ([⟨0,0⟩] : List Ifc).any (·.sameNet addr) = true := by simp [Ifc.sameNet]
  unfold ackedPeer
  dsimp only
  rw [if_pos addable.1,host]
  dsimp only
  rw [if_pos near]

/-- A master with a loopback interface sends the packet. -/
theorem udpSendPeerInfo_sent {ps : PeerServer} (addable : Addable lib ps.list)
    (shown : ¬(ps.flags &&& psFlagPrivate ≠ 0 ∨ ps.flags &&& psFlagDiscoverable = 0)) :
    udpSendPeerInfo lib discoveryTcfPort [⟨loopback,0⟩] ps = .ok [(⟨loopback,0⟩,infoPacket ps.id ps.list)] := by
  obtain ⟨addr,host⟩ := Option.isSome_iff_exists.mp addable.2
  have some_ : ¬(isIpPeer ps.list = true ∧ some addr = none) := fun is => nomatch is.2
  unfold udpSendPeerInfo
  rw [if_neg shown,host]
  dsimp only
  rw [if_neg some_,addable.1]
  simp [infoInterfaces,Code.pure_eq]

/-- The packets for a peer give receivers what it is, or nothing, exactly if the buffer does not end between attributes
that are enough for a peer and others. -/
theorem infoExact_iff (lib : Library) (d : Described) : InfoExact lib d.ps ↔ InfoFits lib d.ps := by
  constructor
  · intro exact_
    by_cases hidden : d.ps.flags &&& psFlagPrivate ≠ 0 ∨ d.ps.flags &&& psFlagDiscoverable = 0
    · exact Or.inl hidden
    · right
      intro k less full addable
      have sent := udpSendPeerInfo_sent addable.of_take hidden
      have cut : infoPacket d.ps.id d.ps.list = infoPacket d.ps.id (d.ps.list.take k) := by
        have split : infoText d.ps.id d.ps.list = infoText d.ps.id (d.ps.list.take k) ++ attrsText (d.ps.list.drop k) := by
          unfold infoText infoAttrs attrsText
          rw [List.flatMap_cons,List.flatMap_cons,List.append_assoc,List.append_assoc,← List.flatMap_append,List.take_append_drop]
        rw [infoPacket_eq,infoPacket_eq,split,← full,List.take_left,List.take_length]
      have acked := addable_acked d.ps.id addable
      rw [← readInfo_whole d k (Nat.le_of_eq full),← cut] at acked
      have same := (exact_ _ _ _ sent _ (List.mem_singleton.mpr rfl) _ _ acked).2
      have lengths := congrArg List.length same
      change (d.ps.list.take k).length = d.ps.list.length at lengths
      rw [List.length_take] at lengths
      omega
  · rintro (hidden | fits) serverPort ifcs packets sent packet member ifcs' n acked
    · unfold udpSendPeerInfo at sent
      rw [if_pos hidden] at sent
      cases sent
      exact absurd member List.not_mem_nil
    · have data : packet.2 = infoPacket d.ps.id d.ps.list := by
        unfold udpSendPeerInfo at sent
        split at sent
        · cases sent
          exact absurd member List.not_mem_nil
        dsimp only at sent
        split at sent
        · cases sent
          exact absurd member List.not_mem_nil
        · obtain ⟨ifcs,-,sent⟩ := Code.bind_ok_iff.mp sent
          cases sent
          obtain ⟨ifc,-,rfl⟩ := List.mem_map.mp member
          rfl
      rw [data] at acked
      rcases readInfo_cases d with ⟨j,bound,read,ends⟩ | read | read
      · rw [read] at acked
        obtain ⟨addable,id,list⟩ := ackedPeer_addable acked
        rcases Nat.lt_or_eq_of_le bound with less | all
        · exact absurd addable (fits j less (ends.resolve_left (Nat.ne_of_lt less)))
        · rw [all,List.take_length] at list
          exact ⟨id,list⟩
      · rw [read] at acked
        cases acked
      · rw [read] at acked
        cases acked

end Claims

end Tcf.Discovery
