import Tcf.Base.Announcements
import Tcf.Base.Process
import Mathlib.Algebra.Order.Ring.Int

/-! Discovery of peers by datagrams: the table of peers, the table of slaves, and the handlers of the four packets. -/
namespace Tcf.Discovery

open Announcements

abbrev Text := List UInt8

/-- The bytes of a string literal. -/
def bytes (s : String) : Text := s.toUTF8.data.toList

def psFlagLocal : UInt32 := 1
def psFlagDiscoverable : UInt32 := 4

structure PeerServer where
  id : Text
  flags : UInt32
  list : List (Text × Text)
  creationTime : Int
  expirationTime : Int
  deriving DecidableEq, Repr

def PeerServer.isLocal (s : PeerServer) : Bool := s.flags &&& psFlagLocal ≠ 0

structure SockAddr where
  addr : UInt32
  port : UInt16
  deriving DecidableEq, Repr

structure SlaveInfo where
  addr : SockAddr
  lastPacketTime : Int
  lastReqSlavesTime : Int
  deriving DecidableEq, Repr

/-- `ip_ifc_info` -/
structure Ifc where
  addr : UInt32
  mask : UInt32
  deriving DecidableEq, Repr

/-- `recvBuf` has what is left of earlier datagrams behind the last one. -/
structure State where
  peers : List PeerServer
  staleTimerActive : Bool
  slaves : List SlaveInfo
  ifcs : List Ifc
  serverPort : UInt16
  lastMasterPacketTime : Int
  stopped : Bool
  recvBuf : List UInt8
  notified : List (Note PeerServer)
  deriving DecidableEq, Repr

/-- Functions of the C library. -/
structure Library where
  inetPton : Text → Option UInt32
  atoi : Text → Int

def maxPacketSize : Nat := 9000 - 40 - 8
def discoveryTcfPort : UInt16 := 1534
def retentionPeriod : Int := 60

/-! Peers -/

section Peers

/-- A peer that is being put together. -/
structure Props where
  id : Option Text
  list : List (Text × Text)
  deriving DecidableEq, Repr

/-- `peer_server_addprop` -/
def Props.add (s : Props) (name value : Text) : Props :=
  if name = bytes "ID" then { s with id := some value }
  else if s.list.any (·.1 = name) then { s with list := modifyFirst (·.1 = name) (fun _ => (name,value)) s.list }
  else { s with list := s.list ++ [(name,value)] }

/-- `peer_server_getprop`, where NULL is the default. -/
def getProp (list : List (Text × Text)) (name : Text) : Option Text := (list.find? (·.1 = name)).map (·.2)

def isSame (a b : PeerServer) : Bool :=
  a.list.length = b.list.length && a.list.all fun (name,value) => getProp b.list name = some value

def State.notify (s : State) (note : Note PeerServer) : State := { s with notified := s.notified ++ [note] }

/-- The listed peer, when another one is added that must not replace it. -/
def refreshed (n : PeerServer) (now delta : Int) (p : PeerServer) : PeerServer :=
  { p with
    expirationTime := now + delta
    flags := if p.isLocal then p.flags else n.flags }

def peerServerAdd (s : State) (n : PeerServer) (now delta : Int) : State :=
  let n := { n with
    creationTime := now
    expirationTime := now + delta }
  match s.peers.find? (·.id = n.id) with
  | some p =>
    if (p.isLocal ∧ ¬n.isLocal) ∨ isSame p n then
      State.notify { s with peers := modifyFirst (·.id = n.id) (refreshed n now delta) s.peers } (.heartBeat (refreshed n now delta p))
    else
      State.notify { s with
        peers := n :: s.peers.eraseP (·.id = n.id)
        staleTimerActive := true } (.changed n)
  | none =>
    State.notify { s with
      peers := n :: s.peers
      staleTimerActive := true } (.added n)

def peerServerFind (s : State) (id : Text) : Option PeerServer := s.peers.find? (·.id = id)

def peerServerRemove (s : State) (id : Text) : State :=
  match s.peers.find? (·.id = id) with
  | some p => State.notify { s with peers := s.peers.eraseP (·.id = id) } (.removed p)
  | none => s

def clearStalePeers (s : State) (now : Int) : State :=
  let kept := s.peers.filter fun p => now < p.expirationTime
  { s with
    peers := kept
    staleTimerActive := !kept.isEmpty
    notified := s.notified ++ (s.peers.filter fun p => !(now < p.expirationTime)).map .removed }

end Peers

/-! Slaves -/

section Slaves

def addSlave (slaves : List SlaveInfo) (addr : SockAddr) (timestamp : Int) : List SlaveInfo :=
  if slaves.any (·.addr = addr) then
    modifyFirst (·.addr = addr) (fun s => if s.lastPacketTime < timestamp then { s with lastPacketTime := timestamp } else s) slaves
  else slaves ++ [⟨addr,timestamp,0⟩]

/-- `create_server_socket` may get another port. -/
def udpRefreshTimer (s : State) (now : Int) (port : UInt16) (ifcs : List Ifc) : State :=
  if s.stopped then s
  else
    let slaves := s.slaves.filter fun x => now ≤ x.lastPacketTime + retentionPeriod
    let port := if s.serverPort ≠ discoveryTcfPort ∧ s.lastMasterPacketTime + retentionPeriod / 2 ≤ now then port else s.serverPort
    { s with
      serverPort := port
      ifcs := ifcs
      slaves := if port ≠ discoveryTcfPort then ifcs.foldl (fun slaves ifc => addSlave slaves ⟨ifc.addr,port⟩ now) slaves else slaves }

def colon : UInt8 := 0x3a

def readStamp : UInt64 → Text → UInt64
  | ts, [] => ts
  | ts, c :: rest => if 0x30 ≤ c ∧ c ≤ 0x39 then readStamp (ts * 10 + (c - 0x30).toUInt64) rest else ts

def behindColon (text : Text) : Text := (text.dropWhile (· ≠ colon)).tail

def upToColon (text : Text) : Text := text.takeWhile (· ≠ colon)

/-- `get_slave_addr` for one string of the packet. -/
def getSlaveAddr (lib : Library) (text : Text) : Option (SockAddr × UInt64) :=
  let port := behindColon text
  let host := behindColon port
  match lib.inetPton host with
  | none => none
  | some addr =>
    let n := lib.atoi (upToColon port)
    if n = discoveryTcfPort.toNat then none else some (⟨addr,UInt16.ofNat (n % 2^16).toNat⟩,readStamp 0 text)

/-- `*port++ = 0` and `*host++ = 0` -/
def cutColons : Nat → Text → Text
  | _, [] => []
  | 0, text => text
  | n + 1, c :: rest => if c = colon then 0 :: cutColons n rest else c :: cutColons (n + 1) rest

def slaveTime (now : Int) (timestamp : UInt64) : Int :=
  let timeval :=
    if timestamp < 3600000 then now + timestamp.toNat / 1000 - retentionPeriod
    else if timestamp < UInt64.ofNat (now % 2^64).toNat + 50000000 then timestamp.toInt64.toInt
    else timestamp.toNat / 1000
  if timeval < now - 60 * 10 ∨ timeval > now + 60 * 10 then now - retentionPeriod / 2 else timeval

def addAcked (lib : Library) (now : Int) (text : Text) (slaves : List SlaveInfo) : List SlaveInfo :=
  match getSlaveAddr lib text with
  | some (addr,timestamp) => addSlave slaves addr (slaveTime now timestamp)
  | none => slaves

/-- `strlen` runs on to a NUL; `left` is what is left of the packet. -/
def receiveAckSlaves (lib : Library) (now : Int) : Nat → List UInt8 → Nat → List SlaveInfo → Code (List SlaveInfo × List UInt8)
  | _, memory, 0, slaves => pure (slaves,memory)
  | 0, memory, _ + 1, slaves => pure (slaves,memory)
  | fuel + 1, memory, left + 1, slaves =>
    let text := memory.takeWhile (· ≠ 0)
    match memory.drop text.length with
    | [] => .error .fault
    | nul :: rest => do
      let (slaves,rest) ← receiveAckSlaves lib now fuel rest (left - text.length) (addAcked lib now text slaves)
      pure (slaves,cutColons 2 text ++ nul :: rest)

end Slaves

/-! Packets -/

section Packets

def equals : UInt8 := 0x3d

/-- The attributes in a packet, none if it is malformed; and the packet, where each `=` becomes a NUL. -/
def readAttrs : Nat → List UInt8 → Props → Option Props × List UInt8
  | _, [], ps => (some ps,[])
  | 0, body, _ => (none,body)
  | fuel + 1, body, ps =>
    let name := body.takeWhile fun c => c ≠ 0 && c ≠ equals
    match body.drop name.length with
    | [] => (none,body)
    | c :: rest =>
      if c ≠ equals then (none,body)
      else
        let value := rest.takeWhile (· ≠ 0)
        match rest.drop value.length with
        | [] => (none,name ++ 0 :: value)
        | nul :: rest =>
          let (ps,rest) := readAttrs fuel rest (ps.add name value)
          (ps,name ++ 0 :: (value ++ nul :: rest))

def isIpPeer (list : List (Text × Text)) : Bool :=
  match getProp list (bytes "TransportName") with
  | some prot => prot = bytes "TCP" || prot = bytes "SSL"
  | none => false

def Ifc.sameNet (ifc : Ifc) (addr : UInt32) : Bool := ifc.addr &&& ifc.mask = addr &&& ifc.mask

/-- The peer that `udp_receive_ack_info` adds. -/
def ackedPeer (lib : Library) (ifcs : List Ifc) (attrs : Option Props) : Option PeerServer :=
  match attrs with
  | none => none
  | some ps => match ps.id with
    | none => none
    | some id =>
      if isIpPeer ps.list then
        match (getProp ps.list (bytes "Host")).bind lib.inetPton with
        | none => none
        | some addr => if ifcs.any (·.sameNet addr) then some ⟨id,psFlagDiscoverable,ps.list,0,0⟩ else none
      else none

def receiveAckInfo (lib : Library) (s : State) (data : List UInt8) (now : Int) : State :=
  let (attrs,body) := readAttrs data.length (data.drop 8) ⟨none,[]⟩
  let s := { s with recvBuf := data.take 8 ++ (body ++ s.recvBuf.drop data.length) }
  match ackedPeer lib s.ifcs attrs with
  | some n => peerServerAdd s n now retentionPeriod
  | none => s

def removeRemote (s : State) (id : Text) : State :=
  match peerServerFind s id with
  | some p => if p.isLocal then s else peerServerRemove s id
  | none => s

def receivePeerRemoved : Nat → State → List UInt8 → State
  | 0, s, _ => s
  | fuel + 1, s, body =>
    if body = [] then s
    else
      let id := body.takeWhile (· ≠ 0)
      match body.drop id.length with
      | [] => s
      | rest =>
        receivePeerRemoved fuel (removeRemote s id) (rest.dropWhile (· = 0))

def isRemote (s : State) (addr : SockAddr) : Bool := addr.port ≠ s.serverPort || !s.ifcs.any (·.addr = addr.addr)

/-- A packet that `udp_server_recv` looks into. -/
def Accepted (s : State) (data : List UInt8) (sender : SockAddr) : Prop :=
  s.stopped = false ∧ 8 ≤ data.length ∧ data.take 4 = [0x54,0x43,0x46,0x32] ∧ isRemote s sender

instance (s : State) (data : List UInt8) (sender : SockAddr) : Decidable (Accepted s data sender) := inferInstanceAs (Decidable (_ ∧ _))

def kind (data : List UInt8) : UInt8 := data.getD 4 0

def udpReqInfo : UInt8 := 1
def udpAckInfo : UInt8 := 2
def udpReqSlaves : UInt8 := 3
def udpAckSlaves : UInt8 := 4
def udpPeersRemoved : UInt8 := 5

/-- What a packet of a kind does, but for what it sends. -/
def dispatch (lib : Library) (s : State) (data : List UInt8) (sender : SockAddr) (now : Int) : Code State :=
  if kind data = udpAckInfo then pure (receiveAckInfo lib s data now)
  else if kind data = udpReqSlaves then
    if sender.port = discoveryTcfPort then pure s
    else pure { s with slaves := modifyFirst (·.addr = sender) (fun x => { x with lastReqSlavesTime := now }) s.slaves }
  else if kind data = udpAckSlaves then do
    let (slaves,memory) ← receiveAckSlaves lib now data.length (s.recvBuf.drop 8) (data.length - 8) s.slaves
    pure { s with
      slaves := slaves
      recvBuf := s.recvBuf.take 8 ++ memory }
  else pure s

/-- Whether the master on this host was heard. -/
def heardMaster (s : State) (sender : SockAddr) (now : Int) : State :=
  if sender.port = discoveryTcfPort ∧ s.ifcs.any (·.addr = sender.addr) then { s with lastMasterPacketTime := now } else s

/-- A packet from a slave saves its address. -/
def noteSlave (s : State) (sender : SockAddr) (now : Int) : State :=
  if sender.port ≠ discoveryTcfPort then { s with slaves := addSlave s.slaves sender now } else s

/-- `udpServerRecv` with the packet in the buffer -/
def received (lib : Library) (s : State) (data : List UInt8) (sender : SockAddr) (now : Int) : Code State :=
  if ¬Accepted s data sender then pure s
  else if kind data = udpPeersRemoved then pure (receivePeerRemoved data.length s (data.drop 8))
  else do
    let s ← dispatch lib (noteSlave s sender now) data sender now
    pure (heardMaster s sender now)

def udpServerRecv (lib : Library) (s : State) (data : List UInt8) (sender : SockAddr) (now : Int) : Code State :=
  received lib { s with recvBuf := data ++ s.recvBuf.drop data.length } data sender now

end Packets

/-! Events -/

section Events

inductive Event where
  | recv (data : List UInt8) (sender : SockAddr) (now : Int)
  | refresh (now : Int) (port : UInt16) (ifcs : List Ifc)
  | clearStale (now : Int)
  | addPeer (n : PeerServer) (now delta : Int)
  | removePeer (id : Text)
  | stop
  deriving DecidableEq, Repr

def Enabled (s : State) : Event → Prop
  | .recv data _ _ => data.length ≤ maxPacketSize
  | .clearStale _ => s.staleTimerActive = true
  | .stop => s.stopped = false
  | _ => True

instance (s : State) : ∀ e, Decidable (Enabled s e)
  | .recv _ _ _ => inferInstanceAs (Decidable (_ ≤ _))
  | .clearStale _ => inferInstanceAs (Decidable (_ = _))
  | .stop => inferInstanceAs (Decidable (_ = _))
  | .refresh _ _ _ | .addPeer _ _ _ | .removePeer _ => isTrue trivial

def step (lib : Library) (s : State) : Event → Code State
  | .recv data sender now => udpServerRecv lib s data sender now
  | .refresh now port ifcs => pure (udpRefreshTimer s now port ifcs)
  | .clearStale now => pure (clearStalePeers s now)
  | .addPeer n now delta => pure (peerServerAdd s n now delta)
  | .removePeer id => pure (peerServerRemove s id)
  | .stop => pure { s with
      stopped := true
      slaves := [] }

def process (lib : Library) : Process State Event where
  enabled := Enabled
  decide := fun s e => inferInstanceAs (Decidable (Enabled s e))
  step := step lib

def initial (port : UInt16) (ifcs : List Ifc) : State where
  peers := []
  staleTimerActive := false
  slaves := []
  ifcs := ifcs
  serverPort := port
  lastMasterPacketTime := 0
  stopped := false
  recvBuf := List.replicate maxPacketSize 0
  notified := []

end Events

end Tcf.Discovery
