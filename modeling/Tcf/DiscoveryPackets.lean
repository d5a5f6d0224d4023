import Tcf.Discovery
import Tcf.JsonBinary

/-! The packets of discovery that carry data, as they are built. -/
namespace Tcf.Discovery

open Json (decimal)

def psFlagPrivate : UInt32 := 2
def prefPacketSize : Nat := 1500 - 40 - 8

/-- `htonl(INADDR_LOOPBACK)` -/
def loopback : UInt32 := 0x0100007f

/-- Functions of the C library with what their documentation says of them. -/
structure Libc extends Library where
  inetNtoa : UInt32 → Text
  plain : ∀ addr, ∀ c ∈ inetNtoa addr, c ≠ 0 ∧ c ≠ colon
  short : ∀ addr, (inetNtoa addr).length ≤ 15
  inetPton_ntoa : ∀ addr, inetPton (inetNtoa addr) = some addr
  atoi_decimal : ∀ n < 2 ^ 31, atoi (decimal n) = n

section Buffer

def header (kind : UInt8) : List UInt8 := [0x54,0x43,0x46,0x32,kind,0,0,0]

/-- Nothing is appended to a full buffer. -/
def appStr (buf str : List UInt8) : List UInt8 := buf ++ str.take (maxPacketSize - buf.length)

def appChar (buf : List UInt8) (ch : UInt8) : List UInt8 := if buf.length < maxPacketSize then buf ++ [ch] else buf

def appStrz (buf str : List UInt8) : List UInt8 := appChar (appStr buf str) 0

end Buffer

/-! The peer -/

section PeerInfo

/-- The text of the packet for a peer, in the buffer. -/
def infoPacket (id : Text) (list : List (Text × Text)) : List UInt8 :=
  list.foldl (fun buf (name,value) => appStrz (appChar (appStr buf name) equals) value)
    (appStrz (appStr (header udpAckInfo) (bytes "ID=")) id)

/-- The loop of `udp_send_peer_info`: the interfaces that the packet is sent on. `peerAddr` is that of the host, and
`host` says whether there is one. -/
def infoInterfaces (isLocal host : Bool) (serverPort : UInt16) (peerAddr : UInt32) : List Ifc → Code (List Ifc)
  | [] => pure []
  | ifc :: rest =>
    if ¬isLocal ∧ (serverPort ≠ discoveryTcfPort ∨ ¬host) then pure []
    else if ¬isLocal ∧ ifc.addr ≠ loopback ∧ ifc.addr ≠ peerAddr then infoInterfaces isLocal host serverPort peerAddr rest
    else if ifc.addr ≠ loopback ∧ ¬host then infoInterfaces isLocal host serverPort peerAddr rest
    else do
      require (ifc.addr = loopback ∨ peerAddr ≠ 0)
      let later ← infoInterfaces isLocal host serverPort peerAddr rest
      pure (if ifc.addr ≠ loopback ∧ ¬ifc.sameNet peerAddr then later else ifc :: later)

/-- `udp_send_peer_info`: the packets that are given to `send_packet`. -/
def udpSendPeerInfo (lib : Library) (serverPort : UInt16) (ifcs : List Ifc) (ps : PeerServer) : Code (List (Ifc × List UInt8)) :=
  if ps.flags &&& psFlagPrivate ≠ 0 ∨ ps.flags &&& psFlagDiscoverable = 0 then pure []
  else
    let host := (getProp ps.list (bytes "Host")).bind lib.inetPton
    if isIpPeer ps.list ∧ host = none then pure []
    else do
      let ifcs ← infoInterfaces ps.isLocal (isIpPeer ps.list) serverPort (if isIpPeer ps.list then host.getD 0 else 0) ifcs
      pure (ifcs.map fun ifc => (ifc,infoPacket ps.id ps.list))

end PeerInfo

/-! Slaves -/

section Slaves

variable (lib : Libc)

/-- `(int)(last_packet_time + PEER_DATA_RETENTION_PERIOD - timenow) * 1000` -/
def ttl (now : Int) (s : SlaveInfo) : Int :=
  Int.bmod (Int.bmod (s.lastPacketTime + retentionPeriod - now) (2 ^ 32) * 1000) (2 ^ 32)

def slaveText (now : Int) (s : SlaveInfo) : Text :=
  decimal (ttl now s).toNat ++ colon :: (decimal s.addr.port.toNat ++ colon :: lib.inetNtoa s.addr.addr)

/-- The slaves that an interface tells the addressee about. -/
def tellsOf (ifc : Ifc) (addr : SockAddr) (now : Int) (s : SlaveInfo) : Bool :=
  decide (0 < ttl now s) && decide (s.addr ≠ addr) && (ifc.addr = loopback || ifc.sameNet s.addr.addr)

/-- The loop over the slaves: the packets that get full, and what is in the buffer behind them. -/
def ackSlavesLoop (ifc : Ifc) (addr : SockAddr) (now : Int) : List SlaveInfo → List UInt8 → List (List UInt8) × List UInt8
  | [], buf => ([],buf)
  | s :: rest, buf =>
    if tellsOf ifc addr now s then
      let str := slaveText lib now s
      if buf.length + str.length ≥ prefPacketSize then
        let (packets,last) := ackSlavesLoop ifc addr now rest (appStrz (header udpAckSlaves) str)
        (buf :: packets,last)
      else ackSlavesLoop ifc addr now rest (appStrz buf str)
    else ackSlavesLoop ifc addr now rest buf

/-- Whether `send_packet` sends from an interface to an address. -/
def sends (serverPort : UInt16) (ifc : Ifc) (addr : SockAddr) : Bool :=
  ifc.sameNet addr.addr && !(ifc.addr = addr.addr && serverPort = addr.port)

/-- `udp_send_ack_slaves_all`: the packets that are sent. -/
def udpSendAckSlavesAll (serverPort : UInt16) (slaves : List SlaveInfo) (addr : SockAddr) (now : Int) : List Ifc → List (List UInt8)
  | [] => []
  | ifc :: rest =>
    if ifc.sameNet addr.addr then
      let (packets,last) := ackSlavesLoop lib ifc addr now slaves (header udpAckSlaves)
      let packets := if last.length > 8 then packets ++ [last] else packets
      (if sends serverPort ifc addr then packets else []) ++ udpSendAckSlavesAll serverPort slaves addr now rest
    else udpSendAckSlavesAll serverPort slaves addr now rest

/-- The table of slaves of a receiver after some packets; `behind` is what is left of earlier ones in the buffer. -/
def receiveAll (now : Int) (behind : List UInt8) (packets : List (List UInt8)) (slaves : List SlaveInfo) : Code (List SlaveInfo) :=
  packets.foldlM (fun slaves data => do
    let (slaves,_) ← receiveAckSlaves lib.toLibrary now data.length (data.drop 8 ++ behind) (data.length - 8) slaves
    pure slaves) slaves

end Slaves

end Tcf.Discovery
