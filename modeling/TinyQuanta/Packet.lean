import TinyQuanta.Params

/-!
# Frames, validation and response construction

An mbuf is the memory behind its data pointer together with the length of the
frame in it: the server reads at fixed offsets and never consults the length,
so bytes beyond `dataLen` are ordinary memory here. Multi-byte fields are byte
sequences in memory order; the host is little endian.
-/
namespace TinyQuanta.Packet

open Params

structure Mbuf where
  data : Nat → UInt8
  dataLen : Nat

/-- The globals `my_eth`, `my_ip` and `server_port`. -/
structure Net where
  myEth : Nat → UInt8
  myIp : UInt32
  serverPort : UInt16

/-- `rte_cpu_to_be_16`, as the two bytes that are stored. -/
def be16 (x : UInt16) : List UInt8 := [(x >>> 8).toUInt8, x.toUInt8]

/-- `rte_cpu_to_be_32`, as the four bytes that are stored. -/
def be32 (x : UInt32) : List UInt8 :=
  [(x >>> 24).toUInt8, (x >>> 16).toUInt8, (x >>> 8).toUInt8, x.toUInt8]

/-- The bytes of the buffer from `offset` on. -/
def read (m : Mbuf) (offset count : Nat) : List UInt8 :=
  (List.range count).map fun i => m.data (offset + i)

def etherHdrLen : Nat := 14
def ipv4HdrLen : Nat := 20
def udpHdrLen : Nat := 8
def rocksdbHdrLen : Nat := 16

/-- Offset of the UDP payload, whatever `version_ihl` says. -/
def payloadOffset : Nat := etherHdrLen + ipv4HdrLen + udpHdrLen

/-- One `uint64_t` of the payload. -/
def word (m : Mbuf) (i : Nat) : UInt64 :=
  (read m (payloadOffset + 8 * i) 8).foldr (fun b acc => acc <<< 8 ||| b.toUInt64) 0

/-- The frame is addressed to us and carries IPv4. -/
def checkEthHdr (net : Net) (m : Mbuf) : Bool :=
  read m 0 6 == (List.range 6).map net.myEth && read m 12 2 == be16 0x0800

/-- The packet is addressed to us and carries UDP. -/
def checkIpHdr (net : Net) (m : Mbuf) : Bool :=
  !(read m (etherHdrLen + 16) 4 != be32 net.myIp || m.data (etherHdrLen + 9) != 17)

def isRxMbufValid (net : Net) (m : Mbuf) : Bool := checkEthHdr net m && checkIpHdr net m

structure JobInfo where
  jtype : UInt64
  key : UInt64
  nsSleep : UInt64
  deriving DecidableEq, Repr

/-- The part of `process_rx_mbuf` that fills the job description; the `LEVELDB`
build sets type and key, the other one the duration. -/
def fillJobInfo (leveldb : Bool) (m : Mbuf) (jinfo : JobInfo) : JobInfo :=
  if leveldb then { jinfo with jtype := word m 3, key := word m 5 }
  else { jinfo with nsSleep := word m 4 }

/-- The part of `process_rx_mbuf` that appends headers and payload to `tx_mbuf`. -/
def responseFrame (net : Net) (m : Mbuf) : List UInt8 :=
  -- Ethernet: destination, source, type
  read m 6 6 ++ (List.range 6).map net.myEth ++ be16 0x0800 ++
  -- IPv4
  [0x45, 0] ++ be16 (ipv4HdrLen + udpHdrLen + rocksdbHdrLen).toUInt16 ++
  read m (etherHdrLen + 4) 2 ++ read m (etherHdrLen + 6) 2 ++ [64, 17] ++
  read m (etherHdrLen + 10) 2 ++ be32 net.myIp ++ read m (etherHdrLen + 12) 4 ++
  -- UDP
  be16 net.serverPort ++ read m (etherHdrLen + ipv4HdrLen) 2 ++
  be16 (udpHdrLen + rocksdbHdrLen).toUInt16 ++ [0, 0] ++
  -- six words of payload
  read m payloadOffset 48

@[simp] theorem length_read (m : Mbuf) (offset count : Nat) :
    (read m offset count).length = count := by
  simp [read]

/-- Every response has the same size. -/
theorem length_responseFrame (net : Net) (m : Mbuf) : (responseFrame net m).length = 90 := by
  simp [responseFrame, be16, be32]

end TinyQuanta.Packet
