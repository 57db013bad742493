import TinyQuanta.Worker

/-!
# Reading a response back

A receiver of UDP over IPv4 takes the end of the datagram from the length fields
of the headers, not from the size of the frame. `parse` reads a frame that way;
the lengths that `process_rx_mbuf` writes count the 16 bytes of a header it no
longer sends in place of the 48 bytes of payload it does send.
-/
namespace TinyQuanta.ResponseFormat

open Packet Worker

/-- The `len` bytes of `l` from `offset` on. -/
def field (l : List UInt8) (offset len : Nat) : List UInt8 := (l.drop offset).take len

/-- A number in network byte order. -/
def beNat (l : List UInt8) : Nat := l.foldl (fun acc b => acc * 256 + b.toNat) 0

structure Datagram where
  dstAddr : List UInt8
  srcAddr : List UInt8
  srcIp : List UInt8
  dstIp : List UInt8
  totalLength : Nat
  srcPort : List UInt8
  dstPort : List UInt8
  dgramLen : Nat
  payload : List UInt8
  deriving DecidableEq, Repr

/-- Length of the IPv4 header, from `version_ihl`. -/
def headerLength (ip : List UInt8) : Nat := beNat (field ip 0 1) % 16 * 4

def isIpv4 (ip : List UInt8) : Bool :=
  20 ≤ ip.length && beNat (field ip 0 1) / 16 == 4 && 20 ≤ headerLength ip &&
    headerLength ip ≤ beNat (field ip 2 2) && beNat (field ip 2 2) ≤ ip.length

def isUdp (udp : List UInt8) : Bool :=
  8 ≤ udp.length && 8 ≤ beNat (field udp 4 2) && beNat (field udp 4 2) ≤ udp.length

/-- Ethernet, then IPv4 up to its `total_length`, then UDP up to its `dgram_len`. -/
def parse (frame : List UInt8) : Option Datagram :=
  if 14 ≤ frame.length ∧ field frame 12 2 = [8, 0] then
    let ip := frame.drop 14
    if isIpv4 ip = true ∧ field ip 9 1 = [17] then
      let udp := (ip.take (beNat (field ip 2 2))).drop (headerLength ip)
      if isUdp udp = true then
        some {
          dstAddr := field frame 0 6
          srcAddr := field frame 6 6
          srcIp := field ip 12 4
          dstIp := field ip 16 4
          totalLength := beNat (field ip 2 2)
          srcPort := field udp 0 2
          dstPort := field udp 2 2
          dgramLen := beNat (field udp 4 2)
          payload := (udp.take (beNat (field udp 4 2))).drop 8 }
      else none
    else none
  else none

/-- The addresses of a request, swapped. -/
structure Answers (net : Net) (m : Mbuf) (d : Datagram) : Prop where
  dstAddr : d.dstAddr = read m 6 6
  srcAddr : d.srcAddr = (List.range 6).map net.myEth
  dstIp : d.dstIp = read m (etherHdrLen + 12) 4
  srcIp : d.srcIp = be32 net.myIp
  dstPort : d.dstPort = read m (etherHdrLen + ipv4HdrLen) 2
  srcPort : d.srcPort = be16 net.serverPort

/-- The frame is a well-formed answer that carries the first six words of the request. -/
def RoundTrip (net : Net) (m : Mbuf) (frame : List UInt8) : Prop :=
  ∃ d, parse frame = some d ∧ d.totalLength = ipv4HdrLen + d.dgramLen ∧
    frame.length = etherHdrLen + d.totalLength ∧ Answers net m d ∧
      d.payload = read m payloadOffset 48

/-! ## Frames with headers of the usual size -/

theorem field_append {l₁ l₂ : List UInt8} {offset len : Nat} (h : offset + len ≤ l₁.length) :
    field (l₁ ++ l₂) offset len = field l₁ offset len := by
  unfold field
  rw [List.drop_append_of_le_length (by omega), List.take_append_of_le_length]
  rw [List.length_drop]
  omega

/-- Headers without options, and lengths that stay within the frame. -/
structure Headed (ether ip udp body : List UInt8) : Prop where
  etherLen : ether.length = 14
  type : field ether 12 2 = [8, 0]
  ipLen : ip.length = 20
  versionIhl : field ip 0 1 = [0x45]
  proto : field ip 9 1 = [17]
  udpLen : udp.length = 8
  dgramLen : 8 ≤ beNat (field udp 4 2)
  lengths : ipv4HdrLen + beNat (field udp 4 2) ≤ beNat (field ip 2 2)
  totalLength : beNat (field ip 2 2) ≤ 28 + body.length

section

variable {ether ip udp body : List UInt8}

theorem Headed.headerLength_eq (h : Headed ether ip udp body) (rest : List UInt8) :
    headerLength (ip ++ rest) = 20 := by
  unfold headerLength
  rw [field_append (by rw [h.ipLen]; decide), h.versionIhl]
  rfl

theorem Headed.isIpv4_eq (h : Headed ether ip udp body) : isIpv4 (ip ++ (udp ++ body)) = true := by
  have hlen : (ip ++ (udp ++ body)).length = 28 + body.length := by
    rw [List.length_append, List.length_append, h.ipLen, h.udpLen]
    omega
  have hle : 20 ≤ beNat (field ip 2 2) := Nat.le_trans (Nat.le_add_right 20 _) h.lengths
  have htotal := h.totalLength
  unfold isIpv4
  rw [h.headerLength_eq, hlen, field_append (by rw [h.ipLen]; decide), h.versionIhl,
    field_append (by rw [h.ipLen]; decide)]
  simp only [Bool.and_eq_true, decide_eq_true_eq]
  exact ⟨⟨⟨⟨by omega, rfl⟩, Nat.le_refl _⟩, hle⟩, htotal⟩

/-- The datagram that `total_length` leaves of the frame. -/
theorem Headed.take_drop (h : Headed ether ip udp body) :
    ((ip ++ (udp ++ body)).take (beNat (field ip 2 2))).drop 20 =
      udp ++ body.take (beNat (field ip 2 2) - 28) := by
  have hlengths := h.lengths
  have hdgram := h.dgramLen
  have hip : ipv4HdrLen = 20 := rfl
  rw [← List.append_assoc, List.take_append, List.take_of_length_le, List.append_assoc,
    List.drop_left' h.ipLen, List.length_append, h.ipLen, h.udpLen]
  rw [List.length_append, h.ipLen, h.udpLen]
  omega

theorem Headed.isUdp_eq (h : Headed ether ip udp body) :
    isUdp (udp ++ body.take (beNat (field ip 2 2) - 28)) = true := by
  have hlengths := h.lengths
  have htotal := h.totalLength
  have hip : ipv4HdrLen = 20 := rfl
  unfold isUdp
  rw [field_append (by rw [h.udpLen]; decide), List.length_append, h.udpLen, List.length_take]
  simp only [Bool.and_eq_true, decide_eq_true_eq]
  exact ⟨⟨by omega, h.dgramLen⟩, by omega⟩

theorem Headed.payload_eq (h : Headed ether ip udp body) :
    ((udp ++ body.take (beNat (field ip 2 2) - 28)).take (beNat (field udp 4 2))).drop 8 =
      body.take (beNat (field udp 4 2) - 8) := by
  have hlengths := h.lengths
  have hdgram := h.dgramLen
  have hip : ipv4HdrLen = 20 := rfl
  rw [List.take_append, List.take_of_length_le (by rw [h.udpLen]; exact hdgram),
    List.drop_left' h.udpLen, List.take_take, h.udpLen, Nat.min_eq_left (by omega)]

theorem parse_headed (h : Headed ether ip udp body) :
    parse (ether ++ (ip ++ (udp ++ body))) = some {
      dstAddr := field ether 0 6
      srcAddr := field ether 6 6
      srcIp := field ip 12 4
      dstIp := field ip 16 4
      totalLength := beNat (field ip 2 2)
      srcPort := field udp 0 2
      dstPort := field udp 2 2
      dgramLen := beNat (field udp 4 2)
      payload := body.take (beNat (field udp 4 2) - 8) } := by
  have hether : ∀ offset len, offset + len ≤ 14 →
      field (ether ++ (ip ++ (udp ++ body))) offset len = field ether offset len :=
    fun _ _ hle => field_append (by rw [h.etherLen]; exact hle)
  have hip : ∀ offset len, offset + len ≤ 20 →
      field (ip ++ (udp ++ body)) offset len = field ip offset len :=
    fun _ _ hle => field_append (by rw [h.ipLen]; exact hle)
  have hudp : ∀ offset len rest, offset + len ≤ 8 →
      field (udp ++ rest) offset len = field udp offset len :=
    fun _ _ _ hle => field_append (by rw [h.udpLen]; exact hle)
  unfold parse
  rw [if_pos ⟨by rw [List.length_append, h.etherLen]; omega,
    by rw [hether 12 2 (by decide), h.type]⟩]
  dsimp only
  rw [List.drop_left' h.etherLen, hip 2 2 (by decide), h.headerLength_eq, h.take_drop,
    if_pos ⟨h.isIpv4_eq, by rw [hip 9 1 (by decide), h.proto]⟩, if_pos h.isUdp_eq,
    hudp 4 2 _ (by decide), h.payload_eq, hudp 0 2 _ (by decide), hudp 2 2 _ (by decide),
    hip 12 4 (by decide), hip 16 4 (by decide), hether 0 6 (by decide), hether 6 6 (by decide)]

end

/-! ## The headers of a response -/

def etherHeader (net : Net) (m : Mbuf) : List UInt8 :=
  [m.data 6, m.data 7, m.data 8, m.data 9, m.data 10, m.data 11, net.myEth 0, net.myEth 1,
    net.myEth 2, net.myEth 3, net.myEth 4, net.myEth 5, 8, 0]

def ipv4Header (net : Net) (m : Mbuf) : List UInt8 :=
  [0x45, 0, 0, 44, m.data 18, m.data 19, m.data 20, m.data 21, 64, 17, m.data 24, m.data 25] ++
    (be32 net.myIp ++ [m.data 26, m.data 27, m.data 28, m.data 29])

def udpHeader (net : Net) (m : Mbuf) : List UInt8 :=
  be16 net.serverPort ++ [m.data 34, m.data 35, 0, 24, 0, 0]

theorem responseFrame_eq (net : Net) (m : Mbuf) : responseFrame net m =
    etherHeader net m ++ (ipv4Header net m ++ (udpHeader net m ++ read m payloadOffset 48)) := by
  have htype : ((2048 : UInt16) >>> 8).toUInt8 = 8 := by decide
  have htotal : ((44 : UInt16) >>> 8).toUInt8 = 0 := by decide
  have hdgram : ((24 : UInt16) >>> 8).toUInt8 = 0 := by decide
  simp [responseFrame, etherHeader, ipv4Header, udpHeader, Packet.read, List.range_succ, be16,
    etherHdrLen, ipv4HdrLen, udpHdrLen, rocksdbHdrLen, htype, htotal, hdgram]

theorem take_read (m : Mbuf) {offset count k : Nat} (h : k ≤ count) :
    (read m offset count).take k = read m offset k := by
  simp [Packet.read, ← List.map_take, List.take_range, Nat.min_eq_left h]

theorem response_headed (net : Net) (m : Mbuf) : Headed (etherHeader net m) (ipv4Header net m)
    (udpHeader net m) (read m payloadOffset 48) where
  etherLen := rfl
  type := rfl
  ipLen := rfl
  versionIhl := rfl
  proto := rfl
  udpLen := rfl
  dgramLen := (by decide : 8 ≤ 24)
  lengths := (by decide : 20 + 24 ≤ 44)
  totalLength := by
    rw [length_read]
    exact (by decide : 44 ≤ 28 + 48)

/-- What a receiver gets: the right addresses, and the first two words of the payload. -/
theorem parse_responseFrame (net : Net) (m : Mbuf) :
    ∃ d, parse (responseFrame net m) = some d ∧ Answers net m d ∧ d.totalLength = 44 ∧
      d.dgramLen = 24 ∧ d.payload = read m payloadOffset 16 := by
  have hdgram : beNat (field (udpHeader net m) 4 2) = 24 := rfl
  have hparse := parse_headed (response_headed net m)
  rw [hdgram, take_read m (by decide : 24 - 8 ≤ 48)] at hparse
  rw [responseFrame_eq]
  exact ⟨_, hparse, ⟨rfl, rfl, rfl, rfl, rfl, rfl⟩, rfl, rfl, rfl⟩

theorem not_roundTrip {net : Net} {m : Mbuf} {frame : List UInt8} {d : Datagram}
    (hd : parse frame = some d) (hlen : frame.length ≠ etherHdrLen + d.totalLength) :
    ¬ RoundTrip net m frame := by
  rintro ⟨d', hd', -, hlen', -, -⟩
  rw [hd] at hd'
  cases hd'
  exact hlen hlen'

/-- No response reads back as the six words it was sent with. -/
theorem response_not_round_trip (net : Net) (m : Mbuf) :
    ¬ RoundTrip net m (responseFrame net m) := by
  obtain ⟨d, hd, -, htotal, -⟩ := parse_responseFrame net m
  apply not_roundTrip hd
  rw [length_responseFrame, htotal]
  decide

/-- A request for `shipped` with an IPv4 header of 20 bytes and six words of payload. -/
def sixWords : Mbuf := { request with data := Function.update request.data etherHdrLen 0x45 }

/-- Its response has 90 bytes, of which the receiver counts 58. -/
theorem sixWords_cut :
    isRxMbufValid shipped.net sixWords = true ∧ sixWords.data etherHdrLen = 0x45 ∧
      payloadOffset + 48 ≤ sixWords.dataLen ∧
      (responseFrame shipped.net sixWords).length = 90 ∧
      (∃ d, parse (responseFrame shipped.net sixWords) = some d ∧ etherHdrLen + d.totalLength = 58 ∧
        d.payload.length = 16) ∧
      ¬ RoundTrip shipped.net sixWords (responseFrame shipped.net sixWords) := by
  obtain ⟨d, hd, -, htotal, -, hpay⟩ := parse_responseFrame shipped.net sixWords
  have hlen := length_responseFrame shipped.net sixWords
  refine ⟨by decide, by decide, by decide, hlen, ⟨d, hd, ?_, ?_⟩, not_roundTrip hd ?_⟩
  · rw [htotal]
    rfl
  · rw [hpay, length_read]
  · rw [hlen, htotal]
    decide

end TinyQuanta.ResponseFormat
