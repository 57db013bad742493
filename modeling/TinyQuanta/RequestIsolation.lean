import TinyQuanta.Worker

/-!
# What a response can depend on

`process_rx_mbuf` reads at fixed offsets up to the sixth word of the payload and
never looks at the length of the frame. Of a shorter frame it reads what an
earlier packet left in the same buffer.
-/
namespace TinyQuanta.RequestIsolation

open Packet Worker

/-- The same frame, in buffers that may differ beyond it. -/
structure SameFrame (m m' : Mbuf) : Prop where
  length : m'.dataLen = m.dataLen
  bytes : ∀ i, i < m.dataLen → m'.data i = m.data i

/-- The end of the last byte that is read. -/
def readLimit : Nat := payloadOffset + 48

theorem read_congr {m m' : Mbuf} {offset count : Nat}
    (h : ∀ i, offset ≤ i → i < offset + count → m'.data i = m.data i) :
    read m' offset count = read m offset count := by
  apply List.map_congr_left
  intro i hi
  exact h _ (Nat.le_add_right _ _) (Nat.add_lt_add_left (List.mem_range.mp hi) _)

theorem SameFrame.read_eq {m m' : Mbuf} (h : SameFrame m m') {offset count : Nat}
    (hle : offset + count ≤ m.dataLen) : read m' offset count = read m offset count :=
  read_congr fun i _ hi => h.bytes i (Nat.lt_of_lt_of_le hi hle)

theorem SameFrame.word_eq {m m' : Mbuf} (h : SameFrame m m') (hlen : readLimit ≤ m.dataLen)
    {i : Nat}
    (hi : i < 6) : word m' i = word m i := by
  have hle : payloadOffset + 8 * i + 8 ≤ readLimit := by
    unfold readLimit
    omega
  unfold word
  rw [h.read_eq (Nat.le_trans hle hlen)]

theorem SameFrame.fillJobInfo_eq {m m' : Mbuf} (h : SameFrame m m') (hlen : readLimit ≤ m.dataLen)
    (leveldb : Bool) (jinfo : JobInfo) :
    fillJobInfo leveldb m' jinfo = fillJobInfo leveldb m jinfo := by
  unfold fillJobInfo
  rw [h.word_eq hlen (by decide : 3 < 6), h.word_eq hlen (by decide : 4 < 6),
    h.word_eq hlen (by decide : 5 < 6)]

theorem SameFrame.responseFrame_eq {m m' : Mbuf} (h : SameFrame m m')
    (hlen : readLimit ≤ m.dataLen) (net : Net) : responseFrame net m' = responseFrame net m := by
  have hread : ∀ offset count, offset + count ≤ readLimit →
      read m' offset count = read m offset count :=
    fun _ _ hle => h.read_eq (Nat.le_trans hle hlen)
  unfold responseFrame
  rw [hread 6 6 (by decide), hread (etherHdrLen + 4) 2 (by decide),
    hread (etherHdrLen + 6) 2 (by decide), hread (etherHdrLen + 10) 2 (by decide),
    hread (etherHdrLen + 12) 4 (by decide), hread (etherHdrLen + ipv4HdrLen) 2 (by decide),
    hread payloadOffset 48 (by decide)]

/-- The response ends with the six words of the request. -/
theorem drop_responseFrame (net : Net) (m : Mbuf) :
    (responseFrame net m).drop payloadOffset = read m payloadOffset 48 := by
  unfold responseFrame
  apply List.drop_left'
  simp [be16, be32, payloadOffset, etherHdrLen, ipv4HdrLen, udpHdrLen]

/-- The buffer with one other byte. -/
def setByte (m : Mbuf) (i : Nat) (b : UInt8) : Mbuf := { m with data := Function.update m.data i b }

@[simp] theorem setByte_self (m : Mbuf) (i : Nat) (b : UInt8) : (setByte m i b).data i = b := by
  simp [setByte]

theorem setByte_sameFrame (m : Mbuf) {i : Nat} (b : UInt8) (hi : m.dataLen ≤ i) :
    SameFrame m (setByte m i b) where
  length := rfl
  bytes j hj := Function.update_of_ne (by omega) _ _

theorem read_setByte (m : Mbuf) {i offset count : Nat} (b : UInt8) (hi : offset + count ≤ i) :
    read (setByte m i b) offset count = read m offset count :=
  read_congr fun j _ hj => Function.update_of_ne (by omega) _ _

/-- Validation looks at the Ethernet and IPv4 headers only. -/
theorem valid_setByte (net : Net) (m : Mbuf) {i : Nat} (b : UInt8)
    (hi : etherHdrLen + ipv4HdrLen ≤ i) :
    isRxMbufValid net (setByte m i b) = isRxMbufValid net m := by
  have hbound : etherHdrLen + ipv4HdrLen = 34 := rfl
  have hproto : (setByte m i b).data (etherHdrLen + 9) = m.data (etherHdrLen + 9) := by
    apply Function.update_of_ne
    change 23 ≠ i
    omega
  unfold isRxMbufValid checkEthHdr checkIpHdr
  rw [read_setByte m b (by omega : 0 + 6 ≤ i), read_setByte m b (by omega : 12 + 2 ≤ i),
    read_setByte m b (by change 34 ≤ i; omega : etherHdrLen + 16 + 4 ≤ i), hproto]

/-- The last byte that is read appears in the response. -/
theorem responseFrame_setByte_ne (net : Net) (m : Mbuf) {b : UInt8}
    (hb : b ≠ m.data (readLimit - 1)) :
    responseFrame net (setByte m (readLimit - 1) b) ≠ responseFrame net m := by
  intro he
  have hpay := congrArg (List.drop payloadOffset) he
  rw [drop_responseFrame, drop_responseFrame] at hpay
  have hlast := congrArg (fun l => l[47]?) hpay
  simp only [Packet.read, List.getElem?_map, List.getElem?_range (by decide : 47 < 48),
    Option.map_some, Option.some.injEq] at hlast
  change (setByte m (readLimit - 1) b).data (readLimit - 1) = m.data (readLimit - 1) at hlast
  rw [setByte_self] at hlast
  exact hb hlast

/-- Job and response of an accepted frame are the same for every buffer that holds it and is
accepted if and only if the frame reaches to the end of the sixth word of the payload. -/
theorem isolated_iff (sv : Server) (s : State) (coro seq : Nat) (m : Mbuf)
    (hv : isRxMbufValid sv.net m = true) :
    (∀ m', SameFrame m m' → isRxMbufValid sv.net m' = true →
      ((processRxMbuf sv ⟨seq, m'⟩ coro s).coros coro).jinfo =
        ((processRxMbuf sv ⟨seq, m⟩ coro s).coros coro).jinfo ∧
      ((processRxMbuf sv ⟨seq, m'⟩ coro s).coros coro).txMbuf =
        ((processRxMbuf sv ⟨seq, m⟩ coro s).coros coro).txMbuf) ↔
      90 ≤ m.dataLen := by
  simp only [processRxMbuf, Function.update_self]
  constructor
  · intro h
    by_contra hlen
    have hlt : m.dataLen ≤ readLimit - 1 := by
      change m.dataLen ≤ 89
      omega
    obtain ⟨b, hb⟩ : ∃ b : UInt8, b ≠ m.data (readLimit - 1) := by
      by_cases hz : m.data (readLimit - 1) = 0
      · exact ⟨1, by rw [hz]; decide⟩
      · exact ⟨0, fun he => hz he.symm⟩
    have hother := (h (setByte m (readLimit - 1) b) (setByte_sameFrame m b hlt)
      (by rw [valid_setByte sv.net m b (by decide), hv])).2
    simp only [Option.some.injEq, Tx.mk.injEq] at hother
    exact responseFrame_setByte_ne sv.net m hb hother.2
  · intro hlen m' hsame _
    exact ⟨hsame.fillJobInfo_eq hlen _ _, by rw [hsame.responseFrame_eq hlen]⟩

/-- The frame of 90 bytes that `request` is. -/
theorem isolated_iff_request :
    isRxMbufValid shipped.net request = true ∧
      ∀ m', SameFrame request m' → isRxMbufValid shipped.net m' = true →
        ((processRxMbuf shipped ⟨0, m'⟩ 0 (init shipped 0)).coros 0).txMbuf =
          ((processRxMbuf shipped ⟨0, request⟩ 0 (init shipped 0)).coros 0).txMbuf := by
  have hv : isRxMbufValid shipped.net request = true := by decide
  have hall := (isolated_iff shipped (init shipped 0) 0 0 request hv).mpr (by decide)
  exact ⟨hv, fun m' hm hv' => (hall m' hm hv').2⟩

/-- A request cut off after its headers, in a buffer that holds zeros and in one where another
packet has left a word. -/
def shortRequest : Mbuf := { request with dataLen := payloadOffset }
def usedBuffer : Mbuf := setByte shortRequest 60 255

/-- Both buffers hold the same frame, and the second response carries the other packet's byte. -/
theorem short_request_leaks :
    isRxMbufValid shipped.net shortRequest = true ∧ isRxMbufValid shipped.net usedBuffer = true ∧
      SameFrame shortRequest usedBuffer ∧
      (responseFrame shipped.net shortRequest)[60]? = some 0 ∧
      (responseFrame shipped.net usedBuffer)[60]? = some 255 ∧
      ((processRxMbuf shipped ⟨0, usedBuffer⟩ 0 (init shipped 0)).coros 0).txMbuf ≠
        ((processRxMbuf shipped ⟨0, shortRequest⟩ 0 (init shipped 0)).coros 0).txMbuf := by
  refine ⟨by decide, by decide, setByte_sameFrame _ _ (by decide), by decide, by decide, ?_⟩
  intro he
  have hframe := congrArg (fun t => t.bind fun tx => tx.frame[60]?) he
  exact absurd hframe (by decide)

end TinyQuanta.RequestIsolation
