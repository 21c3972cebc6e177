import TickToTrade.Protocol.MoldUdp64

/-!
# Frames by hand

The Ethernet, IPv4 and UDP headers of a frame are laid out once for a pair of endpoints. For each
payload two lengths are patched in, and the checksum of the IPv4 header: the complement of the
one's complement sum of its words.

## What is proved

* `foldCarry_complement` — a sum and the complement of its fold add up to all ones.
* `sum_patch` — the sum over a patched header is all ones.
* `frame_round_trip` — the reader takes the length of the payload from the frame, and never more
  than there is.
-/

namespace TickToTrade.Net

open Itch (byteAt beAt)
open Mold (put)

/-! ### One's complement sums -/

/-- `while (sum >> 16)`: add the carries back in. -/
def foldCarry (sum : ℕ) : ℕ := if sum / 2 ^ 16 ≠ 0 then foldCarry (sum % 2 ^ 16 + sum / 2 ^ 16) else sum
termination_by sum
decreasing_by omega

theorem foldCarry_of_lt {n : ℕ} (h : n < 2 ^ 16) : foldCarry n = n := by
  rw [foldCarry, if_neg (by omega)]

theorem foldCarry_of_le {n : ℕ} (h : 2 ^ 16 ≤ n) : foldCarry n = foldCarry (n % 2 ^ 16 + n / 2 ^ 16) := by
  rw [foldCarry, if_pos (by omega)]

/-- The fold is a word, of the same class, and zero only for zero. -/
theorem foldCarry_spec (n : ℕ) : foldCarry n < 2 ^ 16 ∧ foldCarry n % 65535 = n % 65535 ∧ (0 < n → 0 < foldCarry n) := by
  induction n using Nat.strongRecOn with
  | ind n ih =>
      by_cases h : n < 2 ^ 16
      · rw [foldCarry_of_lt h]
        exact ⟨h, rfl, id⟩
      · obtain ⟨hlt, hmod, hpos⟩ := ih (n % 2 ^ 16 + n / 2 ^ 16) (by omega)
        rw [foldCarry_of_le (Nat.le_of_not_lt h)]
        exact ⟨hlt, by omega, fun _ => hpos (by omega)⟩

/-- **A sum and its complement** fold to all ones. -/
theorem foldCarry_complement {n : ℕ} (hpos : 0 < n) : foldCarry (n + (2 ^ 16 - 1 - foldCarry n)) = 2 ^ 16 - 1 := by
  obtain ⟨hlt, hmod, -⟩ := foldCarry_spec n
  obtain ⟨hlt', hmod', hpos'⟩ := foldCarry_spec (n + (2 ^ 16 - 1 - foldCarry n))
  have hpos'' := hpos' (by omega)
  omega

/-- The sum of the big-endian words, in a 32-bit word; an odd byte counts as the high one of a word. -/
def wordSum (sum : ℕ) : List UInt8 → ℕ
  | a :: b :: data => wordSum ((sum + (a.toNat * 256 + b.toNat)) % 2 ^ 32) data
  | [a] => (sum + a.toNat * 256) % 2 ^ 32
  | [] => sum

/-- The one's complement sum. -/
def onesSum (data : List UInt8) : ℕ := foldCarry (wordSum 0 data)

/-- `computeChecksum`. -/
def computeChecksum (data : List UInt8) : ℕ := 2 ^ 16 - 1 - onesSum data

/-! ### The frame -/

/-- `kEthHeaderSize`. -/
def kEthHeaderSize : ℕ := 14

/-- `kIpv4HeaderSize`. -/
def kIpv4HeaderSize : ℕ := 20

/-- `kUdpHeaderSize`. -/
def kUdpHeaderSize : ℕ := 8

/-- `kL2L3L4Overhead`. -/
def kL2L3L4Overhead : ℕ := kEthHeaderSize + kIpv4HeaderSize + kUdpHeaderSize

/-- `Endpoints`. -/
structure Endpoints where
  srcMac : Vector UInt8 6
  dstMac : Vector UInt8 6
  srcIp : UInt32
  dstIp : UInt32
  srcPort : UInt16
  dstPort : UInt16

/-- `UdpFramer::header`: the bytes of the header struct that the constructor fills. -/
def header (ep : Endpoints) : List UInt8 :=
  ep.dstMac.toList ++ ep.srcMac.toList ++ put 2 0x0800 ++
    ([0x45, 0] ++ put 2 0 ++ put 2 0 ++ put 2 0x4000 ++ [64, 17] ++ put 2 0 ++ put 4 ep.srcIp.toNat ++ put 4 ep.dstIp.toNat) ++
    (put 2 ep.srcPort.toNat ++ put 2 ep.dstPort.toNat ++ put 2 0 ++ put 2 0)

/-- Write a 16-bit field. -/
def write16 (frame : List UInt8) (off v : ℕ) : List UInt8 := (frame.set off (UInt8.ofNat (v / 256))).set (off + 1) (UInt8.ofNat v)

/-- The bytes of the IPv4 header. -/
def ipHeader (frame : List UInt8) : List UInt8 := (frame.drop kEthHeaderSize).take kIpv4HeaderSize

/-- `UdpFramer::patch`: the total length, the UDP length, and the checksum over a header whose own checksum is zero. -/
def patch (frame : List UInt8) (payloadLen : ℕ) : List UInt8 :=
  let frame := write16 frame (kEthHeaderSize + 2) ((kIpv4HeaderSize + kUdpHeaderSize + payloadLen) % 2 ^ 16)
  let frame := write16 frame (kEthHeaderSize + kIpv4HeaderSize + 4) ((kUdpHeaderSize + payloadLen) % 2 ^ 16)
  let frame := write16 frame (kEthHeaderSize + 10) 0
  write16 frame (kEthHeaderSize + 10) (computeChecksum (ipHeader frame))

/-- `udpPayloadLen`: the declared length of the payload, but not more than is there. -/
def udpPayloadLen (frame : List UInt8) : ℕ :=
  if frame.length ≤ kL2L3L4Overhead then 0
  else
    let total := beAt frame (kEthHeaderSize + 2) 2
    if total < kIpv4HeaderSize + kUdpHeaderSize then 0
    else
      let declared := total - kIpv4HeaderSize - kUdpHeaderSize
      let present := frame.length - kL2L3L4Overhead
      if declared < present then declared else present

variable {frame data : List UInt8} {off off' n v payloadLen : ℕ}

/-! ### Fields -/

@[simp] theorem length_write16 (frame : List UInt8) (off v : ℕ) : (write16 frame off v).length = frame.length := by
  rw [write16, List.length_set, List.length_set]

theorem byteAt_set {l : List UInt8} {i : ℕ} (hi : i < l.length) (x : UInt8) (j : ℕ) :
    byteAt (l.set i x) j = if j = i then x.toNat else byteAt l j := by
  unfold byteAt
  by_cases hj : j = i
  · subst hj
    rw [if_pos rfl, List.getD_eq_getElem?_getD, List.getElem?_set_self hi, Option.getD_some]
  · rw [if_neg hj, List.getD_eq_getElem?_getD, List.getElem?_set_ne (Ne.symm hj), ← List.getD_eq_getElem?_getD]

/-- A field that was written is read back. -/
theorem beAt_write16_self (h : off + 1 < frame.length) (hv : v < 2 ^ 16) : beAt (write16 frame off v) off 2 = v := by
  have hlen : (frame.set off (UInt8.ofNat (v / 256))).length = frame.length := List.length_set ..
  rw [beAt, beAt, beAt, write16, byteAt_set (by omega), byteAt_set (by omega), byteAt_set (by omega), if_neg (by omega), if_pos rfl,
    if_pos (Nat.add_zero off), UInt8.toNat_ofNat', UInt8.toNat_ofNat']
  omega

/-- A field elsewhere is left alone. -/
theorem beAt_write16_of_disjoint (h : off + 1 < frame.length) (hoff : off' + 2 ≤ off ∨ off + 2 ≤ off') (v : ℕ) :
    beAt (write16 frame off v) off' 2 = beAt frame off' 2 := by
  have hlen : (frame.set off (UInt8.ofNat (v / 256))).length = frame.length := List.length_set ..
  have hbyte : ∀ j, j ≠ off → j ≠ off + 1 → byteAt (write16 frame off v) j = byteAt frame j := by
    intro j hj hj'
    rw [write16, byteAt_set (by omega), byteAt_set (by omega), if_neg hj', if_neg hj]
  rw [beAt, beAt, beAt, beAt, beAt, beAt, hbyte _ (by omega) (by omega), hbyte _ (by omega) (by omega)]

/-! ### The checksum -/

/-- The sum of `n` words of the frame from `off` on. -/
def fieldSum (frame : List UInt8) (off : ℕ) : ℕ → ℕ
  | 0 => 0
  | n + 1 => beAt frame off 2 + fieldSum frame (off + 2) n

theorem fieldSum_lt (frame : List UInt8) (off n : ℕ) : fieldSum frame off n ≤ 65535 * n := by
  induction n generalizing off with
  | zero => exact Nat.zero_le _
  | succ n ih =>
      have hword := Mold.beAt_lt frame off 2
      have hrest := ih (off + 2)
      rw [fieldSum]
      omega

/-- The sum over a stretch of the frame is the sum of its fields. -/
theorem wordSum_slice {sum : ℕ} (hlen : off + 2 * n ≤ frame.length) (hsum : sum + fieldSum frame off n < 2 ^ 32) :
    wordSum sum ((frame.drop off).take (2 * n)) = sum + fieldSum frame off n := by
  induction n generalizing off sum with
  | zero => rfl
  | succ n ih =>
      have hbytes : (frame.drop off).take (2 * (n + 1)) = frame[off] :: frame[off + 1] :: (frame.drop (off + 2)).take (2 * n) := by
        rw [List.drop_eq_getElem_cons (by omega), List.drop_eq_getElem_cons (by omega : off + 1 < frame.length)]
        rfl
      have hword : frame[off].toNat * 256 + frame[off + 1].toNat = beAt frame off 2 := by
        rw [beAt, beAt, beAt, byteAt, byteAt, List.getD_eq_getElem?_getD, List.getD_eq_getElem?_getD,
          List.getElem?_eq_getElem (by omega : off + 0 < frame.length), List.getElem?_eq_getElem (by omega : off + 1 < frame.length)]
        simp only [Option.getD_some, Nat.add_zero, Nat.zero_mul, Nat.zero_add]
      rw [fieldSum, ← Nat.add_assoc] at hsum
      rw [hbytes, wordSum, hword, Nat.mod_eq_of_lt (by omega), ih (by omega) hsum, fieldSum, Nat.add_assoc]

theorem onesSum_ipHeader (hlen : 34 ≤ frame.length) : onesSum (ipHeader frame) = foldCarry (fieldSum frame 14 10) := by
  have hlt := fieldSum_lt frame 14 10
  have hsum : wordSum 0 ((frame.drop 14).take (2 * 10)) = 0 + fieldSum frame 14 10 := wordSum_slice (by omega) (by omega)
  rw [Nat.zero_add] at hsum
  rw [onesSum, ← hsum]
  rfl

/-- What is written to the checksum adds to the sum. -/
theorem fieldSum_checksum (hlen : 34 ≤ frame.length) (hzero : beAt frame 24 2 = 0) (hv : v < 2 ^ 16) :
    fieldSum (write16 frame 24 v) 14 10 = fieldSum frame 14 10 + v := by
  have hother : ∀ k, k + 2 ≤ 24 ∨ 26 ≤ k → beAt (write16 frame 24 v) k 2 = beAt frame k 2 :=
    fun k hk => beAt_write16_of_disjoint (by omega) (by omega) v
  have hself : beAt (write16 frame 24 v) 24 2 = v := beAt_write16_self (by omega) hv
  simp only [fieldSum, Nat.reduceAdd, hself, hzero, hother 14 (by omega), hother 16 (by omega), hother 18 (by omega), hother 20 (by omega),
    hother 22 (by omega), hother 26 (by omega), hother 28 (by omega), hother 30 (by omega), hother 32 (by omega)]
  omega

/-! ### The patched frame -/

theorem length_patch (frame : List UInt8) (payloadLen : ℕ) : (patch frame payloadLen).length = frame.length := by
  unfold patch
  simp only [length_write16]

/-- The total length that a patch writes. -/
theorem totalLen_patch (hlen : 42 ≤ frame.length) (hpayload : payloadLen ≤ 65507) : beAt (patch frame payloadLen) 16 2 = 28 + payloadLen := by
  unfold patch
  simp only [kEthHeaderSize, kIpv4HeaderSize, kUdpHeaderSize]
  rw [beAt_write16_of_disjoint (by simp only [length_write16]; omega) (by omega), beAt_write16_of_disjoint (by simp only [length_write16]; omega) (by omega),
    beAt_write16_of_disjoint (by simp only [length_write16]; omega) (by omega), beAt_write16_self (by omega) (by omega)]
  omega

/-- **The checksum of a patched header verifies.** -/
theorem sum_patch (hlen : 42 ≤ frame.length) (hpayload : payloadLen ≤ 65507) : onesSum (ipHeader (patch frame payloadLen)) = 0xFFFF := by
  have htotal := totalLen_patch hlen hpayload
  unfold patch at htotal ⊢
  simp only [kEthHeaderSize, kIpv4HeaderSize, kUdpHeaderSize] at htotal ⊢
  generalize hzeroed : write16 (write16 (write16 frame _ _) _ _) _ 0 = zeroed at htotal ⊢
  have hlength : 42 ≤ zeroed.length := by
    rw [← hzeroed]
    simpa only [length_write16] using hlen
  have hzero : beAt zeroed 24 2 = 0 := by
    rw [← hzeroed]
    exact beAt_write16_self (by simp only [length_write16]; omega) (by omega)
  have hsum : computeChecksum (ipHeader zeroed) = 2 ^ 16 - 1 - foldCarry (fieldSum zeroed 14 10) := by
    rw [computeChecksum, onesSum_ipHeader (by omega)]
  have hpos : 0 < fieldSum zeroed 14 10 := by
    rw [beAt_write16_of_disjoint (by omega) (by omega)] at htotal
    have htotal' : beAt zeroed (14 + 2) 2 = 28 + payloadLen := htotal
    rw [fieldSum, fieldSum]
    omega
  rw [onesSum_ipHeader (by rw [length_write16]; omega), fieldSum_checksum (by omega) hzero (by rw [hsum]; omega), hsum]
  exact foldCarry_complement hpos

theorem length_header (ep : Endpoints) : (header ep).length = 42 := by
  unfold header
  simp only [List.length_append, Vector.length_toList, Mold.length_put, List.length_cons, List.length_nil]

theorem udpPayloadLen_le (frame : List UInt8) : udpPayloadLen frame ≤ frame.length - kL2L3L4Overhead := by
  unfold udpPayloadLen
  simp only
  split_ifs <;> omega

/-- The declared length, when it is there. -/
theorem udpPayloadLen_eq (h : 42 < frame.length) (htotal : beAt frame 16 2 = 28 + n) (hn : n ≤ frame.length - 42) : udpPayloadLen frame = n := by
  unfold udpPayloadLen
  simp only [kL2L3L4Overhead, kEthHeaderSize, kIpv4HeaderSize, kUdpHeaderSize, Nat.reduceAdd, htotal]
  split_ifs <;> omega

theorem beAt_append (h : off + 2 ≤ frame.length) (data : List UInt8) : beAt (frame ++ data) off 2 = beAt frame off 2 := by
  have hbyte : ∀ j, j < frame.length → byteAt (frame ++ data) j = byteAt frame j := by
    intro j hj
    rw [byteAt, byteAt, List.getD_eq_getElem?_getD, List.getD_eq_getElem?_getD, List.getElem?_append_left hj]
  rw [beAt, beAt, beAt, beAt, beAt, beAt, hbyte _ (by omega), hbyte _ (by omega)]

theorem ipHeader_append (h : 34 ≤ frame.length) (data : List UInt8) : ipHeader (frame ++ data) = ipHeader frame := by
  rw [ipHeader, ipHeader, List.drop_append_of_le_length (by simp only [kEthHeaderSize]; omega),
    List.take_append_of_le_length (by simp only [List.length_drop, kEthHeaderSize, kIpv4HeaderSize]; omega)]

/-- **Frames round-trip**: the reader takes the payload's length from the frame, whatever padding follows, and the checksum verifies;
and of any bytes it takes no more than there are. -/
theorem frame_round_trip (ep : Endpoints) (payload padding : List UInt8) (hpos : 1 ≤ payload.length) (hle : payload.length ≤ 65507) :
    let frame := patch (header ep ++ payload) payload.length ++ padding
    udpPayloadLen frame = payload.length ∧ onesSum (ipHeader frame) = 0xFFFF ∧
      ∀ bytes, udpPayloadLen bytes ≤ bytes.length - kL2L3L4Overhead := by
  intro frame
  have hbuilt : (header ep ++ payload).length = 42 + payload.length := by rw [List.length_append, length_header]
  have hpatched : (patch (header ep ++ payload) payload.length).length = 42 + payload.length := by rw [length_patch, hbuilt]
  have hframe : frame.length = 42 + payload.length + padding.length := by rw [List.length_append, hpatched]
  have htotal : beAt frame 16 2 = 28 + payload.length := by
    rw [beAt_append (by omega), totalLen_patch (by omega) hle]
  refine ⟨udpPayloadLen_eq (by omega) htotal (by omega), ?_, udpPayloadLen_le⟩
  rw [ipHeader_append (by omega), sum_patch (by omega) hle]

/-- One byte of payload and seventeen of padding. -/
theorem frame_round_trip_sample :
    let ep : Endpoints := ⟨⟨#[2, 0, 0, 0, 0, 1], rfl⟩, ⟨#[1, 0, 94, 1, 1, 1], rfl⟩, 0x0A000001, 0xEF010101, 26400, 26401⟩
    udpPayloadLen (patch (header ep ++ [7]) 1 ++ List.replicate 17 0) = 1 ∧
      onesSum (ipHeader (patch (header ep ++ [7]) 1 ++ List.replicate 17 0)) = 0xFFFF := by
  intro ep
  have h := frame_round_trip ep [7] (List.replicate 17 0) (by decide) (by decide)
  exact ⟨h.1, h.2.1⟩

end TickToTrade.Net
