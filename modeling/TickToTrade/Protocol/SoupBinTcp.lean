import TickToTrade.Protocol.MoldUdp64
import TickToTrade.Util.Framing

/-!
# SoupBinTCP

Orders and their answers go over a stream of packets, each behind its length of two bytes and its
type of one. A length of zero is no packet, and nothing behind it is read.
-/

namespace TickToTrade.Soup

open Itch (byteAt beAt)
open Mold (put)

/-- `kHeaderSize`. -/
def kHeaderSize : ℕ := 3

/-- `Type`: the types with a name. -/
inductive PacketType where
  | loginRequest
  | unsequencedData
  | clientHeartbeat
  | logoutRequest
  | loginAccepted
  | loginRejected
  | sequencedData
  | serverHeartbeat
  | endOfSession
  | debug
deriving DecidableEq, Repr

/-- The byte of a type. -/
def PacketType.code : PacketType → UInt8
  | .loginRequest => 76      -- 'L'
  | .unsequencedData => 85   -- 'U'
  | .clientHeartbeat => 82   -- 'R'
  | .logoutRequest => 79     -- 'O'
  | .loginAccepted => 65     -- 'A'
  | .loginRejected => 74     -- 'J'
  | .sequencedData => 83     -- 'S'
  | .serverHeartbeat => 72   -- 'H'
  | .endOfSession => 90      -- 'Z'
  | .debug => 43             -- '+'

/-- A packet. Its type is a byte, of those with a name or not. -/
structure Packet where
  type : UInt8
  payload : List UInt8
deriving DecidableEq, Repr

/-- `pack`: the length is a 16-bit word, and tells how much of the buffer is the packet. -/
def pack (type : UInt8) (payload : List UInt8) : List UInt8 :=
  let plen := (1 + payload.length) % 2 ^ 16
  (put 2 plen ++ type :: payload).take (2 + plen)

/-- `parse`: the first packet of a stretch, if it is all there, and how much it takes. -/
def parse (data : List UInt8) : Option (ℕ × Packet) :=
  if data.length < kHeaderSize then none
  else
    let plen := beAt data 0 2
    if plen = 0 then none
    else
      let total := 2 + plen
      if data.length < total then none
      else some (total, ⟨data.getD 2 0, (data.drop kHeaderSize).take (plen - 1)⟩)

/-- The digits of a number, the last one first. -/
def digits : ℕ → ℕ → List UInt8
  | 0, _ => []
  | n + 1, v => UInt8.ofNat (48 + v % 10) :: if v / 10 = 0 then [] else digits n (v / 10)

/-- `formatSeq`: a number in a field of 20, behind blanks. -/
def formatSeq (v : ℕ) : List UInt8 := List.replicate (20 - (digits 20 v).length) 32 ++ (digits 20 v).reverse

/-- `packLoginAccepted`. -/
def packLoginAccepted (session : List UInt8) (nextSeq : ℕ) : List UInt8 :=
  pack PacketType.loginAccepted.code (Mold.sessionField session ++ formatSeq nextSeq)

/-- `packEndOfSession`. -/
def packEndOfSession : List UInt8 := pack PacketType.endOfSession.code []

/-! ### Reading a packet -/

variable {data payload : List UInt8} {n : ℕ} {p : Packet}

theorem parse_eq_some : parse data = some (n, p) ↔
    n = 2 + beAt data 0 2 ∧ p = ⟨data.getD 2 0, (data.drop 3).take (beAt data 0 2 - 1)⟩ ∧ 0 < beAt data 0 2 ∧
      2 + beAt data 0 2 ≤ data.length := by
  unfold parse kHeaderSize
  simp only
  constructor
  · intro h
    split_ifs at h with hshort hzero htotal
    cases h
    exact ⟨rfl, rfl, by omega, by omega⟩
  · rintro ⟨rfl, rfl, hpos, hle⟩
    rw [if_neg (by omega), if_neg (by omega), if_neg (by omega)]

/-- A packet is read the same whatever comes behind it. -/
theorem parse_append (h : parse data = some (n, p)) (more : List UInt8) : parse (data ++ more) = some (n, p) := by
  obtain ⟨rfl, rfl, hpos, hle⟩ := parse_eq_some.mp h
  have hlen : beAt (data ++ more) 0 2 = beAt data 0 2 := Mold.beAt_append_left more (by omega)
  have htype : (data ++ more).getD 2 0 = data.getD 2 0 := by
    rw [List.getD_eq_getElem?_getD, List.getD_eq_getElem?_getD, List.getElem?_append_left (by omega)]
  have hpayload : ((data ++ more).drop 3).take (beAt data 0 2 - 1) = (data.drop 3).take (beAt data 0 2 - 1) := by
    rw [List.drop_append_of_le_length (by omega), List.take_append_of_le_length (by rw [List.length_drop]; omega)]
  rw [parse_eq_some, hlen, htype, hpayload, List.length_append]
  exact ⟨rfl, rfl, hpos, Nat.le_trans hle (Nat.le_add_right ..)⟩

/-- The packets of a stream. -/
def framing : Util.Framing UInt8 Packet where
  parse := parse
  pos h := by
    rw [(parse_eq_some.mp h).1]
    omega
  le h := by
    rw [(parse_eq_some.mp h).1]
    exact (parse_eq_some.mp h).2.2.2
  stable := parse_append

/-! ### Reading what was packed -/

/-- A payload that fits its length is packed whole. -/
theorem pack_eq (type : UInt8) (h : payload.length ≤ 65534) : pack type payload = put 2 (1 + payload.length) ++ type :: payload := by
  unfold pack
  simp only
  rw [Nat.mod_eq_of_lt (by omega), List.take_of_length_le]
  rw [List.length_append, Mold.length_put, List.length_cons]
  omega

theorem parse_pack (type : UInt8) (h : payload.length ≤ 65534) (more : List UInt8) :
    parse (pack type payload ++ more) = some (3 + payload.length, ⟨type, payload⟩) := by
  have hlen : beAt (put 2 (1 + payload.length) ++ (type :: payload ++ more)) 0 2 = 1 + payload.length := by
    rw [Mold.beAt_put]
    omega
  rw [parse_eq_some, pack_eq type h, List.append_assoc, hlen]
  refine ⟨by omega, ?_, by omega, ?_⟩
  · rw [Nat.add_sub_cancel_left]
    have htake : (payload ++ more).take payload.length = payload := List.take_left ..
    exact congrArg (Packet.mk type) htake.symm
  · simp only [List.length_append, Mold.length_put, List.length_cons]
    omega

/-- The bytes of a packet. -/
def Packet.bytes (p : Packet) : List UInt8 := pack p.type p.payload

/-- **Packets are read back**, and nothing is left. -/
theorem framing_packs (packets : List Packet) (h : ∀ p ∈ packets, p.payload.length ≤ 65534) :
    framing.frames (packets.flatMap Packet.bytes) = packets ∧ framing.rest (packets.flatMap Packet.bytes) = [] := by
  induction packets with
  | nil =>
      rw [List.flatMap_nil]
      exact ⟨framing.frames_of_none framing.parse_nil, framing.rest_of_none framing.parse_nil⟩
  | cons p packets ih =>
      obtain ⟨hframes, hrest⟩ := ih fun q hq => h q (List.mem_cons_of_mem _ hq)
      have hp : p.payload.length ≤ 65534 := h p List.mem_cons_self
      have hparse : framing.parse (p.bytes ++ packets.flatMap Packet.bytes) = some (3 + p.payload.length, p) :=
        parse_pack p.type hp _
      have hdrop : (p.bytes ++ packets.flatMap Packet.bytes).drop (3 + p.payload.length) = packets.flatMap Packet.bytes := by
        refine List.drop_left' ?_
        rw [Packet.bytes, pack_eq p.type hp, List.length_append, Mold.length_put, List.length_cons]
        omega
      rw [List.flatMap_cons, framing.frames_of_some hparse, framing.rest_of_some hparse, hdrop, hframes]
      exact ⟨rfl, hrest⟩

end TickToTrade.Soup
