import TickToTrade.Dut.BookReads
import TickToTrade.Dut.SessionRuns
import TickToTrade.Sim.OrderEntry

/-!
# What the DUT reads of what comes in

Datagrams of the feed and of answers, and stretches of the order-entry stream. The session looks at
a packet of the feed with two cursors, the second one ahead of the first, and a build with software
timing looks at every answer once more before the order manager does. That look takes the first byte
for granted: of an answer that is an empty packet of the stream it is behind the end.

## What is proved

* `inbound_in_bounds_iff` — every read of a run lies in the message that it belongs to if and only
  if the build has no software timing, or no answer in the order-entry stream is empty.
-/

namespace TickToTrade.Dut

open Itch (byteAt beAt bodyOf decode eventCodeOf readByte readBe readBytes)
open Soup (Packet PacketType framing)

/-! ### Packets of the feed -/

/-- The cursor of the look ahead: the messages seen, and where the next one is. -/
structure Ahead where
  idx : ℕ := 0
  off : ℕ := Mold.kHeaderSize

namespace DutSession

variable {S : Type}

/-- `kPrefetchAhead`. -/
def kPrefetchAhead : ℕ := 4

/-- `prefetchAhead`. -/
def boundedPrefetchAhead (t : BookTable) (pkt : List UInt8) (count : ℕ) (a : Ahead) : Option Ahead :=
  if a.idx < count then do
    match ← Mold.boundedNextMessage pkt a.off with
    | none => return a
    | some (msg, off) => do
        let _ ← t.boundedPrefetchHotOrders msg
        return ⟨a.idx + 1, off⟩
  else some a

/-- The looks ahead before the first message. -/
def boundedPrefetches (t : BookTable) (pkt : List UInt8) (count : ℕ) : ℕ → Ahead → Option Ahead
  | 0, a => some a
  | k + 1, a => do
      let a ← boundedPrefetchAhead t pkt count a
      boundedPrefetches t pkt count k a

/-- `applyMessage`. -/
def boundedApplyMessage (d : DutSession S) (n : ℕ) (msg : List UInt8) : Option (DutSession S × Option ℕ) :=
  if msg.length < 11 then some (d, none)
  else do
    let type ← readByte msg 0
    if type = 83 then  -- 'S'
      if 12 ≤ msg.length then do
        let code ← readByte msg 11
        return (d.onSystemEvent (eventCodeOf code), none)
      else return (d, none)
    else if d.feedValid then do
      let locate ← readBe msg 1 2
      if d.cold.isSome ∧ type ≠ 82 ∧ !d.books.isHot locate then return (d, none)
      else do
        let (books, hot) ← d.books.boundedApply msg
        return ({ d with books := books }.note (.applied n msg hot), hot)
    else return (d, none)

variable [Strategy S]

/-- The message loop of `applyPacket`, with as many messages left. -/
def boundedHandleAll (pkt : List UInt8) (count : ℕ) : ℕ → DutSession S → ℕ → ℕ → Ahead → Option (DutSession S)
  | 0, d, _, _, _ => some d
  | left + 1, d, n, off, a => do
      match ← Mold.boundedNextMessage pkt off with
      | none => return d
      | some (msg, off) => do
          let a ← boundedPrefetchAhead d.books pkt count a
          let (d, hot) ← d.boundedApplyMessage n msg
          let d := match hot with
            | none => d
            | some h => d.requote h
          boundedHandleAll pkt count left d (n + 1) off a

/-- `PacketCapture::offer`: the front of a packet is kept. -/
def boundedOffer (pkt : List UInt8) : Option (List UInt8) := readBytes pkt 0 (min pkt.length 1500)

/-- `applyPacket`; `slow` if a build with software timing finds that the packet took long. -/
def boundedApplyPacket (swTiming slow : Bool) (d : DutSession S) (pkt : List UInt8) : Option (DutSession S) :=
  if pkt.length < Mold.kHeaderSize then some d
  else do
    let msgs ← readBe pkt Mold.kCountOffset 2
    let count := if msgs = Mold.kHeartbeat ∨ msgs = Mold.kEndOfSession then 0 else msgs
    let a ← boundedPrefetches d.books pkt count kPrefetchAhead {}
    let seq ← readBe pkt Mold.kSequenceOffset 8
    let r := d.seq.onPacket seq msgs
    let d := { d with packets := d.packets + 1, seq := r.2 }
    if r.1 = .stale then return d
    else do
      let d := if r.1 = .gap then d.invalidateFeed seq else d
      let d ← boundedHandleAll pkt count count d seq Mold.kHeaderSize a
      let d := d.finish pkt
      if swTiming && slow then do
        let _ ← boundedOffer pkt
        return d
      else return d

omit [Strategy S] in
theorem boundedPrefetchAhead_isSome (t : BookTable) (pkt : List UInt8) (count : ℕ) (a : Ahead) :
    ∃ a', boundedPrefetchAhead t pkt count a = some a' := by
  unfold boundedPrefetchAhead
  rw [Mold.boundedNextMessage_eq]
  by_cases hidx : a.idx < count
  · rw [if_pos hidx]
    simp only [Option.bind_eq_bind, Option.bind_some]
    cases Mold.nextMessage pkt a.off with
    | none => exact ⟨a, rfl⟩
    | some next =>
        obtain ⟨r, hr⟩ := Option.isSome_iff_exists.mp (t.boundedPrefetchHotOrders_isSome next.1)
        simp only [hr, Option.bind_some]
        exact ⟨_, rfl⟩
  · exact ⟨a, if_neg hidx⟩

omit [Strategy S] in
theorem boundedPrefetches_isSome (t : BookTable) (pkt : List UInt8) (count k : ℕ) (a : Ahead) :
    ∃ a', boundedPrefetches t pkt count k a = some a' := by
  induction k generalizing a with
  | zero => exact ⟨a, rfl⟩
  | succ k ih =>
      obtain ⟨a', ha⟩ := boundedPrefetchAhead_isSome t pkt count a
      rw [boundedPrefetches, ha]
      exact ih a'

omit [Strategy S] in
theorem boundedApplyMessage_eq (d : DutSession S) (n : ℕ) (msg : List UInt8) :
    d.boundedApplyMessage n msg = some (d.applyMessage n msg) := by
  unfold boundedApplyMessage applyMessage
  by_cases hshort : msg.length < 11
  · rw [if_pos hshort, if_pos hshort]
  rw [if_neg hshort, if_neg hshort, Itch.readByte_eq (by omega), Itch.readBe_eq (by omega), BookTable.boundedApply_eq _ (by omega)]
  simp only [Option.bind_eq_bind, Option.bind_some]
  have hbody : (decode msg).body = bodyOf msg := rfl
  by_cases hS : byteAt msg 0 = 83
  · rw [if_pos hS, hbody, bodyOf_system hS]
    by_cases hlen : msg.length < 12
    · rw [if_pos hlen, if_neg (Nat.not_le_of_lt hlen)]
      rfl
    · rw [if_neg hlen, if_pos (Nat.le_of_not_lt hlen), Itch.readByte_eq (Nat.le_of_not_lt hlen)]
      rfl
  · have hsystem := isSystem_bodyOf hS
    have hbooks : (if d.feedValid = true then
        if d.cold.isSome = true ∧ byteAt msg 0 ≠ 82 ∧ (!d.books.isHot (beAt msg 1 2)) = true then some (d, none)
        else some ({ d with books := (d.books.apply (decode msg)).1 }.note (.applied n msg (d.books.apply (decode msg)).2),
          (d.books.apply (decode msg)).2)
      else some (d, none)) = some (d.toBooks n msg) := by
      have hadmits : d.Admits msg ↔
          d.feedValid = true ∧ ¬ (d.cold.isSome = true ∧ byteAt msg 0 ≠ 82 ∧ (!d.books.isHot (beAt msg 1 2)) = true) := Iff.rfl
      unfold toBooks
      by_cases hvalid : d.feedValid = true
      · by_cases hskip : d.cold.isSome = true ∧ byteAt msg 0 ≠ 82 ∧ (!d.books.isHot (beAt msg 1 2)) = true
        · rw [if_pos hvalid, if_pos hskip, if_neg fun h => (hadmits.mp h).2 hskip]
        · rw [if_pos hvalid, if_neg hskip, if_pos (hadmits.mpr ⟨hvalid, hskip⟩)]
      · rw [if_neg hvalid, if_neg fun h => hvalid (hadmits.mp h).1]
    rw [if_neg hS, hbody]
    cases hb : bodyOf msg
    case systemEvent | systemEventShort =>
      rw [hb] at hsystem
      cases hsystem
    all_goals exact hbooks

theorem boundedHandleAll_eq (pkt : List UInt8) (count left : ℕ) (d : DutSession S) (n off : ℕ) (a : Ahead) :
    boundedHandleAll pkt count left d n off a = some (d.handleAll n (Mold.messagesFrom pkt left off)) := by
  induction left generalizing d n off a with
  | zero => rfl
  | succ left ih =>
      rw [boundedHandleAll, Mold.boundedNextMessage_eq, Mold.messagesFrom]
      cases Mold.nextMessage pkt off with
      | none => rfl
      | some next =>
          obtain ⟨a', ha⟩ := boundedPrefetchAhead_isSome d.books pkt count a
          simp only [Option.bind_eq_bind, Option.bind_some, ha, boundedApplyMessage_eq, ih]
          rw [handleAll, handle]
          rcases d.applyMessage n next.1 with ⟨d', hot⟩
          cases hot <;> rfl

/-- The session reads no byte outside of a packet. -/
theorem boundedApplyPacket_eq (swTiming slow : Bool) (d : DutSession S) (pkt : List UInt8) :
    boundedApplyPacket swTiming slow d pkt = some (d.applyPacket pkt) := by
  unfold boundedApplyPacket applyPacket
  by_cases hshort : pkt.length < Mold.kHeaderSize
  · rw [if_pos hshort, if_pos hshort]
  have hlen : 20 ≤ pkt.length := Nat.le_of_not_lt hshort
  rw [if_neg hshort, if_neg hshort, Itch.readBe_eq (Nat.le_trans (by decide) hlen), Itch.readBe_eq (Nat.le_trans (by decide) hlen)]
  simp only [Option.bind_eq_bind, Option.bind_some]
  obtain ⟨a, ha⟩ := boundedPrefetches_isSome d.books pkt (Mold.announced pkt) kPrefetchAhead {}
  have hcount : (if Mold.countOf pkt = Mold.kHeartbeat ∨ Mold.countOf pkt = Mold.kEndOfSession then 0 else Mold.countOf pkt) =
      Mold.announced pkt := rfl
  have hmsgs : beAt pkt Mold.kCountOffset 2 = Mold.countOf pkt := rfl
  have hseq : beAt pkt Mold.kSequenceOffset 8 = Mold.sequenceOf pkt := rfl
  rw [hmsgs, hseq, hcount, ha, Option.bind_some]
  have hverdict : (d.seq.onPacket (Mold.sequenceOf pkt) (Mold.countOf pkt)).1 = d.verdict pkt := rfl
  unfold begin
  simp only [hverdict]
  by_cases hstale : d.verdict pkt = .stale
  · rw [if_pos hstale, if_pos hstale, hstale]
    rfl
  · have hoffer : boundedOffer pkt = some (pkt.take (min pkt.length 1500)) := by
      rw [boundedOffer, Itch.readBytes_eq (by omega), List.drop_zero]
    rw [if_neg hstale, if_neg hstale]
    simp only [boundedHandleAll_eq, Option.bind_some, hoffer]
    split_ifs <;> rfl

end DutSession

/-! ### Answers -/

/-- `OrderManager::onAck`: the answer is copied to its struct, its front to the log of unknown answers if no slot waits for it, and its
type and reference to the ring of recent answers. -/
def OrderManager.boundedOnAck (o : OrderManager) (ouch : List UInt8) : Option OrderManager :=
  let o := { o with ackSym := none }
  if ouch = [] then some o
  else do
    let m ← Ouch.boundedDecodeOut ouch
    let o := match m with
      | none => o
      | some m => o.onAckMsg m
    -- the front is read for the log, here whether a slot waits for the answer or not
    let _ ← readBytes ouch 0 (min ouch.length 48)
    if 13 ≤ ouch.length then do
      let _ ← readBe ouch 9 4
      let _ ← readByte ouch 0
      return o
    else return o

/-- An answer is read in its bounds. -/
theorem OrderManager.boundedOnAck_eq (o : OrderManager) (ouch : List UInt8) : o.boundedOnAck ouch = some (o.onAck ouch) := by
  unfold boundedOnAck onAck
  by_cases hnil : ouch = []
  · rw [if_pos hnil, hnil]
    rfl
  · have hpos := List.length_pos_iff.mpr hnil
    simp only [if_neg hnil, Ouch.boundedDecodeOut_eq hnil, Option.bind_eq_bind, Option.bind_some]
    rw [Itch.readBytes_eq (by omega), Option.bind_some]
    by_cases hlen : 13 ≤ ouch.length
    · rw [if_pos hlen, Itch.readBe_eq (by omega), Itch.readByte_eq hpos]
      rfl
    · rw [if_neg hlen]
      rfl

/-- The reference of an answer whose round trip is measured, zero for another answer. -/
def measuredRef (ouch : List UInt8) : Option ℕ := do
  let type ← readByte ouch 0
  if type = 65 ∧ 64 ≤ ouch.length then readBe ouch 9 4        -- 'A'
  else if type = 85 ∧ 68 ≤ ouch.length then readBe ouch 13 4  -- 'U'
  else return 0

/-- The measurement reads an answer that is not empty in its bounds, and an empty one out of them. -/
theorem measuredRef_eq_none {ouch : List UInt8} : measuredRef ouch = none ↔ ouch = [] := by
  constructor
  · intro h
    by_contra hnil
    unfold measuredRef at h
    rw [Itch.readByte_eq (List.length_pos_iff.mpr hnil)] at h
    simp only [Option.bind_eq_bind, Option.bind_some] at h
    split_ifs at h with hA hU
    · rw [Itch.readBe_eq (by omega)] at h
      cases h
    · rw [Itch.readBe_eq (by omega)] at h
      cases h
  · rintro rfl
    rw [measuredRef, Itch.readByte_nil]
    rfl

/-- `recordAck`. -/
def recordAck (swTiming : Bool) (ouch : List UInt8) : Option ℕ := if swTiming then measuredRef ouch else some 0

theorem recordAck_eq_none {swTiming : Bool} {ouch : List UInt8} : recordAck swTiming ouch = none ↔ swTiming = true ∧ ouch = [] := by
  cases swTiming with
  | false => exact ⟨fun h => (by cases h), fun h => (by cases h.1)⟩
  | true => exact measuredRef_eq_none.trans (and_iff_right rfl).symm

variable {S : Type}

/-- `applyAck`. -/
def DutSession.boundedApplyAck (d : DutSession S) (ouch : List UInt8) : Option (DutSession S) := do
  let oms ← d.oms.boundedOnAck ouch
  return { d with
    oms := oms
    topSeen := match oms.ackSym with
      | some sym => if sym < d.books.hotCount then Function.update d.topSeen sym kDirtyTop else d.topSeen
      | none => d.topSeen }

theorem DutSession.boundedApplyAck_eq (d : DutSession S) (ouch : List UInt8) : d.boundedApplyAck ouch = some (d.applyAck ouch) := by
  rw [boundedApplyAck, OrderManager.boundedOnAck_eq]
  rfl

/-- An answer of the stream without a byte. -/
def EmptyAnswer (p : Packet) : Prop := p.type = PacketType.sequencedData.code ∧ p.payload = []

instance (p : Packet) : Decidable (EmptyAnswer p) := by unfold EmptyAnswer; infer_instance

/-! ### The order-entry stream, read by the session -/

/-- The body of the loop of `onOrderEntry`. -/
def AckEntry.boundedHandleSoup (swTiming : Bool) (e : AckEntry S) (p : Packet) : Option (AckEntry S) :=
  let e := { e with handled := e.handled ++ [p] }
  if p.type = PacketType.loginAccepted.code then some { e with loggedIn := true }
  else if p.type = PacketType.sequencedData.code then do
    let _ ← recordAck swTiming p.payload
    let session ← e.session.boundedApplyAck p.payload
    return { e with session := session }
  else some e

theorem AckEntry.boundedHandleSoup_eq (swTiming : Bool) (e : AckEntry S) (p : Packet) :
    e.boundedHandleSoup swTiming p = if swTiming = true ∧ EmptyAnswer p then none else some (e.handleSoup p) := by
  unfold boundedHandleSoup handleSoup
  simp only [DutSession.boundedApplyAck_eq, Option.bind_eq_bind, Option.bind_some]
  by_cases hlogin : p.type = PacketType.loginAccepted.code
  · have hno : ¬ EmptyAnswer p := fun h => by cases hlogin.symm.trans h.1
    rw [if_pos hlogin, if_pos hlogin, if_neg fun h => hno h.2]
  rw [if_neg hlogin, if_neg hlogin]
  by_cases hdata : p.type = PacketType.sequencedData.code
  · rw [if_pos hdata, if_pos hdata]
    by_cases hbad : swTiming = true ∧ EmptyAnswer p
    · rw [if_pos hbad, recordAck_eq_none.mpr ⟨hbad.1, hbad.2.2⟩]
      rfl
    · obtain ⟨ref, href⟩ := Option.ne_none_iff_exists'.mp fun h => hbad ⟨(recordAck_eq_none.mp h).1, hdata, (recordAck_eq_none.mp h).2⟩
      rw [if_neg hbad, href]
      rfl
  · rw [if_neg hdata, if_neg hdata, if_neg fun h => hdata h.2.1]

/-! ### The order-entry stream, read by the thread of the orders -/

/-- What the loop of `orderReadAcks` changes. -/
structure OrderThread where
  loggedIn : Bool
  /-- The answers that the session has not taken yet. -/
  ackQ : List (List UInt8)

/-- The room for an answer in the queue. -/
def kAckPayload : ℕ := 128

/-- The body of the loop of `orderReadAcks`. The queue is waited for while it is full. -/
def OrderThread.handleSoup (o : OrderThread) (p : Packet) : OrderThread :=
  if p.type = PacketType.loginAccepted.code then { o with loggedIn := true }
  else if p.type = PacketType.sequencedData.code ∧ p.payload.length ≤ kAckPayload then { o with ackQ := o.ackQ ++ [p.payload] }
  else o

/-- The same with the bytes that it reads. -/
def OrderThread.boundedHandleSoup (swTiming : Bool) (o : OrderThread) (p : Packet) : Option OrderThread :=
  if p.type = PacketType.loginAccepted.code then some { o with loggedIn := true }
  else if p.type = PacketType.sequencedData.code ∧ p.payload.length ≤ kAckPayload then do
    let _ ← recordAck swTiming p.payload
    let a ← readBytes p.payload 0 p.payload.length
    return { o with ackQ := o.ackQ ++ [a] }
  else some o

theorem OrderThread.boundedHandleSoup_eq (swTiming : Bool) (o : OrderThread) (p : Packet) :
    o.boundedHandleSoup swTiming p = if swTiming = true ∧ EmptyAnswer p then none else some (o.handleSoup p) := by
  unfold boundedHandleSoup handleSoup
  rw [Itch.readBytes_eq (by omega), List.drop_zero, List.take_length]
  simp only [Option.bind_eq_bind, Option.bind_some]
  by_cases hlogin : p.type = PacketType.loginAccepted.code
  · have hno : ¬ EmptyAnswer p := fun h => by cases hlogin.symm.trans h.1
    rw [if_pos hlogin, if_pos hlogin, if_neg fun h => hno h.2]
  rw [if_neg hlogin, if_neg hlogin]
  by_cases hdata : p.type = PacketType.sequencedData.code ∧ p.payload.length ≤ kAckPayload
  · rw [if_pos hdata, if_pos hdata]
    by_cases hbad : swTiming = true ∧ EmptyAnswer p
    · rw [if_pos hbad, recordAck_eq_none.mpr ⟨hbad.1, hbad.2.2⟩]
      rfl
    · obtain ⟨ref, href⟩ :=
        Option.ne_none_iff_exists'.mp fun h => hbad ⟨(recordAck_eq_none.mp h).1, hdata.1, (recordAck_eq_none.mp h).2⟩
      rw [if_neg hbad, href]
      rfl
  · have hno : ¬ EmptyAnswer p := fun h => hdata ⟨h.1, by rw [h.2]; exact Nat.zero_le _⟩
    rw [if_neg hdata, if_neg hdata, if_neg fun h => hno h.2]

/-! ### Whatever comes in -/

/-- The DUT with what it keeps of the order-entry stream. -/
structure Receiver (S : Type) where
  entry : AckEntry S
  /-- What `onOrderEntry` has not used yet. -/
  rx : List UInt8 := []
  /-- What `orderReadAcks` has not used yet. -/
  stream : List UInt8 := []
  ackQ : List (List UInt8) := []

/-- What the DUT takes in. -/
inductive Intake where
  /-- A datagram of the feed; `slow` if the DUT takes long over it. -/
  | marketData (pkt : List UInt8) (slow : Bool)
  /-- A stretch of the order-entry stream, for the session. -/
  | orderEntry (data : List UInt8)
  /-- A stretch of the order-entry stream, for the thread of the orders. -/
  | orderRead (data : List UInt8)
  /-- A datagram on the port of the answers. -/
  | ackDatagram (payload : List UInt8)
  /-- The session takes an answer from the thread of the orders. -/
  | queuedAck
  /-- The thread of the cold shard takes a frame. -/
  | coldFrame

namespace Receiver

/-- Change the session. -/
def setSession (r : Receiver S) (d : DutSession S) : Receiver S := { r with entry := { r.entry with session := d } }

/-- `poll` with an answer: a login is a packet of the stream, whose first byte is zero. -/
def ackDatagram (r : Receiver S) (payload : List UInt8) : Receiver S :=
  if payload = [] then r
  else if byteAt payload 0 = 0 then
    match Soup.parse payload with
    | some (_, p) => if p.type = PacketType.loginAccepted.code then { r with entry := { r.entry with loggedIn := true } } else r
    | none => r
  else r.setSession (r.entry.session.applyAck payload)

/-- The same with the bytes that it reads. -/
def boundedAckDatagram (swTiming : Bool) (r : Receiver S) (payload : List UInt8) : Option (Receiver S) :=
  if payload = [] then some r
  else do
    let first ← readByte payload 0
    if first = 0 then do
      match ← Soup.boundedParse payload with
      | some (_, p) =>
          return if p.type = PacketType.loginAccepted.code then { r with entry := { r.entry with loggedIn := true } } else r
      | none => return r
    else do
      let _ ← recordAck swTiming payload
      let session ← r.entry.session.boundedApplyAck payload
      return r.setSession session

theorem boundedAckDatagram_eq (swTiming : Bool) (r : Receiver S) (payload : List UInt8) :
    r.boundedAckDatagram swTiming payload = some (r.ackDatagram payload) := by
  unfold boundedAckDatagram ackDatagram
  by_cases hnil : payload = []
  · rw [if_pos hnil, if_pos hnil]
  have hread : recordAck swTiming payload ≠ none := fun h => hnil (recordAck_eq_none.mp h).2
  obtain ⟨ref, href⟩ := Option.ne_none_iff_exists'.mp hread
  rw [if_neg hnil, if_neg hnil, Itch.readByte_eq (List.length_pos_iff.mpr hnil), Soup.boundedParse_eq]
  simp only [Option.bind_eq_bind, Option.bind_some, href, DutSession.boundedApplyAck_eq]
  by_cases hlogin : byteAt payload 0 = 0
  · rw [if_pos hlogin, if_pos hlogin]
    cases Soup.parse payload <;> rfl
  · rw [if_neg hlogin, if_neg hlogin]
    rfl

section

variable [Strategy S]

/-- Take something in. -/
def take (r : Receiver S) : Intake → Receiver S
  | .marketData pkt _ => r.setSession (r.entry.session.applyPacket pkt)
  | .orderEntry data =>
      let (entry, rx) := framing.feed AckEntry.handleSoup (r.entry, r.rx) data
      { r with entry := entry, rx := rx }
  | .orderRead data =>
      let (o, stream) := framing.feed OrderThread.handleSoup (⟨r.entry.loggedIn, r.ackQ⟩, r.stream) data
      { r with entry := { r.entry with loggedIn := o.loggedIn }, stream := stream, ackQ := o.ackQ }
  | .ackDatagram payload => r.ackDatagram payload
  | .queuedAck =>
      match r.ackQ with
      | [] => r
      | a :: ackQ => { r.setSession (r.entry.session.applyAck a) with ackQ := ackQ }
  | .coldFrame => r.setSession { r.entry.session with cold := r.entry.session.cold.map ColdShard.consume }

/-- The same with the bytes that are read. -/
def boundedTake (swTiming : Bool) (r : Receiver S) : Intake → Option (Receiver S)
  | .marketData pkt slow => do
      let session ← DutSession.boundedApplyPacket swTiming slow r.entry.session pkt
      return r.setSession session
  | .orderEntry data => do
      let (entry, rx) ← Soup.boundedFeed (AckEntry.boundedHandleSoup swTiming) r.entry r.rx data
      return { r with entry := entry, rx := rx }
  | .orderRead data => do
      let (o, stream) ← Soup.boundedFeed (OrderThread.boundedHandleSoup swTiming) ⟨r.entry.loggedIn, r.ackQ⟩ r.stream data
      return { r with entry := { r.entry with loggedIn := o.loggedIn }, stream := stream, ackQ := o.ackQ }
  | .ackDatagram payload => r.boundedAckDatagram swTiming payload
  | .queuedAck =>
      match r.ackQ with
      | [] => some r
      | a :: ackQ => do
          let session ← r.entry.session.boundedApplyAck a
          return { r.setSession session with ackQ := ackQ }
  | .coldFrame =>
      match r.entry.session.cold with
      | none => some r
      | some c => do
          let c ← c.boundedConsume
          return r.setSession { r.entry.session with cold := some c }

/-- The packets of the order-entry stream that something taken in completes. -/
def completed (r : Receiver S) : Intake → List Packet
  | .orderEntry data => framing.frames (r.rx ++ data)
  | .orderRead data => framing.frames (r.stream ++ data)
  | _ => []

/-- One step: it reads outside of a message if and only if it completes an empty answer, in a build with software timing. -/
theorem boundedTake_eq (swTiming : Bool) (r : Receiver S) (i : Intake) :
    r.boundedTake swTiming i = if ∃ p ∈ r.completed i, swTiming = true ∧ EmptyAnswer p then none else some (r.take i) := by
  have hquiet : r.completed i = [] → some (r.take i) =
      if ∃ p ∈ r.completed i, swTiming = true ∧ EmptyAnswer p then none else some (r.take i) := by
    intro h
    rw [h]
    exact (if_neg fun ⟨_, hp, _⟩ => by cases hp).symm
  cases i with
  | marketData pkt slow =>
      rw [← hquiet rfl, boundedTake, DutSession.boundedApplyPacket_eq]
      rfl
  | orderEntry data =>
      rw [boundedTake, Soup.boundedFeed_guard (AckEntry.boundedHandleSoup_eq swTiming), completed]
      split_ifs <;> rfl
  | orderRead data =>
      rw [boundedTake, Soup.boundedFeed_guard (OrderThread.boundedHandleSoup_eq swTiming), completed]
      split_ifs <;> rfl
  | ackDatagram payload =>
      rw [← hquiet rfl, boundedTake, boundedAckDatagram_eq]
      rfl
  | queuedAck =>
      rw [← hquiet rfl, boundedTake, take]
      rcases r.ackQ with _ | ⟨a, ackQ⟩
      · rfl
      · simp only [DutSession.boundedApplyAck_eq]
        rfl
  | coldFrame =>
      rw [← hquiet rfl, boundedTake, take]
      cases hcold : r.entry.session.cold with
      | none =>
          simp only [Option.map_none]
          rw [← hcold]
          rfl
      | some c =>
          simp only [ColdShard.boundedConsume_eq]
          rfl

/-- The stretches for the session, as one. -/
def entryBytes (ins : List Intake) : List UInt8 := ins.flatMap fun | .orderEntry data => data | _ => []

/-- The stretches for the thread of the orders, as one. -/
def threadBytes (ins : List Intake) : List UInt8 := ins.flatMap fun | .orderRead data => data | _ => []

/-- The packets of the order-entry stream that are complete after a run, from these kept bytes on. -/
def packets (rx stream : List UInt8) (ins : List Intake) : List Packet :=
  framing.frames (rx ++ entryBytes ins) ++ framing.frames (stream ++ threadBytes ins)

/-- The bytes that the session keeps. -/
theorem rx_take (r : Receiver S) (i : Intake) : (r.take i).rx = match i with
    | .orderEntry data => framing.rest (r.rx ++ data)
    | _ => r.rx := by
  cases i with
  | orderEntry data =>
      rw [take, framing.feed_eq]
  | ackDatagram payload =>
      simp only [take, ackDatagram]
      split_ifs
      · rfl
      · split
        · split_ifs <;> rfl
        · rfl
      · rfl
  | queuedAck =>
      rw [take]
      cases r.ackQ <;> rfl
  | marketData | orderRead | coldFrame => rfl

/-- The bytes that the thread of the orders keeps. -/
theorem stream_take (r : Receiver S) (i : Intake) : (r.take i).stream = match i with
    | .orderRead data => framing.rest (r.stream ++ data)
    | _ => r.stream := by
  cases i with
  | orderRead data =>
      rw [take, framing.feed_eq]
  | ackDatagram payload =>
      simp only [take, ackDatagram]
      split_ifs
      · rfl
      · split
        · split_ifs <;> rfl
        · rfl
      · rfl
  | queuedAck =>
      rw [take]
      cases r.ackQ <;> rfl
  | marketData | orderEntry | coldFrame => rfl

/-- What a step completes is no more to come. -/
theorem mem_packets_cons (r : Receiver S) (i : Intake) (ins : List Intake) (p : Packet) :
    p ∈ packets r.rx r.stream (i :: ins) ↔ p ∈ r.completed i ∨ p ∈ packets (r.take i).rx (r.take i).stream ins := by
  rw [rx_take, stream_take]
  unfold packets
  cases i with
  | orderEntry data =>
      have hbytes : entryBytes (.orderEntry data :: ins) = data ++ entryBytes ins := rfl
      have hthread : threadBytes (.orderEntry data :: ins) = threadBytes ins := rfl
      rw [hbytes, hthread, ← List.append_assoc, framing.frames_append, List.append_assoc, List.mem_append, completed]
  | orderRead data =>
      have hbytes : entryBytes (.orderRead data :: ins) = entryBytes ins := rfl
      have hthread : threadBytes (.orderRead data :: ins) = data ++ threadBytes ins := rfl
      rw [hbytes, hthread, ← List.append_assoc, framing.frames_append (r.stream ++ data), completed]
      simp only [List.mem_append]
      exact or_left_comm
  | marketData | ackDatagram | queuedAck | coldFrame => exact (or_iff_right List.not_mem_nil).symm

/-- What is kept holds no complete packet. -/
structure Drained (r : Receiver S) : Prop where
  rx : framing.parse r.rx = none
  stream : framing.parse r.stream = none

theorem Drained.take {r : Receiver S} (h : r.Drained) (i : Intake) : (r.take i).Drained := by
  constructor
  · rw [rx_take]
    cases i with
    | orderEntry data => exact framing.parse_rest _
    | marketData | orderRead | ackDatagram | queuedAck | coldFrame => exact h.rx
  · rw [stream_take]
    cases i with
    | orderRead data => exact framing.parse_rest _
    | marketData | orderEntry | ackDatagram | queuedAck | coldFrame => exact h.stream

/-- The run: it reads outside of a message if and only if an empty answer comes, in a build with software timing. -/
theorem foldlM_boundedTake (swTiming : Bool) (ins : List Intake) {r : Receiver S} (h : r.Drained) :
    ins.foldlM (boundedTake swTiming) r =
      if ∃ p ∈ packets r.rx r.stream ins, swTiming = true ∧ EmptyAnswer p then none else some (ins.foldl Receiver.take r) := by
  induction ins generalizing r with
  | nil =>
      have hempty : packets r.rx r.stream [] = [] := by
        rw [packets, entryBytes, threadBytes, List.flatMap_nil, List.flatMap_nil, List.append_nil, List.append_nil,
          framing.frames_of_none h.rx, framing.frames_of_none h.stream, List.append_nil]
      rw [hempty]
      exact (if_neg fun ⟨_, hp, _⟩ => by cases hp).symm
  | cons i ins ih =>
      have hiff : (∃ p ∈ packets r.rx r.stream (i :: ins), swTiming = true ∧ EmptyAnswer p) ↔
          (∃ p ∈ r.completed i, swTiming = true ∧ EmptyAnswer p) ∨
            ∃ p ∈ packets (r.take i).rx (r.take i).stream ins, swTiming = true ∧ EmptyAnswer p := by
        simp only [mem_packets_cons, or_and_right, exists_or]
      rw [List.foldlM_cons, boundedTake_eq]
      by_cases hnow : ∃ p ∈ r.completed i, swTiming = true ∧ EmptyAnswer p
      · rw [if_pos hnow, if_pos (hiff.mpr (.inl hnow))]
        rfl
      · rw [if_neg hnow, List.foldl_cons]
        simp only [hiff, or_iff_right hnow]
        exact ih (h.take i)

end

end Receiver

/-- **The DUT reads in bounds**, whatever comes in and in whatever order, and from any session on: every read of the run lies in the
message that it belongs to, and the run is that of the session, if and only if the build has no software timing or no answer in the
order-entry stream is empty. -/
theorem inbound_in_bounds_iff [Strategy S] (swTiming : Bool) (d : DutSession S) (ins : List Intake) :
    ins.foldlM (Receiver.boundedTake swTiming) { entry := { session := d } } =
        some (ins.foldl Receiver.take { entry := { session := d } }) ↔
      (swTiming = true → ∀ p ∈ Receiver.packets [] [] ins, ¬ EmptyAnswer p) := by
  have hdrained : Receiver.Drained ({ entry := { session := d } } : Receiver S) := ⟨framing.parse_nil, framing.parse_nil⟩
  rw [Receiver.foldlM_boundedTake swTiming ins hdrained]
  constructor
  · intro h hsw p hp hempty
    rw [if_pos ⟨p, hp, hsw, hempty⟩] at h
    cases h
  · intro h
    exact if_neg fun ⟨p, hp, hsw, hempty⟩ => h hsw p hp hempty

/-- The order-entry stream may bring an answer without a byte: then software timing reads behind it, in either reader. -/
theorem empty_answer_read :
    [Intake.orderEntry [0, 1, 83]].foldlM (Receiver.boundedTake true) { entry := { session := DutSession.oneSymbol false [] } } = none ∧
      [Intake.orderRead [0, 1, 83]].foldlM (Receiver.boundedTake true) { entry := { session := DutSession.oneSymbol false [] } } =
        none := by
  have hparse : framing.parse [0, 1, 83] = some (3, ⟨83, []⟩) := by decide
  have hempty : ∃ p ∈ framing.frames ([] ++ [0, 1, 83]), true = true ∧ EmptyAnswer p := by
    rw [List.nil_append, framing.frames_of_some hparse]
    exact ⟨_, List.mem_cons_self, rfl, rfl, rfl⟩
  constructor
  · rw [List.foldlM_cons, Receiver.boundedTake_eq, Receiver.completed, if_pos hempty]
    rfl
  · rw [List.foldlM_cons, Receiver.boundedTake_eq, Receiver.completed, if_pos hempty]
    rfl

end TickToTrade.Dut
