import TickToTrade.Dut.DutSession
import TickToTrade.Protocol.SoupBinTcp
import TickToTrade.Sim.ExchangeSession

/-!
# The order-entry stream

The client's requests and the exchange's answers come as streams of packets, and each end reads
its stream in pieces of any lengths. Both ends keep what they have not used yet, take every packet
that is complete, and keep the rest for the next piece.

## What is proved

* `chunking_unseen` — at both ends the packets handled and the bytes kept are those of the whole
  stream, however it was cut; and what was packed is handled as it was.
-/

namespace TickToTrade

open Soup (Packet PacketType framing)

namespace Sim

/-- What `handleSoup` reads and changes. -/
structure OrderEntry where
  session : ExchangeSession
  /-- The name of the session, `m_cfg.session`. -/
  name : List UInt8
  logins : ℕ := 0
  unknown : ℕ := 0
  /-- The packets that answer a login or a logout. -/
  replies : List (List UInt8) := []
  /-- The packets handled, in their order. -/
  handled : List Packet := []

/-- The end of the stream at the exchange. -/
structure OrderEntryStream where
  entry : OrderEntry
  /-- What is not used yet. -/
  rxBuf : List UInt8 := []
  oePackets : ℕ := 0

namespace OrderEntry

/-- `m_outSeq`: the sequence number of the next answer. -/
def outSeq (e : OrderEntry) : ℕ :=
  (1 + (e.session.out.filter fun o => match o with | .venue (.orderEntry _) => true | _ => false).length) % 2 ^ 64

/-- `dispatchOuch`, of a payload. -/
def dispatchOuch (e : OrderEntry) (payload : List UInt8) : OrderEntry :=
  if payload = [] then e
  else
    match Ouch.decodeIn payload with
    | some m => { e with session := e.session.dispatchOuch m }
    | none => { e with unknown := e.unknown + 1 }

/-- `handleSoup`. -/
def handleSoup (e : OrderEntry) (p : Packet) : OrderEntry :=
  let e := { e with handled := e.handled ++ [p] }
  if p.type = PacketType.loginRequest.code then
    { e with logins := e.logins + 1, replies := e.replies ++ [Soup.packLoginAccepted e.name e.outSeq] }
  else if p.type = PacketType.unsequencedData.code then e.dispatchOuch p.payload
  else if p.type = PacketType.logoutRequest.code then { e with replies := e.replies ++ [Soup.packEndOfSession] }
  else e

end OrderEntry

/-- `onOrderEntryBytes`. -/
def OrderEntryStream.onOrderEntryBytes (x : OrderEntryStream) (data : List UInt8) : OrderEntryStream :=
  let (entry, rxBuf) := framing.feed OrderEntry.handleSoup (x.entry, x.rxBuf) data
  { entry := entry, rxBuf := rxBuf, oePackets := x.oePackets + 1 }

end Sim

namespace Dut

/-- What the loop of `onOrderEntry` changes. -/
structure AckEntry (S : Type) where
  session : DutSession S
  loggedIn : Bool := false
  /-- The packets handled, in their order. -/
  handled : List Packet := []

/-- The end of the stream at the DUT. -/
structure AckStream (S : Type) where
  entry : AckEntry S
  /-- What is not used yet. -/
  rx : List UInt8 := []

variable {S : Type}

/-- The body of the loop: an answer goes to the order manager. -/
def AckEntry.handleSoup (e : AckEntry S) (p : Packet) : AckEntry S :=
  let e := { e with handled := e.handled ++ [p] }
  if p.type = PacketType.loginAccepted.code then { e with loggedIn := true }
  else if p.type = PacketType.sequencedData.code then { e with session := e.session.applyAck p.payload }
  else e

/-- `onOrderEntry`. -/
def AckStream.onOrderEntry (x : AckStream S) (data : List UInt8) : AckStream S :=
  let (entry, rx) := framing.feed AckEntry.handleSoup (x.entry, x.rx) data
  { entry := entry, rx := rx }

end Dut

/-! ### Pieces -/

/-- **Reading does not depend on the pieces**: the packets handled and the bytes kept are those of the stream, and packed packets are
handled as they are, with nothing kept. -/
structure Unchunked {σ : Type} (read : σ → List UInt8 → σ) (handled : σ → List Packet) (kept : σ → List UInt8) (x : σ) : Prop where
  same : ∀ pieces pieces' : List (List UInt8), pieces.flatten = pieces'.flatten →
    handled (pieces.foldl read x) = handled (pieces'.foldl read x) ∧ kept (pieces.foldl read x) = kept (pieces'.foldl read x)
  packed : ∀ (packets : List Packet) (pieces : List (List UInt8)), (∀ p ∈ packets, p.payload.length ≤ 65534) →
    pieces.flatten = packets.flatMap Packet.bytes →
    handled (pieces.foldl read x) = handled x ++ packets ∧ kept (pieces.foldl read x) = []

/-- A reader that handles the packets of the whole stream. -/
theorem unchunked_of_frames {σ : Type} {read : σ → List UInt8 → σ} {handled : σ → List Packet} {kept : σ → List UInt8} {x : σ}
    (h : ∀ pieces : List (List UInt8), handled (pieces.foldl read x) = handled x ++ framing.frames pieces.flatten ∧
      kept (pieces.foldl read x) = framing.rest pieces.flatten) : Unchunked read handled kept x where
  same pieces pieces' hflat := by
    rw [(h pieces).1, (h pieces).2, (h pieces').1, (h pieces').2, hflat]
    exact ⟨rfl, rfl⟩
  packed packets pieces hlen hflat := by
    obtain ⟨hframes, hrest⟩ := Soup.framing_packs packets hlen
    rw [(h pieces).1, (h pieces).2, hflat, hframes, hrest]
    exact ⟨rfl, rfl⟩

namespace Sim

theorem OrderEntry.handled_handleSoup (e : OrderEntry) (p : Packet) : (e.handleSoup p).handled = e.handled ++ [p] := by
  unfold handleSoup dispatchOuch
  simp only
  split_ifs <;> (try split) <;> rfl

theorem OrderEntry.handled_foldl (ps : List Packet) (e : OrderEntry) : (ps.foldl handleSoup e).handled = e.handled ++ ps := by
  induction ps generalizing e with
  | nil => exact (List.append_nil _).symm
  | cons p ps ih => rw [List.foldl_cons, ih, handled_handleSoup, List.append_assoc, List.singleton_append]

/-- The reads of the exchange, without their number. -/
theorem OrderEntryStream.foldl_eq (pieces : List (List UInt8)) (x : OrderEntryStream) :
    ((pieces.foldl onOrderEntryBytes x).entry, (pieces.foldl onOrderEntryBytes x).rxBuf) =
      pieces.foldl (framing.feed OrderEntry.handleSoup) (x.entry, x.rxBuf) := by
  induction pieces generalizing x with
  | nil => rfl
  | cons piece pieces ih => exact ih (x.onOrderEntryBytes piece)

end Sim

namespace Dut

variable {S : Type}

theorem AckEntry.handled_handleSoup (e : AckEntry S) (p : Packet) : (e.handleSoup p).handled = e.handled ++ [p] := by
  unfold handleSoup
  simp only
  split_ifs <;> rfl

theorem AckEntry.handled_foldl (ps : List Packet) (e : AckEntry S) : (ps.foldl handleSoup e).handled = e.handled ++ ps := by
  induction ps generalizing e with
  | nil => exact (List.append_nil _).symm
  | cons p ps ih => rw [List.foldl_cons, ih, handled_handleSoup, List.append_assoc, List.singleton_append]

/-- The reads of the DUT. -/
theorem AckStream.foldl_eq (pieces : List (List UInt8)) (x : AckStream S) :
    ((pieces.foldl onOrderEntry x).entry, (pieces.foldl onOrderEntry x).rx) =
      pieces.foldl (framing.feed AckEntry.handleSoup) (x.entry, x.rx) := by
  induction pieces generalizing x with
  | nil => rfl
  | cons piece pieces ih => exact ih (x.onOrderEntry piece)

end Dut

/-- **The order-entry stream may be cut anywhere**: at the exchange and at the DUT, from any state of the session on. -/
theorem chunking_unseen {S : Type} (e : Sim.OrderEntry) (d : Dut.AckEntry S) :
    Unchunked Sim.OrderEntryStream.onOrderEntryBytes (fun x => x.entry.handled) (fun x => x.rxBuf) { entry := e } ∧
      Unchunked Dut.AckStream.onOrderEntry (fun x => x.entry.handled) (fun x => x.rx) { entry := d } := by
  constructor
  · refine unchunked_of_frames fun pieces => ?_
    have hread := Sim.OrderEntryStream.foldl_eq pieces { entry := e }
    rw [framing.feeds_eq _ pieces e framing.parse_nil, List.nil_append] at hread
    obtain ⟨hentry, hkept⟩ := Prod.ext_iff.mp hread
    exact ⟨(congrArg Sim.OrderEntry.handled hentry).trans (Sim.OrderEntry.handled_foldl _ e), hkept⟩
  · refine unchunked_of_frames fun pieces => ?_
    have hread := Dut.AckStream.foldl_eq pieces { entry := d }
    rw [framing.feeds_eq _ pieces d framing.parse_nil, List.nil_append] at hread
    obtain ⟨hentry, hkept⟩ := Prod.ext_iff.mp hread
    exact ⟨(congrArg Dut.AckEntry.handled hentry).trans (Dut.AckEntry.handled_foldl _ d), hkept⟩

end TickToTrade
