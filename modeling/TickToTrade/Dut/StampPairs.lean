import TickToTrade.Dut.SessionRuns
import TickToTrade.Dut.SocketStamps

/-!
# The latency samples of a session

A session of the transport keeps its stamps itself (`HwSession`). With sockets the orders go through a
queue to a thread of their own, and that thread keeps them (`OrderLoop`). In both the samples pair the
right stamps as long as no stamp comes for a timed send that has lost its places (`stamps_paired`).
A send loses them to the cancel of its own order, if the cancel is the first order of a packet: it has
the same reference (`cancel_takes_place`).
-/

namespace TickToTrade.Dut

open Util

variable {S : Type} [Strategy S]

/-! ### The orders of a step -/

/-- The order that the transport took. -/
def Event.sentOut : Event → Option Outbound
  | .produced _ out true => some out
  | _ => none

/-- The orders that a step sends. -/
def DutSession.sentBy (d : DutSession S) (i : DutSession.Input) : List Outbound :=
  ((d.step i).log.drop d.log.length).filterMap Event.sentOut

/-- The stamp that the first order of an input is timed from: that of a packet of the feed. -/
def DutSession.Input.trigger (rxStamp : ℕ) : DutSession.Input → Option ℕ
  | .packet _ => some rxStamp
  | _ => none

/-- The orders that a step sends, the first one with the stamp that it is timed from. -/
def DutSession.requests (d : DutSession S) (i : DutSession.Input) (rxStamp : ℕ) : List (Outbound × Option ℕ) :=
  match d.sentBy i with
  | [] => []
  | out :: outs => (out, i.trigger rxStamp) :: outs.map fun out => (out, none)

/-! ### The transport -/

/-- A session of the transport with its stamps. -/
structure HwSession (S : Type) where
  session : DutSession S
  stamps : Stamps := {}
  /-- The number of frames sent. -/
  commits : ℕ := 0
  /-- `txSequence` of the transport after this many frames. -/
  txSequence : ℕ → ℕ

/-- What can happen to it. -/
inductive HwInput where
  /-- Something happens to the session; a packet of the feed has a receive stamp. -/
  | use (i : DutSession.Input) (rxStamp : ℕ)
  /-- A login is sent. -/
  | login
  /-- A transmit stamp is taken from the transport. -/
  | txStamp (seq minor : ℕ)

namespace HwSession

/-- The sends and the stamps of an input. -/
def deeds (d : HwSession S) : HwInput → List Deed
  | .use i rxStamp => (d.session.requests i rxStamp).zipIdx.map fun r => .send (d.txSequence (d.commits + r.2)) r.1.1.userRef r.1.2
  | .login => []
  | .txStamp seq minor => [.stamp seq minor]

/-- One step. -/
def step (d : HwSession S) (u : HwInput) : HwSession S :=
  let stamps := (d.deeds u).foldl Stamps.step d.stamps
  match u with
  | .use i rxStamp =>
      { d with session := d.session.step i, stamps := stamps, commits := d.commits + (d.session.requests i rxStamp).length }
  | .login => { d with commits := d.commits + 1 }
  | .txStamp .. => { d with stamps := stamps }

/-- One step, while the sends are watched. -/
def watch (x : HwSession S × Watch) (u : HwInput) : HwSession S × Watch := (x.1.step u, (x.1.deeds u).foldl Watch.step x.2)

/-- No stamp of the step comes for a timed send that is no longer held. -/
def Clear (x : HwSession S × Watch) (u : HwInput) : Prop := Along Watch.step Watch.Clear x.2 (x.1.deeds u)

instance (x : HwSession S × Watch) (u : HwInput) : Decidable (Clear x u) := inferInstanceAs (Decidable (Along _ _ _ _))

theorem step_stamps (d : HwSession S) (u : HwInput) : (d.step u).stamps = (d.deeds u).foldl Stamps.step d.stamps := by
  cases u <;> rfl

/-- A step keeps the tables in agreement. -/
theorem tracks_watch {x : HwSession S × Watch} {u : HwInput} (h : x.1.stamps.Tracks x.2) (hclear : Clear x u) :
    (watch x u).1.stamps.Tracks (watch x u).2 := by
  show (x.1.step u).stamps.Tracks _
  rw [step_stamps]
  exact h.run _ hclear

end HwSession

/-! ### The thread of the socket -/

/-- The length of an order. -/
def Outbound.len (out : Outbound) : ℕ :=
  match out.msg with
  | .enterOrder _ => 47
  | .replaceOrder _ => 40
  | .cancelOrder _ => 11

/-- The length of the packet that an order is sent in. -/
def Outbound.packet (out : Outbound) : PacketSize where
  bytes := 3 + out.len
  pos := by omega
  fits := by
    unfold len
    split <;> decide

/-- The length of the packet of a login. -/
def loginPacket : PacketSize := ⟨3 + 46, by decide, by decide⟩

/-- A session with sockets and the thread that has the connection to the venue. -/
structure OrderLoop (S : Type) where
  session : DutSession S
  /-- The orders that the thread is to send, and the stamps that they are timed from. -/
  sendQ : List (Outbound × Option ℕ) := []
  thread : OrderThreadState := {}

/-- What can happen to the two. -/
inductive OrderInput where
  /-- Something happens to the session; a packet of the feed has a receive stamp. With sockets there are no test orders. -/
  | use (i : DutSession.Input) (rxStamp : ℕ)
  /-- A login is sent. -/
  | login
  /-- The thread takes an order from the queue and hands it to the connection, which takes it or not. -/
  | send (ok : Bool)
  /-- The thread takes a transmit stamp from the connection. -/
  | txStamp (key ns : ℕ)

namespace OrderLoop

/-- The sends and the stamps of an input. -/
def deeds (d : OrderLoop S) : OrderInput → List OrderDeed
  | .use .. => []
  | .login => [.send loginPacket kNoRef none]
  | .send ok => if ok then d.sendQ.head?.toList.map fun r => .send r.1.packet r.1.userRef r.2 else []
  | .txStamp key ns => [.stamp key ns]

/-- One step. -/
def step (d : OrderLoop S) (u : OrderInput) : OrderLoop S :=
  let thread := (d.deeds u).foldl OrderThreadState.step d.thread
  match u with
  | .use .testOrder _ => d
  | .use i rxStamp => { d with session := d.session.step i, sendQ := d.sendQ ++ d.session.requests i rxStamp }
  | .send _ => { d with sendQ := d.sendQ.tail, thread := thread }
  | .login | .txStamp .. => { d with thread := thread }

/-- One step, while the sends are watched. -/
def watch (x : OrderLoop S × OrderWatch) (u : OrderInput) : OrderLoop S × OrderWatch :=
  (x.1.step u, (x.1.deeds u).foldl OrderWatch.step x.2)

/-- Every stamp of the step comes for a send that waits for it, and for a timed one while it is held. -/
def Clear (x : OrderLoop S × OrderWatch) (u : OrderInput) : Prop := Along OrderWatch.step OrderWatch.Clear x.2 (x.1.deeds u)

instance (x : OrderLoop S × OrderWatch) (u : OrderInput) : Decidable (Clear x u) := inferInstanceAs (Decidable (Along _ _ _ _))

theorem step_thread (d : OrderLoop S) (u : OrderInput) : (d.step u).thread = (d.deeds u).foldl OrderThreadState.step d.thread := by
  rcases u with (_ | _) | _ | _ | _ <;> rfl

/-- A step keeps the thread in agreement. -/
theorem tracks_watch {x : OrderLoop S × OrderWatch} {u : OrderInput} (h : x.1.thread.Tracks x.2) (hclear : Clear x u) :
    (watch x u).1.thread.Tracks (watch x u).2 := by
  show (x.1.step u).thread.Tracks _
  rw [step_thread]
  exact h.run _ hclear

end OrderLoop

/-! ### Runs -/

/-- **The samples pair the right stamps**, in every run in which each transmit stamp of a timed send comes while the send has its
places: each sample has the receive stamp and the transmit stamp of one send, and no timed send whose transmit stamp has come is
without its sample. -/
theorem stamps_paired (cfg : DutConfig) (strat : S) (link : ℕ → Bool) :
    (∀ (txSequence : ℕ → ℕ) (uses : List HwInput),
      Along HwSession.watch HwSession.Clear (⟨.new cfg strat link, {}, 0, txSequence⟩, {}) uses →
        (uses.foldl HwSession.watch (⟨.new cfg strat link, {}, 0, txSequence⟩, {})).1.stamps.samples =
          (uses.foldl HwSession.watch (⟨.new cfg strat link, {}, 0, txSequence⟩, {})).2.due.map fun x => packHwStamps x.1 x.2) ∧
      ∀ uses : List OrderInput, Along OrderLoop.watch OrderLoop.Clear (⟨.new cfg strat link, [], {}⟩, {}) uses →
        (uses.foldl OrderLoop.watch (⟨.new cfg strat link, [], {}⟩, {})).1.thread.samples =
          (uses.foldl OrderLoop.watch (⟨.new cfg strat link, [], {}⟩, {})).2.due.map fun x => x.2 - x.1 := by
  constructor
  · intro txSequence uses hclear
    have htracks := hclear.keeps (fun h hu => HwSession.tracks_watch h hu) Stamps.tracks_new
    exact htracks.samples
  · intro uses hclear
    have htracks := hclear.keeps (fun h hu => OrderLoop.tracks_watch h hu) OrderThreadState.tracks_new
    exact htracks.samples

/-! ### A run -/

/-- A session that quotes a bid and then nothing. -/
def bidOnce : DutSession DutSession.Script := .new (DutSession.oneSymbol false []).cfg ⟨[DutSession.sampleBid, {}]⟩ fun _ => true

/-- A packet makes the session send the bid. -/
def bidPacket : DutSession.Input := DutSession.packetOf 1 [DutSession.systemEvent 81]

/-- A packet makes the session cancel the bid. -/
def cancelPacket : DutSession.Input := DutSession.packetOf 2 [DutSession.systemEvent 81]

/-- The bid is sent, accepted and cancelled. The stamps come promptly. -/
theorem stamps_paired_bidOnce :
    let uses : List HwInput := [.use bidPacket 10, .txStamp 0 20, .use (DutSession.acceptance 1 5) 0, .use cancelPacket 15, .txStamp 1 40]
    let uses' : List OrderInput := [.login, .txStamp 48 5, .use bidPacket 10, .send true, .txStamp 98 20, .use (DutSession.acceptance 1 5) 0,
      .use cancelPacket 15, .send true, .txStamp 112 40]
    let x := uses.foldl HwSession.watch (⟨bidOnce, {}, 0, fun n => n⟩, {})
    let y := uses'.foldl OrderLoop.watch (⟨bidOnce, [], {}⟩, {})
    x.1.stamps.samples = x.2.due.map (fun x => packHwStamps x.1 x.2) ∧ y.1.thread.samples = y.2.due.map fun x => x.2 - x.1 :=
  ⟨(stamps_paired (DutSession.oneSymbol false []).cfg (DutSession.Script.mk [DutSession.sampleBid, {}]) fun _ => true).1 (fun n => n)
      [.use bidPacket 10, .txStamp 0 20, .use (DutSession.acceptance 1 5) 0, .use cancelPacket 15, .txStamp 1 40] (by decide +kernel),
    (stamps_paired (DutSession.oneSymbol false []).cfg (DutSession.Script.mk [DutSession.sampleBid, {}]) fun _ => true).2
      [.login, .txStamp 48 5, .use bidPacket 10, .send true, .txStamp 98 20, .use (DutSession.acceptance 1 5) 0, .use cancelPacket 15,
        .send true, .txStamp 112 40] (by decide +kernel)⟩

/-- The stamps come late: the cancel has taken the place of the bid. The bid's transmit stamp is put with the receive stamp of the
second packet. The transport then has nothing for the cancel's own transmit stamp, and the thread of the socket uses the receive stamp
once more. -/
theorem cancel_takes_place :
    let uses : List HwInput := [.use bidPacket 10, .use (DutSession.acceptance 1 5) 0, .use cancelPacket 15, .txStamp 0 20, .txStamp 1 40]
    let uses' : List OrderInput := [.login, .txStamp 48 5, .use bidPacket 10, .send true, .use (DutSession.acceptance 1 5) 0,
      .use cancelPacket 15, .send true, .txStamp 98 20, .txStamp 112 40]
    let x := uses.foldl HwSession.watch (⟨bidOnce, {}, 0, fun n => n⟩, {})
    let y := uses'.foldl OrderLoop.watch (⟨bidOnce, [], {}⟩, {})
    x.2.sent = [⟨1, 1, some 15⟩, ⟨0, 1, some 10⟩] ∧ x.2.due = [(10, 20), (15, 40)] ∧ x.1.stamps.samples = [packHwStamps 15 20] ∧
      y.2.due = [(10, 20), (15, 40)] ∧ y.1.thread.samples = [20 - 15, 40 - 15] := by
  decide +kernel

end TickToTrade.Dut
