import TickToTrade.Dut.ColdShard
import TickToTrade.Dut.OrderManager
import TickToTrade.Dut.SequenceTracker

/-!
# The session of the DUT

The session takes in the packets of the feed and the answers of the venue. A packet
goes through the sequence tracker, its messages go to the books, and whenever the top
of a hot symbol's book has changed, or an answer for the symbol has come, the
strategy is asked and the order manager brings the quotes to what it wants. A gap in
the feed, a restart and the limits of market hours make the session quote all hot
symbols at the end of the packet.

Measurements, prefetching and the transport below the order messages are left out;
of the transport the session only sees whether it took a message. What the session
did is kept in `log`, which the program does not have: the properties are about it.
-/

namespace TickToTrade.Dut

/-- What the session asks of a strategy. -/
class Strategy (S : Type) where
  /-- Look at a book: the targets to quote, or `none` for no change. -/
  onBook : S → BookBuilder → Account → Option QuoteTargets × S
  /-- Forget the interval in which nothing is to change. -/
  forget : S → S

/-- `DutConfig`. -/
structure DutConfig where
  /-- The hot symbols. -/
  symbols : List (List UInt8)
  locates : List ℕ := []
  profiles : List SymbolProfile := []
  tickWire : ℤ := 1
  coldBandTicks : ℕ := 2048
  hotBandTicks : ℕ := 8192
  /-- The half width that the price asks for, from the price and the tick. -/
  byPrice : ℤ → ℤ → ℤ := fun _ _ => 0
  coldMapSlots : ℕ := 1024
  hotMapSlots : ℕ := 2 ^ 16
  /-- Are the cold symbols left to a second thread? -/
  coldShard : Bool := false
  coldQueue : ℕ := 8192
  /-- Is quoting limited to market hours? -/
  marketHoursOnly : Bool := false
  ownRefMin : ℕ := 0
  firstUserRef : ℕ := 1

/-- What the session did. -/
inductive Event where
  /-- The `n`-th message of the stream was applied to the books, with this result. -/
  | applied (n : ℕ) (msg : List UInt8) (hot : Option ℕ)
  /-- The strategy of a hot symbol was made to forget. -/
  | forgot (h : ℕ)
  /-- The quotes of a hot symbol were evaluated. -/
  | evaluated (h : ℕ)
  /-- A request was produced for a hot symbol; `ok` if the transport took it. -/
  | produced (h : ℕ) (out : Outbound) (ok : Bool)
deriving DecidableEq, Repr

/-- `DutSession`. -/
structure DutSession (S : Type) where
  cfg : DutConfig
  books : BookTable
  cold : Option ColdShard
  strats : ℕ → S
  oms : OrderManager
  seq : SequenceTracker := {}
  packets : ℕ := 0
  resets : ℕ := 0
  feedFaults : ℕ := 0
  /-- The sequence number of the last packet after a gap. -/
  lastFault : ℕ := 0
  marketOpen : Bool := false
  feedValid : Bool := true
  /-- Are all hot symbols to be quoted at the end of the packet? -/
  reconcileAll : Bool := false
  /-- The top version of each hot symbol's book at its last evaluation. -/
  topSeen : ℕ → ℕ := fun _ => 0
  /-- Which sends the transport takes, from the first on. -/
  link : ℕ → Bool
  /-- The number of sends. -/
  sends : ℕ := 0
  /-- The number of sends that the transport took. -/
  ordersSent : ℕ := 0
  /-- What the session did. -/
  log : List Event := []

namespace DutSession

/-- The mark for a top version that an answer has made void. -/
def kDirtyTop : ℕ := 0xFFFFFFFF

/-- `tableConfigOf`. -/
def tableConfigOf (cfg : DutConfig) (scope : BookScope) : BookTableConfig where
  scope := scope
  tickWire := cfg.tickWire
  coldBandTicks := cfg.coldBandTicks
  hotBandTicks := cfg.hotBandTicks
  byPrice := cfg.byPrice
  coldMapSlots := cfg.coldMapSlots
  hotMapSlots := cfg.hotMapSlots
  ownRefMin := cfg.ownRefMin
  hotSymbols := cfg.symbols
  profiles := cfg.profiles
  hotLocates := cfg.locates

variable {S : Type}

/-- The constructor. -/
def new (cfg : DutConfig) (strat : S) (link : ℕ → Bool) : DutSession S where
  cfg := cfg
  books := BookTable.new (tableConfigOf cfg (if cfg.coldShard then .hotOnly else .all))
  cold := if cfg.coldShard then some (ColdShard.new (tableConfigOf cfg .coldOnly) cfg.coldQueue) else none
  strats _ := strat
  oms := OrderManager.new { symbols := cfg.symbols, firstUserRef := cfg.firstUserRef }
  link := link

/-- May the session quote the hot symbol? -/
def tradingAllowed (d : DutSession S) (h : ℕ) : Bool :=
  d.feedValid && (!d.cfg.marketHoursOnly || (d.marketOpen && d.books.trading h))

/-- Keep what was done. -/
def note (d : DutSession S) (e : Event) : DutSession S := { d with log := d.log ++ [e] }

/-- Hand a request to the transport. -/
def sendOrder (d : DutSession S) (h : ℕ) (out : Outbound) : DutSession S :=
  let ok := d.link d.sends
  { d with
    sends := d.sends + 1
    ordersSent := if ok then d.ordersSent + 1 else d.ordersSent
    log := d.log ++ [.produced h out ok] }

/-! ### Quoting -/

section

variable [Strategy S]

/-- Make the strategy of a hot symbol forget. -/
def forget (d : DutSession S) (h : ℕ) : DutSession S :=
  { d with strats := Function.update d.strats h (Strategy.forget (d.strats h)) }.note (.forgot h)

/-- The second half of `quote`: bring the orders to the targets. -/
def act (d : DutSession S) (h : ℕ) (targets : QuoteTargets) : DutSession S :=
  let (oms, out) := d.oms.reconcile h targets
  out.foldl (fun d out => d.sendOrder h out)
    { d with oms := oms, topSeen := Function.update d.topSeen h (d.books.hotBook h).topVersion }

/-- `quote` while trading is allowed: ask the strategy, and act if it wants a change. -/
def ask (d : DutSession S) (h : ℕ) : DutSession S :=
  let book := d.books.hotBook h
  match Strategy.onBook (d.strats h) book (d.oms.acct h) with
  | (none, strat) =>
      { d with
        strats := Function.update d.strats h strat
        topSeen := Function.update d.topSeen h book.topVersion }
  | (some targets, strat) => { d with strats := Function.update d.strats h strat }.act h targets

/-- Evaluate the quotes of a hot symbol. While trading is not allowed the strategy
forgets and both sides are pulled. -/
def quote (d : DutSession S) (h : ℕ) : DutSession S :=
  if d.tradingAllowed h then (d.note (.evaluated h)).ask h
  else ((d.forget h).note (.evaluated h)).act h {}

/-- Evaluate the quotes of all hot symbols. -/
def quoteAll (d : DutSession S) : DutSession S := (List.range d.books.hotCount).foldl quote d

end

/-! ### Packets -/

/-- A system event: a restart clears the books, and market hours begin and end. -/
def onSystemEvent (d : DutSession S) : Itch.SystemEventCode → DutSession S
  | .startOfMessages =>
      { d with
        books := d.books.clearAll
        marketOpen := false
        feedValid := true
        reconcileAll := true
        resets := d.resets + 1 }
  | .startOfMarketHours => { d with marketOpen := true, reconcileAll := true }
  | .endOfMarketHours => { d with marketOpen := false, reconcileAll := true }
  | _ => d

/-- Messages were lost: the books are void until the next restart. -/
def invalidateFeed (d : DutSession S) (seq : ℕ) : DutSession S :=
  { d with
    feedValid := false
    lastFault := seq
    reconcileAll := true
    feedFaults := d.feedFaults + 1
    books := d.books.clearAll
    cold := d.cold.map ColdShard.reset }

/-- Does a message get to the books? -/
def Admits (d : DutSession S) (msg : List UInt8) : Prop :=
  d.feedValid ∧
    ¬ (d.cold.isSome ∧ Itch.byteAt msg 0 ≠ 82 ∧ !d.books.isHot (Itch.decode msg).locate)

instance (d : DutSession S) (msg : List UInt8) : Decidable (d.Admits msg) := by
  unfold Admits; infer_instance

/-- The last part of `applyMessage`: hand a message to the books. -/
def toBooks (d : DutSession S) (n : ℕ) (msg : List UInt8) : DutSession S × Option ℕ :=
  if d.Admits msg then
    let (books, hot) := d.books.apply (Itch.decode msg)
    ({ d with books := books }.note (.applied n msg hot), hot)
  else (d, none)

/-- Apply the `n`-th message of the stream; the result is the hot symbol whose book it
was for. -/
def applyMessage (d : DutSession S) (n : ℕ) (msg : List UInt8) : DutSession S × Option ℕ :=
  if msg.length < 11 then (d, none)
  else
    match (Itch.decode msg).body with
    | .systemEvent code => (d.onSystemEvent code, none)
    | .systemEventShort => (d, none)
    | _ => d.toBooks n msg

section

variable [Strategy S]

/-- Quote a hot symbol after a message for its book, if the top of the book is not the
one seen last. After an answer the strategy starts afresh. -/
def requote (d : DutSession S) (h : ℕ) : DutSession S :=
  if (d.books.hotBook h).topVersion = d.topSeen h then d
  else if d.topSeen h = kDirtyTop then (d.forget h).quote h
  else d.quote h

/-- The loop body of `applyPacket`. -/
def handle (d : DutSession S) (n : ℕ) (msg : List UInt8) : DutSession S :=
  match d.applyMessage n msg with
  | (d, none) => d
  | (d, some h) => d.requote h

/-- The message loop, from the `n`-th message of the stream on. -/
def handleAll (d : DutSession S) : ℕ → List (List UInt8) → DutSession S
  | _, [] => d
  | n, msg :: msgs => (d.handle n msg).handleAll (n + 1) msgs

/-- What a packet does before its messages are looked at. -/
def begin (d : DutSession S) (pkt : List UInt8) : DutSession S :=
  let r := d.seq.onPacket (Mold.sequenceOf pkt) (Mold.countOf pkt)
  let d := { d with packets := d.packets + 1, seq := r.2 }
  if r.1 = .gap then d.invalidateFeed (Mold.sequenceOf pkt) else d

/-- What a packet does after its messages. -/
def finish (d : DutSession S) (pkt : List UInt8) : DutSession S :=
  let d := if d.reconcileAll then { d with reconcileAll := false }.quoteAll else d
  { d with cold := d.cold.map fun c => c.push pkt }

/-- What the sequence tracker will say of a packet. -/
def verdict (d : DutSession S) (pkt : List UInt8) : SequenceTracker.Result :=
  (d.seq.onPacket (Mold.sequenceOf pkt) (Mold.countOf pkt)).1

/-- Take in a packet of the feed. -/
def applyPacket (d : DutSession S) (pkt : List UInt8) : DutSession S :=
  if pkt.length < Mold.kHeaderSize then d
  else if d.verdict pkt = .stale then d.begin pkt
  else ((d.begin pkt).handleAll (Mold.sequenceOf pkt) (Mold.messages pkt)).finish pkt

/-- `onMarketData`. -/
def onMarketData (d : DutSession S) (pkt : List UInt8) : DutSession S := d.applyPacket pkt

/-- Take in an answer of the venue: its symbol is to be quoted afresh. -/
def applyAck (d : DutSession S) (ouch : List UInt8) : DutSession S :=
  let oms := d.oms.onAck ouch
  { d with
    oms := oms
    topSeen := match oms.ackSym with
      | some sym => if sym < d.books.hotCount then Function.update d.topSeen sym kDirtyTop else d.topSeen
      | none => d.topSeen }

/-- Walk the quote path of a hot symbol without an effect on its orders. -/
def warm (d : DutSession S) (h : ℕ) : DutSession S :=
  let strat := (Strategy.onBook (d.strats h) (d.books.hotBook h) (d.oms.acct h)).2
  let d := { d with strats := Function.update d.strats h strat }.forget h
  { d with oms := d.oms.warmReconcile h }

/-- `warmQuotePath`. -/
def warmQuotePath (d : DutSession S) : DutSession S :=
  let d := (List.range d.books.hotCount).foldl warm d
  { d with reconcileAll := !d.marketOpen }

/-- `sendTestOrder`. -/
def sendTestOrder (d : DutSession S) : DutSession S :=
  let (oms, out) := d.oms.encodeTestOrder
  { d with oms := oms }.sendOrder OrderManager.kTestSym out

/-! ### Runs -/

/-- What can happen to a session. -/
inductive Input where
  /-- A packet of the feed arrives. -/
  | packet (bytes : List UInt8)
  /-- An answer of the venue arrives. -/
  | ack (bytes : List UInt8)
  /-- The thread of the cold shard takes a frame. -/
  | coldFrame
  /-- The quote path is warmed. -/
  | warmUp
  /-- A test order is sent. -/
  | testOrder
deriving DecidableEq, Repr

/-- One step of a session. -/
def step (d : DutSession S) : Input → DutSession S
  | .packet bytes => d.onMarketData bytes
  | .ack bytes => d.applyAck bytes
  | .coldFrame => { d with cold := d.cold.map ColdShard.consume }
  | .warmUp => d.warmQuotePath
  | .testOrder => d.sendTestOrder

/-- A run of a session. -/
def run (d : DutSession S) (ins : List Input) : DutSession S := ins.foldl step d

end

end DutSession

end TickToTrade.Dut
