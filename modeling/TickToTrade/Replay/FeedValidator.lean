import TickToTrade.Dut.HostileRefs
import TickToTrade.Dut.TableBooks

/-!
# The feed validator

The validator applies a capture of the feed to a table of books and counts what a correct
feed does not have: messages about orders that are not live, and messages that take more
shares than an order has. It reads the book before it applies the message, and the books
of a new session are cleared by the messages that reach them; so the first message of a
session to reach a book is checked against the orders of the session before.

The trace of the re-anchors, which is only printed, is left out.
-/

namespace TickToTrade.Replay

open Dut Util

/-- `SymbolStats`: 64-bit counters, and the price of the last trade. -/
structure SymbolStats where
  name : List UInt8 := []
  messages : ℕ := 0
  unknownRef : ℕ := 0
  overReduce : ℕ := 0
  crossed : ℕ := 0
  locked : ℕ := 0
  resumeXing : ℕ := 0
  maxLive : ℤ := 0
  lastTrade : ℤ := 0

/-- `FeedValidator`. -/
structure FeedValidator where
  books : BookTable
  /-- The statistics of the locates. -/
  sym : ℕ → SymbolStats := fun _ => {}
  trading : ℕ → Bool := fun _ => true
  /-- When a locate went back to trading, `0` if it never stopped. -/
  resumedAt : ℕ → ℕ := fun _ => 0
  marketHours : Bool := false
  afterClose : Bool := false
  messages : ℕ := 0
  maxLive : ℤ := 0

namespace FeedValidator

/-- `kResumeGraceNs`. -/
def kResumeGraceNs : ℕ := 10000000

/-- The constructor. -/
def new (cfg : BookTableConfig) : FeedValidator where
  books := BookTable.new cfg

/-- The book of a locate. -/
def book? (v : FeedValidator) (locate : ℕ) : Option BookBuilder := (v.books.books locate).book.map v.books.storage

/-- Change the statistics of a locate. -/
def count (v : FeedValidator) (locate : ℕ) (f : SymbolStats → SymbolStats) : FeedValidator :=
  { v with sym := Function.update v.sym locate (f (v.sym locate)) }

/-- The timestamp of a message: bytes 5 to 10. -/
def timestampOf (msg : List UInt8) : ℕ := Itch.beAt msg 5 6

/-- `checkReference`. -/
def checkReference (v : FeedValidator) (locate ref reduceBy : ℕ) : FeedValidator :=
  let resting := match v.book? locate with
    | none => 0
    | some b => b.restingShares ref
  if resting = 0 then v.count locate fun st => { st with unknownRef := st.unknownRef + 1 }
  else if reduceBy > resting then v.count locate fun st => { st with overReduce := st.overReduce + 1 }
  else v

/-- A trade at the price, unless the market has closed. -/
def traded (v : FeedValidator) (locate : ℕ) (price : ℤ) : FeedValidator :=
  if !v.afterClose then v.count locate fun st => { st with lastTrade := price } else v

/-- The price of an order of the locate, `kNoPrice` if there is none. -/
def priceOf (v : FeedValidator) (locate ref : ℕ) : ℤ :=
  match v.book? locate with
  | none => kNoPrice
  | some b => b.restingPrice ref

/-- The first part of `onMessage`, before the message is applied. -/
def inspect (v : FeedValidator) (locate ts : ℕ) : Itch.Body → FeedValidator
  | .stockDirectory name => v.count locate fun st => { st with name := name }
  | .stockTradingAction state =>
      let trading : Bool := state = .trading
      let v := if trading && !v.trading locate then { v with resumedAt := Function.update v.resumedAt locate ts } else v
      { v with trading := Function.update v.trading locate trading }
  | .orderExecuted ref shares _ =>
      let v := v.checkReference locate ref shares
      let px := v.priceOf locate ref
      if px ≠ kNoPrice then v.traded locate px else v
  | .orderExecutedWithPrice ref shares _ price =>
      let v := v.checkReference locate ref shares
      if price > 0 then v.traded locate (toPrice price) else v
  | .tradeNonCross _ _ _ price _ => if price > 0 then v.traded locate (toPrice price) else v
  | .crossTrade shares price _ => if shares > 0 ∧ price > 0 then v.traded locate (toPrice price) else v
  | .orderCancel ref shares => v.checkReference locate ref shares
  | .orderDelete ref => v.checkReference locate ref 0
  | .orderReplace orig _ _ _ => v.checkReference locate orig 0
  | _ => v

/-- Does the type of a message add an order: `A`, `F` or `U`? -/
def addsOrder (type : ℕ) : Bool := type = 65 ∨ type = 70 ∨ type = 85

/-- Is the type of a message about orders: one of those, or `D`, `E`, `C` or `X`? -/
def ofOrders (type : ℕ) : Bool := addsOrder type ∨ type = 68 ∨ type = 69 ∨ type = 67 ∨ type = 88

/-- The last part of `onMessage`: is the book crossed, and how many orders are live? -/
def observe (v : FeedValidator) (locate type ts : ℕ) : FeedValidator :=
  if ofOrders type then
    match v.book? locate with
    | none => v
    | some b =>
        let v :=
          if addsOrder type && v.marketHours && v.trading locate && b.bestBid ≠ kNoPrice && b.bestAsk ≠ kNoPrice &&
              b.bestBid ≥ b.bestAsk then
            if v.resumedAt locate ≠ 0 ∧ ts < v.resumedAt locate + kResumeGraceNs then
              v.count locate fun st => { st with resumeXing := st.resumeXing + 1 }
            else if b.bestBid > b.bestAsk then v.count locate fun st => { st with crossed := st.crossed + 1 }
            else v.count locate fun st => { st with locked := st.locked + 1 }
          else v
        v.count locate fun st => { st with maxLive := max b.liveOrders st.maxLive }
  else v

/-- Apply the message to the table. -/
def applyToBooks (v : FeedValidator) (m : Itch.Msg) : FeedValidator := { v with books := (v.books.apply m).1 }

/-- Every `2 ^ 16` messages the live orders of all books are looked at. -/
def sample (v : FeedValidator) : FeedValidator :=
  if v.messages % 2 ^ 16 = 0 then { v with maxLive := max v.books.live v.maxLive } else v

/-- A system event. -/
def onSystemEvent (v : FeedValidator) : Itch.Body → FeedValidator
  | .systemEvent .startOfMessages => { v with books := v.books.clearAll, afterClose := false }
  | .systemEvent .startOfMarketHours => { v with marketHours := true }
  | .systemEvent .endOfMarketHours => { v with marketHours := false, afterClose := true }
  | _ => v

/-- `onMessage`. -/
def onMessage (v : FeedValidator) (msg : List UInt8) : FeedValidator :=
  if msg.length < 11 then v
  else
    let type := Itch.byteAt msg 0
    let m := Itch.decode msg
    if type = 83 then v.onSystemEvent m.body  -- 'S'
    else
      let v := { v with messages := v.messages + 1 }.count m.locate fun st => { st with messages := st.messages + 1 }
      let v := (v.inspect m.locate (timestampOf msg) m.body).applyToBooks m
      (v.observe m.locate type (timestampOf msg)).sample

/-! ### What the validator should count -/

/-- The order that a message is about, and the shares that the order should have. -/
def named : Itch.Body → Option (ℕ × ℕ)
  | .orderExecuted ref shares _ => some (ref, shares)
  | .orderExecutedWithPrice ref shares _ _ => some (ref, shares)
  | .orderCancel ref shares => some (ref, shares)
  | .orderDelete ref => some (ref, 0)
  | .orderReplace orig _ _ _ => some (orig, 0)
  | _ => none

/-- The orders of a locate that are live since the last start of messages, and the counts
of the messages that are wrong about them. -/
structure Tally where
  live : FiniteMap Dut.Resting := ∅
  unknownRef : ℕ := 0
  overReduce : ℕ := 0

namespace Tally

/-- Check a message about an order of the locate. -/
def check (y : Tally) : Option (ℕ × ℕ) → Tally
  | none => y
  | some (ref, reduceBy) =>
      match y.live.lookup ref with
      | none => { y with unknownRef := y.unknownRef + 1 }
      | some o => if reduceBy > o.shares then { y with overReduce := y.overReduce + 1 } else y

/-- A message that the validator `v` gets, as the locate sees it. Where the table keeps no
book for the locate, no order of it is live. -/
def onMessage (y : Tally) (locate : ℕ) (v : FeedValidator) (msg : List UInt8) : Tally :=
  let m := Itch.decode msg
  if msg.length < 11 then y
  else if m.body = .systemEvent .startOfMessages then { y with live := ∅ }
  else if m.locate ≠ locate then y
  else
    let y := y.check (named m.body)
    if v.books.skips locate then y else { y with live := BookBuilder.account v.books.cfg.ownRefMin y.live m.body }

end Tally

/-- A validator with what it should count for a locate. -/
def watch (locate : ℕ) (s : FeedValidator × Tally) (msg : List UInt8) : FeedValidator × Tally :=
  (s.1.onMessage msg, s.2.onMessage locate s.1 msg)

/-- A stream of messages. -/
def watchAll (cfg : BookTableConfig) (locate : ℕ) (msgs : List (List UInt8)) : FeedValidator × Tally :=
  msgs.foldl (watch locate) (new cfg, {})

/-- Are the counts of the locate what they should be? -/
def Exact (locate : ℕ) (s : FeedValidator × Tally) : Prop :=
  (s.1.sym locate).unknownRef = s.2.unknownRef ∧ (s.1.sym locate).overReduce = s.2.overReduce

/-- The message is about an order that the book of the locate holds still, but that is not
live since the last start of messages. -/
def Leftover (locate : ℕ) (s : FeedValidator × Tally) (msg : List UInt8) : Prop :=
  11 ≤ msg.length ∧ (Itch.decode msg).locate = locate ∧
    ∃ ref reduceBy b, named (Itch.decode msg).body = some (ref, reduceBy) ∧ s.1.book? locate = some b ∧
      b.restingShares ref ≠ 0 ∧ s.2.live.lookup ref = none

/-- The references of a message are not zero, and its shares are fewer than `2 ^ 30`. -/
def WellFormed : Itch.Body → Prop
  | .addOrder ref _ shares _ => ref ≠ 0 ∧ shares < 2 ^ 30
  | .orderExecuted ref shares _ => ref ≠ 0 ∧ shares < 2 ^ 30
  | .orderExecutedWithPrice ref shares _ _ => ref ≠ 0 ∧ shares < 2 ^ 30
  | .orderCancel ref shares => ref ≠ 0 ∧ shares < 2 ^ 30
  | .orderDelete ref => ref ≠ 0
  | .orderReplace orig new shares _ => orig ≠ 0 ∧ new ≠ 0 ∧ shares < 2 ^ 30
  | _ => True

/-- Every symbol of the stream keeps to one locate. -/
def OneLocate (msgs : List (List UInt8)) : Prop :=
  ∀ msg ∈ msgs, ∀ msg' ∈ msgs, ∀ name, (Itch.decode msg).body = .stockDirectory name →
    (Itch.decode msg').body = .stockDirectory name → (Itch.decode msg).locate = (Itch.decode msg').locate

end FeedValidator

end TickToTrade.Replay
