import TickToTrade.Lob.OrderBook
import TickToTrade.Protocol.Ouch50
import TickToTrade.Util.FlatHashMap

/-!
# The simulated venue

The exchange for one symbol: the book of the tape's orders, of the clients' and of the
synthetic ones, the answers to the clients and the market data about what the tape does
not tell.

The mark `kNilHandle` is `none`. A lookup of the key `0` answers with a free slot of the
table, so an order can be read through that mark; `stray` is the word that such a read
outside the pool finds. What a venue hands to its sink is the list `sent`. Timestamps,
which nothing reads, and the count of the tables' rehashes are left out.
-/

namespace TickToTrade.Sim

open Util

/-- `LiveOrder`: where a resting order is, and whose it is. -/
structure LiveOrder where
  handle : Option ℕ := none
  side : Side := .buy
  tick : ℤ := 0
  client : Bool := false
  userRef : ℕ := 0
deriving DecidableEq, Repr

instance : Inhabited LiveOrder := ⟨{}⟩

/-- `MirrorStats`: 64-bit words. -/
structure MirrorStats where
  adds : ℕ := 0
  executes : ℕ := 0
  cancels : ℕ := 0
  deletes : ℕ := 0
  replaces : ℕ := 0
  unknownRef : ℕ := 0
  overReduce : ℕ := 0
  outOfBand : ℕ := 0
  shadowFills : ℕ := 0
  shadowShares : ℕ := 0
  crossFills : ℕ := 0
  impactFills : ℕ := 0
  selfTrades : ℕ := 0
deriving DecidableEq, Repr

/-- What a venue hands to its sink. -/
inductive Sent where
  | marketData (m : Itch.Msg)
  | orderEntry (m : Ouch.Out)
deriving DecidableEq, Repr

namespace Sent

def data? : Sent → Option Itch.Msg
  | marketData m => some m
  | orderEntry _ => none

def answer? : Sent → Option Ouch.Out
  | marketData _ => none
  | orderEntry m => some m

end Sent

/-- `Venue`. -/
structure Venue where
  symbol : List UInt8
  stockLocate : ℕ
  wirePerTick : ℕ
  minTick : ℤ
  maxTick : ℤ
  engine : OrderBook
  /-- A 64-bit word, as are the order references. -/
  nextOrderRef : ℕ
  nextMatch : ℕ := 1
  mirror : MirrorStats := {}
  /-- The resting orders by order reference. -/
  live : FlatHashMap mix LiveOrder
  /-- The order references of the clients' resting orders by user reference. -/
  byUserRef : FlatHashMap mix ℕ
  /-- The order references of the clients' resting orders. -/
  clientRefs : List ℕ := []
  sent : List Sent := []
  /-- What a read outside the engine's pool finds. -/
  stray : ℕ := 0

/-- The next 64-bit word: `++`. -/
def inc64 (x : ℕ) : ℕ := (x + 1) % 2 ^ 64

/-- The 64-bit word before: `--`. -/
def dec64 (x : ℕ) : ℕ := (x + 2 ^ 64 - 1) % 2 ^ 64

namespace Venue

/-- The constructor. -/
def new (symbol : List UInt8) (stockLocate : ℕ) (minTick maxTick : ℤ) (wirePerTick firstOrderRef liveReserve stray : ℕ) :
    Venue where
  symbol := symbol
  stockLocate := stockLocate
  wirePerTick := wirePerTick
  minTick := minTick
  maxTick := maxTick
  engine := OrderBook.new minTick maxTick
  nextOrderRef := if firstOrderRef = 0 then 1 else firstOrderRef
  live := FlatHashMap.empty liveReserve
  byUserRef := FlatHashMap.empty (2 ^ 12)
  stray := stray

def bindLocate (v : Venue) (locate : ℕ) : Venue := { v with stockLocate := locate }

/-! ### Answers and market data -/

/-- Hand a message about this symbol to the sink. -/
def sendMd (v : Venue) (body : Itch.Body) : Venue :=
  { v with sent := v.sent ++ [.marketData ⟨v.stockLocate, body⟩] }

/-- Hand an answer to the sink. -/
def sendOe (v : Venue) (m : Ouch.Out) : Venue := { v with sent := v.sent ++ [.orderEntry m] }

/-- A price as on the wire, a 32-bit word. -/
def tickToWire (v : Venue) (tick : ℤ) : ℕ := u32 tick * v.wirePerTick % 2 ^ 32

/-- The side byte of an answer. -/
def ouchSide : Side → Ouch.SideCode
  | .buy => .buy
  | .sell => .sell

def emitStockDirectory (v : Venue) : Venue := v.sendMd (.stockDirectory (Itch.alphaView (v.symbol.take 8)))

/-- `sessionEvent`: about no symbol. -/
def sessionEvent (v : Venue) (code : Itch.SystemEventCode) : Venue :=
  { v with sent := v.sent ++ [.marketData ⟨0, .systemEvent code⟩] }

def emitItchAdd (v : Venue) (ref : ℕ) (side : Side) (tick : ℤ) (shares : ℕ) : Venue :=
  v.sendMd (.addOrder ref side shares (v.tickToWire tick))

def emitItchExecuted (v : Venue) (ref shares matchNumber : ℕ) : Venue :=
  v.sendMd (.orderExecuted ref shares matchNumber)

def emitItchCancel (v : Venue) (ref shares : ℕ) : Venue := v.sendMd (.orderCancel ref shares)

def emitItchDelete (v : Venue) (ref : ℕ) : Venue := v.sendMd (.orderDelete ref)

def emitItchReplace (v : Venue) (origRef newRef shares : ℕ) (tick : ℤ) : Venue :=
  v.sendMd (.orderReplace origRef newRef shares (v.tickToWire tick))

def emitAccepted (v : Venue) (o : Ouch.EnterOrder) (ref : ℕ) (orderState : Ouch.OrderState) : Venue :=
  v.sendOe (.accepted ⟨o.userRefNum, o.side, o.quantity, o.price, ref, orderState⟩)

def emitExecuted (v : Venue) (user shares : ℕ) (tick : ℤ) (matchNumber : ℕ) : Venue :=
  v.sendOe (.executed ⟨user, shares, v.tickToWire tick, matchNumber⟩)

def emitCanceled (v : Venue) (user decremented : ℕ) (r : Ouch.CancelReason) : Venue :=
  v.sendOe (.canceled ⟨user, decremented, r⟩)

def emitReplaced (v : Venue) (u : Ouch.ReplaceOrder) (newRef : ℕ) (side : Side) : Venue :=
  v.sendOe (.replaced ⟨u.origUserRefNum, u.userRefNum, ouchSide side, u.quantity, u.price, newRef, .live⟩)

def emitRejected (v : Venue) (user : ℕ) (reason : Ouch.RejectReason) : Venue := v.sendOe (.rejected ⟨user, reason⟩)

def emitCancelReject (v : Venue) (user : ℕ) : Venue := v.sendOe (.cancelReject ⟨user⟩)

/-! ### Reading requests -/

/-- `validPrice`: the tick of a price on the wire, a 64-bit word. The bounds are
compared as 64-bit words. -/
def validPrice (v : Venue) (wire : ℕ) : Option ℤ :=
  if wire % v.wirePerTick ≠ 0 then none
  else
    let t := wire / v.wirePerTick
    if t < wirePrice v.minTick ∨ t > wirePrice v.maxTick then none else some (toPrice t)

def parseSide : Ouch.SideCode → Option Side
  | .buy => some .buy
  | .sell => some .sell
  | .sellShort => some .sell
  | .sellShortExempt => some .sell
  | .unknown => none

/-- Would an order trade on arrival? -/
def isMarketable (v : Venue) (side : Side) (tick : ℤ) : Bool :=
  match side with
  | .buy => v.engine.bestAsk ≠ kNoPrice ∧ tick ≥ v.engine.bestAsk
  | .sell => v.engine.bestBid ≠ kNoPrice ∧ tick ≤ v.engine.bestBid

/-! ### The engine through handles -/

/-- `m_engine.order(h).qty`. -/
def qtyAt (v : Venue) : Option ℕ → ℕ
  | some h => (v.engine.order h).qty
  | none => v.stray

/-- `m_engine.cancel(h)`. -/
def engineCancel (v : Venue) : Option ℕ → ℕ × Venue
  | some h => ((v.engine.cancel h).1, { v with engine := (v.engine.cancel h).2 })
  | none => (0, v)

/-- `m_engine.reduce(h, newQty)`. -/
def engineReduce (v : Venue) (h : Option ℕ) (newQty : ℕ) : ℕ × Venue :=
  match h with
  | some h => ((v.engine.reduce h newQty).1, { v with engine := (v.engine.reduce h newQty).2 })
  | none => (0, v)

/-! ### The tables -/

/-- `m_live.insertOrAssign`. -/
def setLive (v : Venue) (ref : ℕ) (l : LiveOrder) : Venue := { v with live := v.live.insertOrAssign ref l }

/-- `m_live.erase`. -/
def eraseLive (v : Venue) (ref : ℕ) : Venue :=
  match v.live.erase ref with
  | some (_, live) => { v with live := live }
  | none => v

/-- `m_byUserRef.erase`. -/
def eraseUserRef (v : Venue) (user : ℕ) : Venue :=
  match v.byUserRef.erase user with
  | some (_, byUserRef) => { v with byUserRef := byUserRef }
  | none => v

/-- Take a reference out of the clients' list: the last one takes its place. -/
def dropRef (refs : List ℕ) (ref : ℕ) : List ℕ :=
  if ref ∈ refs then (refs.set (refs.idxOf ref) (refs.getLastD 0)).dropLast else refs

def trackClient (v : Venue) (ref : ℕ) (h : Option ℕ) (side : Side) (tick : ℤ) (user : ℕ) : Venue :=
  let v := v.setLive ref ⟨h, side, tick, true, user⟩
  { v with byUserRef := v.byUserRef.insertOrAssign user ref, clientRefs := v.clientRefs ++ [ref] }

def dropClient (v : Venue) (ref : ℕ) (live : LiveOrder) : Venue :=
  let v := (v.eraseUserRef live.userRef).eraseLive ref
  { v with clientRefs := dropRef v.clientRefs ref }

def removeReal (v : Venue) (ref : ℕ) (live : LiveOrder) : Venue := (v.engineCancel live.handle).2.eraseLive ref

/-- `m_nextOrderRef++`. -/
def takeRef (v : Venue) : ℕ × Venue := (v.nextOrderRef, { v with nextOrderRef := inc64 v.nextOrderRef })

/-- `m_nextMatch++`. -/
def takeMatch (v : Venue) : ℕ × Venue := (v.nextMatch, { v with nextMatch := inc64 v.nextMatch })

/-- Change the statistics. -/
def count (v : Venue) (f : MirrorStats → MirrorStats) : Venue := { v with mirror := f v.mirror }

/-! ### Trading -/

/-- A trade of the engine; the arriving order is a client's or not. -/
def handleTrade (aggClient : Bool) (aggUser : ℕ) (v : Venue) (t : Trade) : Venue :=
  let (matchNumber, v) := v.takeMatch
  let v := v.emitItchExecuted t.restingId t.qty matchNumber
  let v := if aggClient then v.emitExecuted aggUser t.qty t.price matchNumber else v
  match v.live.get? t.restingId with
  | none => v
  | some live =>
      let v :=
        if live.client then
          let v := v.emitExecuted live.userRef t.qty t.price matchNumber
          if aggClient then v.count fun m => { m with selfTrades := inc64 m.selfTrades } else v
        else if aggClient then v.count fun m => { m with impactFills := inc64 m.impactFills }
        else v
      if t.restingFilled then
        if live.client then v.dropClient t.restingId live else v.eraseLive t.restingId
      else v

/-- A new order trades and the rest of it rests. No trade is handled by reading the
engine, so the engine's part comes first. -/
def processOrder (v : Venue) (ref : ℕ) (side : Side) (tick : ℤ) (qty : ℕ) (client : Bool) (user : ℕ) : Venue :=
  let (h, engine, trades) := v.engine.add ref side tick qty
  let v := trades.foldl (handleTrade client user) { v with engine := engine }
  match h with
  | none => v
  | some h =>
      let v := v.emitItchAdd ref side tick (v.engine.order h).qty
      if client then v.trackClient ref (some h) side tick user
      else v.setLive ref ⟨some h, side, tick, false, 0⟩

/-- A new order trades and does not rest. -/
def processImmediate (v : Venue) (ref : ℕ) (side : Side) (tick : ℤ) (qty user : ℕ) : Venue :=
  let (engine, rem, trades) := v.engine.match ref side tick qty
  let v := trades.foldl (handleTrade true user) { v with engine := engine }
  if rem > 0 then v.emitCanceled user rem .ioc else v

/-- A client's resting order trades with the tape. -/
def fillClient (v : Venue) (ref qty : ℕ) : Venue :=
  match v.live.get? ref with
  | none => v
  | some l =>
      if qty = 0 then v
      else
        let (matchNumber, v) := v.takeMatch
        let v := v.emitItchExecuted ref qty matchNumber
        let v := v.emitExecuted l.userRef qty l.tick matchNumber
        let cur := v.qtyAt l.handle
        if qty ≥ cur then (v.engineCancel l.handle).2.dropClient ref l
        else (v.engineReduce l.handle (cur - qty)).2

/-- One turn of the search of `crossClients`: the best reference so far, with its handle
and its tick, and a reference of the clients' list. -/
def betterClient (v : Venue) (side : Side) (tick : ℤ) (best : ℕ × Option ℕ × ℤ) (ref : ℕ) : ℕ × Option ℕ × ℤ :=
  match v.live.get? ref with
  | none => best
  | some l =>
      if l.side = side then best
      else
        let crosses : Bool := match side with
          | .buy => decide (l.tick ≤ tick)
          | .sell => decide (l.tick ≥ tick)
        let better : Bool := match side with
          | .buy => decide (l.tick < best.2.2)
          | .sell => decide (l.tick > best.2.2)
        if crosses && (best.1 = 0 || better) then (ref, l.handle, l.tick) else best

/-- The search of `crossClients`. -/
def bestClient (v : Venue) (side : Side) (tick : ℤ) : ℕ × Option ℕ × ℤ :=
  v.clientRefs.foldl (v.betterClient side tick) (0, none, 0)

/-- The loop of `crossClients`, for `fuel` orders at most; the result has the shares
left. -/
def crossLoop (side : Side) (tick : ℤ) : ℕ → Venue → ℕ → ℕ × Venue
  | 0, v, qty => (qty, v)
  | fuel + 1, v, qty =>
      if qty = 0 then (qty, v)
      else
        let (best, bestHandle, _) := v.bestClient side tick
        if best = 0 then (qty, v)
        else
          let cur := v.qtyAt bestHandle
          let fill := if qty < cur then qty else cur
          let v := v.count fun m => { m with crossFills := inc64 m.crossFills }
          crossLoop side tick fuel (v.fillClient best fill) (qty - fill)

/-- A tape order trades with the clients that it crosses. Every turn but the last uses
up a client's order. -/
def crossClients (v : Venue) (side : Side) (tick : ℤ) (qty : ℕ) : ℕ × Venue :=
  crossLoop side tick (v.clientRefs.length + 1) v qty

/-- Is the client's order before the tape's in the queue of the level? -/
def aheadInLevel (v : Venue) (side : Side) (tick : ℤ) (clientRef realRef : ℕ) : Bool :=
  match (v.engine.ordersAtLevel side tick).find? fun o => o.id = clientRef ∨ o.id = realRef with
  | some o => o.id = clientRef
  | none => false

/-- Does the client's order have to trade before the tape's? -/
def isAhead (v : Venue) (side : Side) (tick : ℤ) (realRef ref : ℕ) (l : LiveOrder) : Bool :=
  let better : Bool := match side with
    | .sell => decide (l.tick < tick)
    | .buy => decide (l.tick > tick)
  better || (l.tick = tick && v.aheadInLevel side tick ref realRef)

/-- The loop of `shadowFill` from the index `i` on, for `fuel` turns at most. -/
def shadowLoop (side : Side) (tick : ℤ) (realRef : ℕ) : ℕ → ℕ → Venue → ℕ → Venue
  | 0, _, v, _ => v
  | fuel + 1, i, v, qty =>
      if i < v.clientRefs.length ∧ qty > 0 then
        let ref := v.clientRefs.getD i 0
        match v.live.get? ref with
        | none => shadowLoop side tick realRef fuel (i + 1) v qty
        | some l =>
            if l.side ≠ side ∨ ¬ v.isAhead side tick realRef ref l then
              shadowLoop side tick realRef fuel (i + 1) v qty
            else
              let cur := v.qtyAt l.handle
              let fill := if qty < cur then qty else cur
              let v := v.count fun m =>
                { m with shadowFills := inc64 m.shadowFills, shadowShares := (m.shadowShares + fill) % 2 ^ 64 }
              shadowLoop side tick realRef fuel (if fill < cur then i + 1 else i) (v.fillClient ref fill) (qty - fill)
      else v

/-- The tape trades an order: clients' orders before it trade first. Every turn passes
an order of the clients' list or takes it out. -/
def shadowFill (v : Venue) (side : Side) (tick : ℤ) (realRef qty : ℕ) : Venue :=
  shadowLoop side tick realRef v.clientRefs.length 0 v qty

/-! ### Requests -/

def onEnterOrder (v : Venue) (o : Ouch.EnterOrder) : Venue :=
  let user := o.userRefNum
  match parseSide o.side with
  | none => v.emitRejected user .invalidSide
  | some side =>
      if o.quantity = 0 then v.emitRejected user .invalidQuantity
      else if o.symbol ≠ v.symbol then v.emitRejected user .invalidSymbol
      else
        match v.validPrice o.price with
        | none => v.emitRejected user .invalidPrice
        | some tick =>
            let (ref, v) := v.takeRef
            if o.timeInForce = .ioc then
              (v.emitAccepted o ref .dead).processImmediate ref side tick o.quantity user
            else (v.emitAccepted o ref .live).processOrder ref side tick o.quantity true user

def onCancelOrder (v : Venue) (x : Ouch.CancelOrder) : Venue :=
  let user := x.userRefNum
  match v.byUserRef.get? user with
  | none => v.emitCancelReject user
  | some ref =>
      match v.live.get? ref with
      | none => v.emitCancelReject user
      | some live =>
          let intended := x.quantity
          if intended ≥ v.qtyAt live.handle then v.emitCancelReject user
          else if intended = 0 then
            let (removed, v) := v.engineCancel live.handle
            ((v.emitItchDelete ref).emitCanceled user removed .userRequested).dropClient ref live
          else
            let (removed, v) := v.engineReduce live.handle intended
            (v.emitItchCancel ref removed).emitCanceled user removed .userRequested

def onReplaceOrder (v : Venue) (u : Ouch.ReplaceOrder) : Venue :=
  let newUser := u.userRefNum
  match v.byUserRef.get? u.origUserRefNum with
  | none => v.emitRejected newUser .replaceNotAllowed
  | some origRef =>
      match v.live.get? origRef with
      | none => v.emitRejected newUser .replaceNotAllowed
      | some orig =>
          if u.quantity = 0 then v.emitRejected newUser .invalidQuantity
          else
            match v.validPrice u.price with
            | none => v.emitRejected newUser .invalidPrice
            | some tick =>
                let side := orig.side
                let v := (v.engineCancel orig.handle).2.dropClient origRef orig
                let (newRef, v) := v.takeRef
                let v := v.emitReplaced u newRef side
                if v.isMarketable side tick then
                  (v.emitItchDelete origRef).processOrder newRef side tick u.quantity true newUser
                else
                  -- nothing to trade with: the program hands no sink to the engine
                  let (h, engine, _) := v.engine.add newRef side tick u.quantity
                  let v := { v with engine := engine }.emitItchReplace origRef newRef u.quantity tick
                  match h with
                  | some h => v.trackClient newRef (some h) side tick newUser
                  | none => v

/-! ### Synthetic orders -/

def injectSynthetic (v : Venue) (side : Side) (tick : ℤ) (qty : ℕ) : ℕ × Venue :=
  let (ref, v) := v.takeRef
  (ref, v.processOrder ref side tick qty false 0)

def cancelSynthetic (v : Venue) (ref : ℕ) : Venue :=
  match v.live.erase ref with
  | none => v
  | some (l, live) => ({ v with live := live }.engineCancel l.handle).2.emitItchDelete ref

/-! ### The tape -/

def mirrorAdd (v : Venue) (ref : ℕ) (side : Side) (wire qty : ℕ) : Venue :=
  let v := v.count fun m => { m with adds := inc64 m.adds }
  match v.validPrice wire with
  | none => v.count fun m => { m with outOfBand := inc64 m.outOfBand }
  | some tick =>
      let (rem, v) := if v.clientRefs ≠ [] then v.crossClients side tick qty else (qty, v)
      if rem = 0 then v
      else
        match v.engine.place ref side tick rem with
        | (some h, engine) => { v with engine := engine }.setLive ref ⟨some h, side, tick, false, 0⟩
        | (none, engine) => { v with engine := engine }

/-- The end of `mirrorExecute` and of `mirrorCancel`: shares leave a tape order. -/
def takeShares (v : Venue) (ref shares : ℕ) (l : LiveOrder) : Venue :=
  let cur := v.qtyAt l.handle
  let v := if shares > cur then v.count fun m => { m with overReduce := inc64 m.overReduce } else v
  if shares ≥ cur then v.removeReal ref l else (v.engineReduce l.handle (cur - shares)).2

def mirrorExecute (v : Venue) (ref shares : ℕ) : Venue :=
  let v := v.count fun m => { m with executes := inc64 m.executes }
  match v.live.get? ref with
  | none => v.count fun m => { m with unknownRef := inc64 m.unknownRef }
  | some l => (if v.clientRefs ≠ [] then v.shadowFill l.side l.tick ref shares else v).takeShares ref shares l

def mirrorCancel (v : Venue) (ref shares : ℕ) : Venue :=
  let v := v.count fun m => { m with cancels := inc64 m.cancels }
  match v.live.get? ref with
  | none => v.count fun m => { m with unknownRef := inc64 m.unknownRef }
  | some l => v.takeShares ref shares l

def mirrorDelete (v : Venue) (ref : ℕ) : Venue :=
  let v := v.count fun m => { m with deletes := inc64 m.deletes }
  match v.live.get? ref with
  | none => v.count fun m => { m with unknownRef := inc64 m.unknownRef }
  | some l => v.removeReal ref l

def mirrorReplace (v : Venue) (origRef newRef shares wire : ℕ) : Venue :=
  let v := v.count fun m => { m with replaces := inc64 m.replaces }
  match v.live.get? origRef with
  | none => v.count fun m => { m with unknownRef := inc64 m.unknownRef }
  | some l =>
      ((v.removeReal origRef l).count fun m => { m with adds := dec64 m.adds }).mirrorAdd newRef l.side wire shares

/-! ### The end of a day -/

/-- The loop of `resetDay` over the clients' list, from the back. -/
def closeClients : ℕ → Venue → Venue
  | 0, v => v
  | fuel + 1, v =>
      match v.clientRefs.getLast? with
      | none => v
      | some ref =>
          match v.live.get? ref with
          | none => closeClients fuel { v with clientRefs := v.clientRefs.dropLast }
          | some live =>
              let (removed, v) := v.engineCancel live.handle
              closeClients fuel
                (((v.emitItchDelete ref).emitCanceled live.userRef removed .closed).dropClient ref live)

def resetDay (v : Venue) : Venue :=
  let v := closeClients v.clientRefs.length v
  { v with engine := v.engine.clear, live := v.live.clear, byUserRef := v.byUserRef.clear }

/-! ### Looking at a venue -/

def hasUserRef (v : Venue) (user : ℕ) : Bool := (v.byUserRef.get? user).isSome

/-- The market data sent so far. -/
def md (v : Venue) : List Itch.Msg := v.sent.filterMap Sent.data?

/-- The answers sent so far. -/
def oe (v : Venue) : List Ouch.Out := v.sent.filterMap Sent.answer?

/-! ### Runs -/

/-- A call of a venue. -/
inductive Op where
  | request (m : Ouch.In)
  | injectSynthetic (side : Side) (tick : ℤ) (qty : ℕ)
  | cancelSynthetic (ref : ℕ)
  | mirrorAdd (ref : ℕ) (side : Side) (wire qty : ℕ)
  | mirrorExecute (ref shares : ℕ)
  | mirrorCancel (ref shares : ℕ)
  | mirrorDelete (ref : ℕ)
  | mirrorReplace (origRef newRef shares wire : ℕ)
  | resetDay
deriving DecidableEq, Repr

/-- A request of a client. -/
def onRequest (v : Venue) : Ouch.In → Venue
  | .enterOrder m => v.onEnterOrder m
  | .replaceOrder m => v.onReplaceOrder m
  | .cancelOrder m => v.onCancelOrder m

def step (v : Venue) : Op → Venue
  | .request m => v.onRequest m
  | .injectSynthetic side tick qty => (v.injectSynthetic side tick qty).2
  | .cancelSynthetic ref => v.cancelSynthetic ref
  | .mirrorAdd ref side wire qty => v.mirrorAdd ref side wire qty
  | .mirrorExecute ref shares => v.mirrorExecute ref shares
  | .mirrorCancel ref shares => v.mirrorCancel ref shares
  | .mirrorDelete ref => v.mirrorDelete ref
  | .mirrorReplace origRef newRef shares wire => v.mirrorReplace origRef newRef shares wire
  | .resetDay => v.resetDay

/-- A run. -/
def run (v : Venue) (ops : List Op) : Venue := ops.foldl step v

end Venue

end TickToTrade.Sim
