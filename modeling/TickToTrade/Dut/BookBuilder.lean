import TickToTrade.Dut.LevelBits
import TickToTrade.Protocol.Itch50
import TickToTrade.Util.FlatHashMap

/-!
# The feed-driven book

The market-data view of the DUT: it applies the stream of order messages to one
array of level sizes on each side, a map of the live orders, and the incrementally
kept best prices. The arrays cover a band of prices around the market; an order
whose price is outside the band, or off its tick grid, is parked. A trade outside
the band moves the band, and a price below one dollar can refine the tick.

The program keeps two of everything that belongs to a side; here they are indexed
by `Side`, and a comparison that the program writes once for each side is
`Side.atLeast`. The counters that only report (re-anchors and rescans handed to an
outside counter, memory footprints) are left out.
-/

namespace TickToTrade.Dut

open Util

/-! ### The parts of the book -/

/-- `BookConfig`. The width that `bandFraction` asks for is a floating-point product
of the price over the tick; `byPrice` stands for its floor, and is not positive when
the fraction is not. -/
structure BookConfig where
  /-- The price tick. -/
  tickWire : ℤ := 1
  /-- The tick below one dollar, `0` for none. -/
  subDollarTickWire : ℤ := 0
  /-- Half the width of the band, in ticks. -/
  bandTicks : ℕ := 2048
  /-- The cap of the half width, `0` for none. -/
  maxBandTicks : ℕ := 2 ^ 16
  /-- The half width that the price asks for, from the price and the tick. -/
  byPrice : ℤ → ℤ → ℤ := fun _ _ => 0
  /-- The capacity hint of the order map. -/
  maxOrders : ℕ := 2 ^ 10
  /-- The least reference of the own orders, `0` for none. -/
  ownRefMin : ℕ := 0
  /-- The price to anchor at, `kNoPrice` to wait for the first order. -/
  anchorPrice : ℤ := kNoPrice

/-- The packed record of a live order. -/
structure Resting where
  /-- The order's price. -/
  price : ℤ
  /-- The shares left, 30 bits. -/
  shares : ℕ
  /-- The order's side. -/
  side : Side
  /-- Is it one of the DUT's own orders? -/
  own : Bool
deriving DecidableEq, Repr

instance : Inhabited Resting := ⟨⟨0, 0, .buy, false⟩⟩

namespace Resting

/-- `kSharesMask`. -/
def kSharesMask : ℕ := 2 ^ 30 - 1

/-- Pack an order; more shares than 30 bits hold are cut to the most they do. -/
def make (price : ℤ) (shares : ℕ) (side : Side) (own : Bool) : Resting :=
  ⟨price, if shares > kSharesMask then kSharesMask else shares, side, own⟩

/-- Overwrite the shares. -/
def setShares (r : Resting) (shares : ℕ) : Resting := { r with shares := shares % 2 ^ 30 }

end Resting

/-- The prices that the level arrays cover. -/
structure Band where
  /-- The price of level `0`. -/
  minPrice : ℤ
  /-- The last price covered. -/
  maxPrice : ℤ
  /-- The distance of neighbouring levels. -/
  tickWire : ℤ
  /-- The division by the tick. -/
  tickDiv : DivBy

namespace Band

/-- Is the price between the ends of the band? -/
def inRange (g : Band) (price : ℤ) : Bool := g.minPrice ≤ price ∧ price ≤ g.maxPrice

/-- Does the price have a level? -/
def inBand (g : Band) (price : ℤ) : Bool :=
  if !g.inRange price then false
  else
    let off := u32 (price - g.minPrice)
    off = g.tickDiv.apply off * u32 g.tickWire % 2 ^ 32

/-- The level of a price of the band. -/
def index (g : Band) (price : ℤ) : ℕ := g.tickDiv.apply (u32 (price - g.minPrice))

/-- The price of level `i`. -/
def priceOf (g : Band) (i : ℕ) : ℤ := g.minPrice + i * g.tickWire

/-- The price of the level that a search of the bitmap found. -/
def priceOf? (g : Band) : Option ℕ → ℤ
  | none => kNoPrice
  | some i => g.priceOf i

end Band

/-- One side of the book: the vector of level sizes, its bitmap and its best price. -/
structure BookSide where
  /-- The number of levels. -/
  levels : ℕ
  /-- The shares at each level, 32-bit words. -/
  size : ℕ → ℕ
  /-- The levels that have shares. -/
  bits : LevelBits
  /-- The best price, `kNoPrice` when the side is empty. -/
  best : ℤ

namespace BookSide

/-- The constructor's side: `n` empty levels. -/
def empty (n bitsFor : ℕ) : BookSide := ⟨n, fun _ => 0, LevelBits.reset bitsFor, kNoPrice⟩

/-- `rebuildBits` for one side. -/
def rebuildBits (x : BookSide) : BookSide :=
  { x with
    bits := (List.range x.levels).foldl (fun bits i => if x.size i ≠ 0 then bits.set i else bits)
      (LevelBits.reset x.levels) }

/-- `rescanBestBid` and `rescanBestAsk`. -/
def rescanBest (x : BookSide) (g : Band) : Side → BookSide
  | .buy => { x with best := g.priceOf? (x.bits.prev (g.index x.best)) }
  | .sell => { x with best := g.priceOf? (x.bits.next (g.index x.best)) }

/-- `recomputeBest` for one side: search again unless the best price still has a
level with shares. -/
def recomputeBest (x : BookSide) (g : Band) (s : Side) : BookSide :=
  if x.best = kNoPrice ∨ !g.inBand x.best ∨ x.size (g.index x.best) = 0 then
    match s with
    | .buy => { x with best := g.priceOf? (x.bits.prev (x.levels - 1)) }
    | .sell => { x with best := g.priceOf? (x.bits.next 0) }
  else x

/-- Add shares at a price of the band, and take it for the best price if `top`. -/
def add (x : BookSide) (g : Band) (price : ℤ) (shares : ℕ) (top : Prop) [Decidable top] : BookSide :=
  let i := g.index price
  { x with
    bits := if x.size i = 0 then x.bits.set i else x.bits
    size := Function.update x.size i ((x.size i + shares) % 2 ^ 32)
    best := if top then price else x.best }

/-- Remove shares at a price of the band, as many as there are. -/
def remove (x : BookSide) (g : Band) (s : Side) (price : ℤ) (shares : ℕ) : BookSide :=
  let i := g.index price
  let left := if shares ≥ x.size i then 0 else x.size i - shares
  let x := { x with size := Function.update x.size i left }
  if left = 0 then
    let x := { x with bits := x.bits.clear i }
    if price = x.best then x.rescanBest g s else x
  else x

end BookSide

/-! ### The book -/

/-- `BookBuilder`. -/
structure BookBuilder where
  /-- The band that the level arrays cover. -/
  band : Band
  /-- The least reference of the own orders, `0` for none. -/
  ownRefMin : ℕ
  /-- The number of live own orders. -/
  own : ℕ
  /-- A counter that changes when the top of the book may have, a 32-bit word. -/
  topVersion : ℕ
  /-- Half the width of the band, in ticks. -/
  bandTicks : ℕ
  /-- The cap of the half width, `0` for none. -/
  maxBandTicks : ℕ
  /-- The half width that the price asks for. -/
  byPrice : ℤ → ℤ → ℤ
  /-- The configured tick. -/
  baseTick : ℤ
  /-- The tick below one dollar, `0` for none. -/
  subDollarTick : ℤ
  /-- Has the band been placed? -/
  anchored : Bool
  /-- The orders added outside the band. -/
  oob : ℕ
  /-- The number of times the band moved, a 32-bit word. -/
  reanchors : ℕ
  /-- The shares of the parked orders. -/
  parkedShares : ℕ
  /-- The session that the book's contents belong to. -/
  epoch : ℕ
  /-- A lower bound of the parked prices, `kNoPrice` when nothing is parked. -/
  parkedLo : ℤ
  /-- An upper bound of the parked prices. -/
  parkedHi : ℤ
  /-- The two sides. -/
  side : Side → BookSide
  /-- The live orders by reference. -/
  orders : FlatHashMap mix Resting

namespace BookBuilder

/-- `topVersion += c ? 1 : 0`. -/
def bumpIf (c : Prop) [Decidable c] (v : ℕ) : ℕ := if c then (v + 1) % 2 ^ 32 else v

/-- The tick that a price calls for: the sub-dollar tick, if any, below 10000. -/
def tickFor (b : BookBuilder) (price : ℤ) : ℤ :=
  if b.subDollarTick > 0 ∧ price < 10000 then b.subDollarTick else b.baseTick

/-- Does a trade at the price move the band? -/
def needsAnchor (b : BookBuilder) (price : ℤ) : Bool :=
  !b.band.inRange price || b.tickFor price < b.band.tickWire

/-- Count shares that have no level. -/
def park (b : BookBuilder) (price : ℤ) (shares : ℕ) : BookBuilder :=
  { b with
    parkedShares := b.parkedShares + shares
    parkedLo := if b.parkedLo = kNoPrice ∨ price < b.parkedLo then price else b.parkedLo
    parkedHi := if b.parkedHi = kNoPrice ∨ price > b.parkedHi then price else b.parkedHi }

/-- Take shares that have no level out again. -/
def unpark (b : BookBuilder) (shares : ℕ) : BookBuilder :=
  let parkedShares := b.parkedShares - min shares b.parkedShares
  if parkedShares = 0 then
    { b with parkedShares := 0, parkedLo := kNoPrice, parkedHi := kNoPrice }
  else { b with parkedShares := parkedShares }

/-- Add shares to the level of a price of the band. -/
def addLevel (b : BookBuilder) (s : Side) (price : ℤ) (shares : ℕ) : BookBuilder :=
  let x := b.side s
  let top := x.best = kNoPrice ∨ s.atLeast price x.best
  { b with
    side := Function.update b.side s (x.add b.band price shares top)
    topVersion := bumpIf top b.topVersion }

/-- Add shares at any price. -/
def addShares (b : BookBuilder) (s : Side) (price : ℤ) (shares : ℕ) : BookBuilder :=
  if !b.band.inBand price then { b with oob := b.oob + 1 }.park price shares
  else b.addLevel s price shares

/-- Remove shares at any price. -/
def removeShares (b : BookBuilder) (s : Side) (price : ℤ) (shares : ℕ) : BookBuilder :=
  if !b.band.inBand price then b.unpark shares
  else
    { b with
      side := Function.update b.side s ((b.side s).remove b.band s price shares)
      topVersion := bumpIf (price = (b.side s).best) b.topVersion }

/-! ### Moving the band -/

/-- Count the shares of one order of the map, in its level or parked. -/
def rebuildOne (b : BookBuilder) (r : Resting) : BookBuilder :=
  if r.own then b
  else if b.band.inBand r.price then b.addLevel r.side r.price r.shares
  else b.park r.price r.shares

/-- Fill the empty levels from the order map. -/
def rebuildLevels (b : BookBuilder) : BookBuilder :=
  b.orders.entries.foldl (fun b e => b.rebuildOne e.2)
    { b with parkedShares := 0, parkedLo := kNoPrice, parkedHi := kNoPrice }

/-- Move one side's levels to a new band of the same tick. The levels that leave the
band are parked; those that stay keep their shares. -/
def shiftLevels (b : BookBuilder) (s : Side) (newMin newMax : ℤ) : BookBuilder :=
  let x := b.side s
  let tick := b.band.tickWire
  let newN := ((newMax - newMin) / tick).toNat + 1
  let lo := max b.band.minPrice newMin
  let hi := min b.band.maxPrice newMax
  let oi0 := if lo ≤ hi then b.band.index lo else 0
  let nj0 := if lo ≤ hi then ((lo - newMin) / tick).toNat else 0
  let len := if lo ≤ hi then ((hi - lo) / tick).toNat + 1 else 0
  let b := (List.range x.levels).foldl
    (fun b i => if (i < oi0 ∨ i ≥ oi0 + len) ∧ x.size i ≠ 0 then b.park (b.band.priceOf i) (x.size i)
      else b) b
  -- the move, and the fills before and after the moved levels
  let size := fun j => if nj0 ≤ j ∧ j < nj0 + len then x.size (oi0 + (j - nj0)) else 0
  { b with side := Function.update b.side s { x with levels := newN, size := size } }

/-- The branch of `anchor` that moves the levels. -/
def shiftBand (b : BookBuilder) (newMin newMax : ℤ) : BookBuilder :=
  let b := (b.shiftLevels .buy newMin newMax).shiftLevels .sell newMin newMax
  let band := { b.band with minPrice := newMin, maxPrice := newMax }
  { b with band := band, side := fun s => (b.side s).rebuildBits.recomputeBest band s }

/-- The branch of `anchor` that starts again from the order map. -/
def rebuildBand (b : BookBuilder) (tick : ℤ) (ticks : ℕ) (newMin newMax : ℤ) : BookBuilder :=
  { b with
    band := ⟨newMin, newMax, tick, DivBy.ofDivisor (u32 tick)⟩
    side := fun _ => BookSide.empty (2 * ticks + 1) (2 * ticks + 1)
    anchored := true }.rebuildLevels

/-- Half the width of a band placed at the price, in ticks. -/
def anchorTicks (b : BookBuilder) (price tick : ℤ) (trusted : Bool) : ℕ :=
  let ticks := b.bandTicks
  let ticks := if trusted ∧ b.byPrice price tick > ticks then (b.byPrice price tick).toNat else ticks
  if b.maxBandTicks ≠ 0 ∧ ticks > b.maxBandTicks then b.maxBandTicks else ticks

/-- Place the band around the price. An untrusted price, the first one seen, gets the
configured width. -/
def anchor (b : BookBuilder) (price : ℤ) (trusted : Bool) : BookBuilder :=
  let b := { b with topVersion := (b.topVersion + 1) % 2 ^ 32 }
  let tick := if b.anchored then min (b.tickFor price) b.band.tickWire else b.tickFor price
  let ticks : ℕ := b.anchorTicks price tick trusted
  let span := (ticks : ℤ) * tick
  let aligned := price - price.tmod tick
  let newMin := max (aligned - span) 0
  let newMax := newMin + 2 * span
  let shiftable := b.anchored ∧ tick = b.band.tickWire ∧
    (b.parkedShares = 0 ∨ newMax < b.parkedLo ∨ newMin > b.parkedHi)
  let b := { b with reanchors := bumpIf b.anchored b.reanchors }
  if shiftable then b.shiftBand newMin newMax else b.rebuildBand tick ticks newMin newMax

/-- Follow a trade that happened at the price. -/
def onTradePrice (b : BookBuilder) (price : ℤ) : BookBuilder :=
  if b.needsAnchor price then b.anchor price true else b

/-! ### The constructors -/

/-- The constructor with a fixed band. -/
def ofRange (minPrice maxPrice tickWire : ℤ) (maxOrders ownRefMin : ℕ) : BookBuilder where
  band := ⟨minPrice, maxPrice, tickWire, DivBy.ofDivisor (u32 tickWire)⟩
  ownRefMin := ownRefMin
  own := 0
  topVersion := 0
  bandTicks := 0
  maxBandTicks := 0
  byPrice _ _ := 0
  baseTick := 1
  subDollarTick := 0
  anchored := true
  oob := 0
  reanchors := 0
  parkedShares := 0
  epoch := 0
  parkedLo := kNoPrice
  parkedHi := kNoPrice
  side _ :=
    let n := ((maxPrice - minPrice) / tickWire).toNat + 1
    BookSide.empty n n
  orders := FlatHashMap.empty maxOrders

/-- The constructor from a configuration: the band is placed later, unless the
configuration knows a price. -/
def ofConfig (cfg : BookConfig) : BookBuilder :=
  let b : BookBuilder :=
    { band := ⟨0, -1, cfg.tickWire, DivBy.ofDivisor (u32 cfg.tickWire)⟩
      ownRefMin := cfg.ownRefMin
      own := 0
      topVersion := 0
      bandTicks := cfg.bandTicks
      maxBandTicks := cfg.maxBandTicks
      byPrice := cfg.byPrice
      baseTick := cfg.tickWire
      subDollarTick := cfg.subDollarTickWire
      anchored := false
      oob := 0
      reanchors := 0
      parkedShares := 0
      epoch := 0
      parkedLo := kNoPrice
      parkedHi := kNoPrice
      side := fun _ => BookSide.empty 0 1
      orders := FlatHashMap.empty cfg.maxOrders }
  if cfg.anchorPrice ≠ kNoPrice then b.anchor cfg.anchorPrice true else b

/-! ### The messages -/

/-- The end of `onAddOrder` and `onOrderReplace`: the order enters the map, and the
count of own orders or a level. -/
def insertOrder (b : BookBuilder) (ref : ℕ) (price : ℤ) (shares : ℕ) (side : Side) (own : Bool) :
    BookBuilder :=
  let b := { b with orders := b.orders.insertOrAssign ref (Resting.make price shares side own) }
  if own then { b with own := b.own + 1 } else b.addShares side price shares

/-- The end of a removal: an order that has left the map leaves the count of own
orders or its level. -/
def countOut (b : BookBuilder) (o : Resting) : BookBuilder :=
  if o.own then { b with own := b.own - 1 } else b.removeShares o.side o.price o.shares

/-- An order was added. -/
def onAddOrder (b : BookBuilder) (ref : ℕ) (side : Side) (shares wire : ℕ) : BookBuilder :=
  if shares = 0 then b
  else
    let price := toPrice wire
    let own : Bool := b.ownRefMin ≠ 0 ∧ ref ≥ b.ownRefMin
    let b := if !b.anchored then b.anchor price false else b
    b.insertOrder ref price shares side own

/-- An order was replaced by another one, on the same side and of the same owner. -/
def onOrderReplace (b : BookBuilder) (origRef newRef shares wire : ℕ) : BookBuilder :=
  match b.orders.erase origRef with
  | none => b
  | some (orig, orders) =>
      let b := { b with orders := orders }.countOut orig
      if shares = 0 then b else b.insertOrder newRef (toPrice wire) shares orig.side orig.own

/-- An order lost shares, by a trade or a cancel. A trade outside the band moves the
band before the shares leave it. -/
def reduceOrder (b : BookBuilder) (ref shares : ℕ) (trade : Bool) : BookBuilder :=
  match b.orders.find ref with
  | none => b
  | some i =>
      let o := b.orders.valueAt i
      let b := if trade && b.needsAnchor o.price then b.anchor o.price true else b
      let gone := if shares < o.shares then shares else o.shares
      let b := if !o.own then b.removeShares o.side o.price gone else b
      let orders := b.orders.setValueAt i (o.setShares (o.shares - gone))
      if o.shares = gone then
        { b with own := if o.own then b.own - 1 else b.own, orders := orders.eraseAt i }
      else { b with orders := orders }

/-- An order left the book. -/
def removeOrder (b : BookBuilder) (ref : ℕ) : BookBuilder :=
  match b.orders.erase ref with
  | none => b
  | some (o, orders) => { b with orders := orders }.countOut o

/-- Apply one message of the feed. -/
def apply (b : BookBuilder) : Itch.Body → BookBuilder
  | .addOrder ref side shares price => b.onAddOrder ref side shares price
  | .orderExecuted ref shares _ => b.reduceOrder ref shares true
  | .orderExecutedWithPrice ref shares _ _ => b.reduceOrder ref shares true
  | .orderCancel ref shares => b.reduceOrder ref shares false
  | .tradeNonCross _ _ _ price _ => b.onTradePrice (toPrice price)
  | .crossTrade shares price _ =>
      if shares > 0 ∧ price > 0 then b.onTradePrice (toPrice price) else b
  | .orderDelete ref => b.removeOrder ref
  | .orderReplace orig new shares price => b.onOrderReplace orig new shares price
  | _ => b

/-- Forget every order. Without orders only the best prices are reset. -/
def clear (b : BookBuilder) : BookBuilder :=
  let b := { b with topVersion := (b.topVersion + 1) % 2 ^ 32 }
  if wrapNeg b.orders.size = 0 ∧ b.own = 0 ∧ b.parkedShares = 0 then
    { b with side := fun s => { b.side s with best := kNoPrice } }
  else
    { b with
      side := fun s =>
        { b.side s with size := fun _ => 0, bits := (b.side s).bits.clearAll, best := kNoPrice }
      orders := b.orders.clear
      own := 0
      parkedShares := 0
      parkedLo := kNoPrice
      parkedHi := kNoPrice }

/-! ### Queries -/

/-- The best bid. -/
def bestBid (b : BookBuilder) : ℤ := (b.side .buy).best

/-- The best offer. -/
def bestAsk (b : BookBuilder) : ℤ := (b.side .sell).best

/-- The shares shown at a price. -/
def sizeAt (b : BookBuilder) (s : Side) (price : ℤ) : ℕ :=
  if !b.band.inBand price then 0 else (b.side s).size (b.band.index price)

/-- The shares left of an order, `0` if it is not live. -/
def restingShares (b : BookBuilder) (ref : ℕ) : ℕ :=
  match b.orders.find ref with
  | none => 0
  | some i => (b.orders.valueAt i).shares

/-- The price of an order, `kNoPrice` if it is not live. -/
def restingPrice (b : BookBuilder) (ref : ℕ) : ℤ :=
  match b.orders.find ref with
  | none => kNoPrice
  | some i => (b.orders.valueAt i).price

/-- The low end of the band. -/
def bandLow (b : BookBuilder) : ℤ := b.band.minPrice

/-- The high end of the band. -/
def bandHigh (b : BookBuilder) : ℤ := b.band.maxPrice

/-- The number of live orders. -/
def liveOrders (b : BookBuilder) : ℤ := wrapNeg b.orders.size

end BookBuilder

end TickToTrade.Dut
