import Mathlib.Data.List.Basic
import Mathlib.Logic.Function.Basic
import TickToTrade.Lob.Types

/-!
# The order book

The matching engine: an array of levels for each side, and a pool that holds the
orders. The orders of a level are linked in the order of their arrival, the free cells
of the pool are linked to be used again, and the best price of each side is kept.

The mark `kNilHandle` for "no order" is `none` here: a pool has never so many cells that
the number of one is the mark. The arrays of levels are
functions of the price, which the program shifts by the least price. The number of
orders of a level, which nothing reads, is left out. The trades of `match`, which the
program hands to a sink one by one, are a list.
-/

namespace TickToTrade

/-- `Order`: a cell of the pool. -/
structure Order where
  id : ℕ := 0
  price : ℤ := 0
  qty : ℕ := 0
  side : Side := .buy
  prev : Option ℕ := none
  next : Option ℕ := none
deriving DecidableEq, Repr

/-- A level: its shares, a 32-bit word, and the two ends of its queue. -/
structure Level where
  totalQty : ℕ := 0
  head : Option ℕ := none
  tail : Option ℕ := none
deriving DecidableEq, Repr

/-- `OrderBook`. -/
structure OrderBook where
  minPrice : ℤ
  maxPrice : ℤ
  best : Side → ℤ := fun _ => kNoPrice
  levels : Side → ℤ → Level := fun _ _ => {}
  pool : ℕ → Order := fun _ => {}
  /-- The number of cells in the pool. -/
  size : ℕ := 0
  freeHead : Option ℕ := none

namespace OrderBook

/-- The constructor. -/
def new (minPrice maxPrice : ℤ) : OrderBook where
  minPrice := minPrice
  maxPrice := maxPrice

/-- Is the price one of the book's? -/
def InRange (b : OrderBook) (p : ℤ) : Prop := b.minPrice ≤ p ∧ p ≤ b.maxPrice

instance (b : OrderBook) (p : ℤ) : Decidable (b.InRange p) := by unfold InRange; infer_instance

/-! ### Looking at the book -/

def bestBid (b : OrderBook) : ℤ := b.best .buy

def bestAsk (b : OrderBook) : ℤ := b.best .sell

/-- The shares at a price. -/
def volumeAt (b : OrderBook) (s : Side) (p : ℤ) : ℕ := if b.InRange p then (b.levels s p).totalQty else 0

/-- The order in a cell. -/
def order (b : OrderBook) (h : ℕ) : Order := b.pool h

/-- Are both sides empty? -/
def empty (b : OrderBook) : Bool := b.bestBid = kNoPrice && b.bestAsk = kNoPrice

/-- Walk the queue from a handle on, over `fuel` orders at most. -/
def ordersFrom (b : OrderBook) : ℕ → Option ℕ → List Order
  | fuel + 1, some h => b.pool h :: b.ordersFrom fuel (b.pool h).next
  | _, _ => []

/-- `forEachOrderAtLevel`: the orders that it visits. A level has no more orders than
the pool has cells. -/
def ordersAtLevel (b : OrderBook) (s : Side) (p : ℤ) : List Order :=
  if b.InRange p then b.ordersFrom b.size (b.levels s p).head else []

/-! ### The pool and the levels -/

/-- Overwrite a cell. -/
def setOrder (b : OrderBook) (h : ℕ) (o : Order) : OrderBook := { b with pool := Function.update b.pool h o }

/-- Overwrite a level. -/
def setLevel (b : OrderBook) (s : Side) (p : ℤ) (lvl : Level) : OrderBook :=
  { b with levels := Function.update b.levels s (Function.update (b.levels s) p lvl) }

/-- Let the next order of `e`, if there is such an order, be `x`. -/
def linkNext (b : OrderBook) (e x : Option ℕ) : OrderBook :=
  match e with
  | some h => b.setOrder h { b.pool h with next := x }
  | none => b

/-- Let the previous order of `e`, if there is such an order, be `x`. -/
def linkPrev (b : OrderBook) (e x : Option ℕ) : OrderBook :=
  match e with
  | some h => b.setOrder h { b.pool h with prev := x }
  | none => b

/-- Take a cell: a free one, else a new one. -/
def alloc (b : OrderBook) : ℕ × OrderBook :=
  match b.freeHead with
  | some h => (h, { b with freeHead := (b.pool h).next })
  | none => (b.size, { b.setOrder b.size {} with size := b.size + 1 })

/-- Give a cell back. -/
def free (b : OrderBook) (h : ℕ) : OrderBook :=
  { b.setOrder h { b.pool h with next := b.freeHead } with freeHead := some h }

/-- Take an order out of the queue of its level. -/
def unlink (b : OrderBook) (s : Side) (p : ℤ) (h : ℕ) : OrderBook :=
  let o := b.pool h
  let lvl := b.levels s p
  ((b.linkNext o.prev o.next).linkPrev o.next o.prev).setLevel s p
    { lvl with
      head := if o.prev = none then o.next else lvl.head
      tail := if o.next = none then o.prev else lvl.tail }

/-- Subtract shares from a level. -/
def takeShares (b : OrderBook) (s : Side) (p : ℤ) (qty : ℕ) : OrderBook :=
  let lvl := b.levels s p
  b.setLevel s p { lvl with totalQty := (lvl.totalQty + 2 ^ 32 - qty) % 2 ^ 32 }

/-! ### The best prices -/

/-- The next price away from the market. -/
def worse : Side → ℤ → ℤ
  | .buy, p => p - 1
  | .sell, p => p + 1

/-- The number of prices of the book from this one on, away from the market. -/
def pricesFrom (b : OrderBook) : Side → ℤ → ℕ
  | .buy, p => (p - b.minPrice + 1).toNat
  | .sell, p => (b.maxPrice - p + 1).toNat

/-- The first price with shares, from `p` on. -/
def scan (b : OrderBook) (s : Side) : ℕ → ℤ → ℤ
  | 0, _ => kNoPrice
  | n + 1, p => if (b.levels s p).totalQty > 0 then p else b.scan s n (worse s p)

/-- Find the best price again, from the old one on. -/
def rescan (b : OrderBook) (s : Side) : OrderBook :=
  { b with best := Function.update b.best s (b.scan s (b.pricesFrom s (b.best s)) (b.best s)) }

def rescanBestBid (b : OrderBook) : OrderBook := b.rescan .buy

def rescanBestAsk (b : OrderBook) : OrderBook := b.rescan .sell

/-- `rescanBestBid` or `rescanBestAsk`. -/
def rescanBest (b : OrderBook) : Side → OrderBook
  | .buy => b.rescanBestBid
  | .sell => b.rescanBestAsk

/-! ### Resting -/

/-- The last part of `rest`: the new order may be the best. -/
def improve (b : OrderBook) (s : Side) (p : ℤ) : OrderBook :=
  if b.best s = kNoPrice ∨ ¬ s.atLeast (b.best s) p then { b with best := Function.update b.best s p } else b

/-- Put the order of a cell at the end of the queue of its level. -/
def append (b : OrderBook) (s : Side) (p : ℤ) (h : ℕ) (qty : ℕ) : OrderBook :=
  let lvl := b.levels s p
  let total := (lvl.totalQty + qty) % 2 ^ 32
  match lvl.tail with
  | none => b.setLevel s p { totalQty := total, head := some h, tail := some h }
  | some t =>
      ((b.linkNext (some t) (some h)).linkPrev (some h) (some t)).setLevel s p
        { totalQty := total, head := lvl.head, tail := some h }

/-- Let an order rest. -/
def rest (b : OrderBook) (id : ℕ) (s : Side) (p : ℤ) (qty : ℕ) : ℕ × OrderBook :=
  let (h, b) := b.alloc
  let b := b.setOrder h { id := id, price := p, qty := qty, side := s, prev := none, next := none }
  (h, (b.append s p h qty).improve s p)

/-! ### Trading -/

/-- A resting order is filled: it leaves the front of its queue. -/
def popHead (b : OrderBook) (s : Side) (p : ℤ) (h : ℕ) : OrderBook :=
  let lvl := b.levels s p
  let next := (b.pool h).next
  let b := (b.linkPrev next none).setLevel s p
    { lvl with head := next, tail := if next = none then none else lvl.tail }
  b.free h

/-- One turn of the loop of `matchLevel`: trade `fill` shares with the order `h`. -/
def trade (b : OrderBook) (s : Side) (p : ℤ) (h : ℕ) (fill : ℕ) : OrderBook :=
  let r := b.pool h
  let b := (b.setOrder h { r with qty := r.qty - fill }).takeShares s p fill
  if fill = r.qty then b.popHead s p h else b

/-- The loop of `matchLevel`, over `fuel` orders at most. -/
def matchLoop (aggId : ℕ) (aggSide : Side) (s : Side) (p : ℤ) : ℕ → OrderBook → ℕ → OrderBook × ℕ × List Trade
  | 0, b, qty => (b, qty, [])
  | fuel + 1, b, qty =>
      match (b.levels s p).head with
      | none => (b, qty, [])
      | some h =>
          if qty = 0 then (b, qty, [])
          else
            let r := b.pool h
            let fill := if qty < r.qty then qty else r.qty
            let t : Trade := ⟨r.id, aggId, r.price, fill, aggSide, fill = r.qty⟩
            let (b, qty, ts) := matchLoop aggId aggSide s p fuel (b.trade s p h fill) (qty - fill)
            (b, qty, t :: ts)

/-- Trade an arriving order with a level. The level has no more orders than the pool
has cells. -/
def matchLevel (b : OrderBook) (s : Side) (p : ℤ) (aggId : ℕ) (aggSide : Side) (qty : ℕ) :
    OrderBook × ℕ × List Trade :=
  matchLoop aggId aggSide s p b.size b qty

/-- One turn of the loop of `match`: the best level, and the scan for the next one if
it is used up. -/
def matchBest (b : OrderBook) (s : Side) (aggId : ℕ) (aggSide : Side) (qty : ℕ) : OrderBook × ℕ × List Trade :=
  let p := b.best s
  let (b, qty, ts) := b.matchLevel s p aggId aggSide qty
  (if (b.levels s p).totalQty = 0 then b.rescanBest s else b, qty, ts)

/-- The loop of `match`, over `fuel` levels at most. -/
def matchLevels (aggId : ℕ) (aggSide : Side) (price : ℤ) : ℕ → OrderBook → ℕ → OrderBook × ℕ × List Trade
  | 0, b, qty => (b, qty, [])
  | fuel + 1, b, qty =>
      let s := aggSide.opposite
      if qty > 0 ∧ b.best s ≠ kNoPrice ∧ s.atLeast (b.best s) price then
        let (b, qty, ts) := b.matchBest s aggId aggSide qty
        let (b, qty, ts') := matchLevels aggId aggSide price fuel b qty
        (b, qty, ts ++ ts')
      else (b, qty, [])

/-- Trade an arriving order; the result has the shares left and the trades. No more
levels are used up than the pool has cells. -/
def «match» (b : OrderBook) (id : ℕ) (side : Side) (price : ℤ) (qty : ℕ) : OrderBook × ℕ × List Trade :=
  if qty = 0 ∨ ¬ b.InRange price then (b, 0, [])
  else matchLevels id side price (b.size + 1) b qty

/-- Trade an arriving order and let the rest of it rest. -/
def add (b : OrderBook) (id : ℕ) (side : Side) (price : ℤ) (qty : ℕ) : Option ℕ × OrderBook × List Trade :=
  if qty = 0 ∨ ¬ b.InRange price then (none, b, [])
  else
    let (b, rem, ts) := b.match id side price qty
    if rem > 0 then
      let (h, b) := b.rest id side price rem
      (some h, b, ts)
    else (none, b, ts)

/-- Let an order rest without trading. -/
def place (b : OrderBook) (id : ℕ) (side : Side) (price : ℤ) (qty : ℕ) : Option ℕ × OrderBook :=
  if qty = 0 ∨ ¬ b.InRange price then (none, b)
  else
    let (h, b) := b.rest id side price qty
    (some h, b)

/-! ### Changing resting orders -/

/-- Forget all orders. -/
def clear (b : OrderBook) : OrderBook := { minPrice := b.minPrice, maxPrice := b.maxPrice }

/-- The middle of `cancel`: take the order of a cell from its level and free the cell. -/
def dropOrder (b : OrderBook) (s : Side) (p : ℤ) (h : ℕ) (qty : ℕ) : OrderBook :=
  let b := (b.unlink s p h).takeShares s p qty
  (b.setOrder h { b.pool h with qty := 0 }).free h

/-- Take an order out of the book; the result has the shares removed. -/
def cancel (b : OrderBook) (h : ℕ) : ℕ × OrderBook :=
  let o := b.pool h
  if h ≥ b.size then (0, b)
  else if o.qty = 0 then (0, b)
  else
    let b := b.dropOrder o.side o.price h o.qty
    (o.qty,
      if (b.levels o.side o.price).totalQty = 0 ∧ o.price = b.best o.side then b.rescanBest o.side else b)

/-- The end of `reduce`: leave an order with `newQty` shares, `delta` fewer. -/
def shrinkOrder (b : OrderBook) (s : Side) (p : ℤ) (h : ℕ) (newQty delta : ℕ) : OrderBook :=
  (b.setOrder h { b.pool h with qty := newQty }).takeShares s p delta

/-- Take shares from an order; the result has the shares removed. -/
def reduce (b : OrderBook) (h : ℕ) (newQty : ℕ) : ℕ × OrderBook :=
  let o := b.pool h
  if h ≥ b.size then (0, b)
  else if o.qty = 0 ∨ newQty ≥ o.qty then (0, b)
  else if newQty = 0 then b.cancel h
  else (o.qty - newQty, b.shrinkOrder o.side o.price h newQty (o.qty - newQty))

end OrderBook

end TickToTrade
