import TickToTrade.Protocol.Ouch50

/-!
# The order manager

The DUT quotes one bid and one offer for each symbol, each in a slot that follows the
order at the venue through its requests and their answers. `reconcile` compares a
slot with the quote that the strategy wants and sends the request that brings them
together; a slot that waits for an answer is left alone. `onAck` takes the venue's
answers in.

The slot's array index of a symbol and a side is the pair of them. The log of unknown
answers only reports and is left out, down to its counter.
-/

namespace TickToTrade.Dut

/-- The DUT's own trading state for one symbol. -/
structure Account where
  /-- The signed inventory in shares. -/
  position : ℤ := 0
deriving DecidableEq, Repr

/-- The quotes that the strategy wants. Prices are wire prices. -/
structure QuoteTargets where
  quoteBid : Bool := false
  bidPrice : ℤ := 0
  bidQty : ℕ := 0
  quoteAsk : Bool := false
  askPrice : ℤ := 0
  askQty : ℕ := 0
deriving DecidableEq, Repr

/-- `OmsConfig`. -/
structure OmsConfig where
  /-- The names of the symbols. -/
  symbols : List (List UInt8)
  /-- The first reference to use. -/
  firstUserRef : ℕ := 1

/-- The state of a slot. -/
inductive QuoteState where
  | idle
  | pendingNew
  | live
  | pendingReplace
  | pendingCancel
deriving DecidableEq, Repr

/-- A slot: an order of the DUT, or the place for one. -/
structure QuoteSlot where
  state : QuoteState := .idle
  /-- The reference of the order. -/
  userRef : ℕ := 0
  /-- The reference that a replace in flight will give it. -/
  pendingRef : ℕ := 0
  price : ℤ := 0
  qty : ℕ := 0
  /-- The shares left. -/
  leaves : ℕ := 0
deriving DecidableEq, Repr

/-- Is the slot waiting for an answer? -/
def QuoteState.Pending (s : QuoteState) : Prop :=
  s = .pendingNew ∨ s = .pendingReplace ∨ s = .pendingCancel

instance (s : QuoteState) : Decidable s.Pending := by unfold QuoteState.Pending; infer_instance

namespace QuoteSlot

/-- Does the slot hold the order with this reference? -/
def Holds (s : QuoteSlot) (userRef : ℕ) : Prop := s.state ≠ .idle ∧ s.userRef = userRef

instance (s : QuoteSlot) (userRef : ℕ) : Decidable (s.Holds userRef) := by
  unfold Holds; infer_instance

/-- Does the slot wait for a replace to this reference? -/
def Awaits (s : QuoteSlot) (userRef : ℕ) : Prop :=
  s.state = .pendingReplace ∧ s.pendingRef = userRef

instance (s : QuoteSlot) (userRef : ℕ) : Decidable (s.Awaits userRef) := by
  unfold Awaits; infer_instance

end QuoteSlot

/-- The counters. -/
structure OmsStats where
  enters : ℕ := 0
  replaces : ℕ := 0
  cancels : ℕ := 0
  accepts : ℕ := 0
  fills : ℕ := 0
  rejects : ℕ := 0
  unknown : ℕ := 0
  tests : ℕ := 0
  rejReplace : ℕ := 0
  rejPrice : ℕ := 0
  rejQty : ℕ := 0
  rejOther : ℕ := 0
  pendingSkips : ℕ := 0
  unchanged : ℕ := 0
deriving DecidableEq, Repr

/-- A request to send, with the reference that measurements know it by. -/
structure Outbound where
  msg : Ouch.In
  userRef : ℕ
deriving DecidableEq, Repr

/-- An entry of the ring of references: the slot that a reference was made for. -/
structure RefSide where
  userRef : ℕ := 0
  /-- The symbol, a 16-bit word. -/
  sym : ℕ := 0
  side : Side := .buy
deriving DecidableEq, Repr

/-- `OrderManager`. -/
structure OrderManager where
  /-- The names of the symbols, at least one. -/
  symbols : List (List UInt8)
  stats : OmsStats := {}
  /-- The next reference, a 32-bit word. -/
  nextUserRef : ℕ
  slots : ℕ → Side → QuoteSlot := fun _ _ => {}
  /-- The symbol of the slot that the last answer was for. -/
  ackSym : Option ℕ := none
  acct : ℕ → Account := fun _ => {}
  /-- The ring of references. -/
  refs : ℕ → RefSide := fun _ => {}

/-- Count a rejection by its reason. -/
def OmsStats.reject (c : OmsStats) (reason : Ouch.RejectReason) : OmsStats :=
  let c := { c with rejects := c.rejects + 1 }
  match reason with
  | .replaceNotAllowed => { c with rejReplace := c.rejReplace + 1 }
  | .invalidPrice => { c with rejPrice := c.rejPrice + 1 }
  | .invalidQuantity => { c with rejQty := c.rejQty + 1 }
  | _ => { c with rejOther := c.rejOther + 1 }

namespace OrderManager

/-- The length of the ring of references. -/
def kRefRing : ℕ := 4096

/-- The symbol of test orders. -/
def kTestSym : ℕ := 0xffff

/-- The constructor. -/
def new (cfg : OmsConfig) : OrderManager where
  symbols := if cfg.symbols = [] then [[]] else cfg.symbols
  nextUserRef := if cfg.firstUserRef = 0 then 1 else cfg.firstUserRef

/-- The number of symbols. -/
def symbolCount (o : OrderManager) : ℕ := o.symbols.length

/-- Overwrite a slot. -/
def setSlot (o : OrderManager) (sym : ℕ) (side : Side) (s : QuoteSlot) : OrderManager :=
  { o with slots := Function.update o.slots sym (Function.update (o.slots sym) side s) }

/-- Change the counters. -/
def count (o : OrderManager) (f : OmsStats → OmsStats) : OrderManager := { o with stats := f o.stats }

/-! ### Requests -/

/-- `ouchSide`. -/
def ouchSide : Side → Ouch.SideCode
  | .buy => .buy
  | .sell => .sell

/-- A symbol's name as its field of 8 bytes holds it. -/
def symbolField (name : List UInt8) : List UInt8 := Itch.alphaView (name.take 8)

/-- Draw the next reference. -/
def allocRef (o : OrderManager) (sym : ℕ) (side : Side) : ℕ × OrderManager :=
  let ref := o.nextUserRef
  let next := (ref + 1) % 2 ^ 32
  (ref, { o with
    nextUserRef := if next = 0 then 1 else next
    refs := Function.update o.refs (ref % kRefRing) ⟨ref, sym % 2 ^ 16, side⟩ })

/-- The request for a new order. -/
def encodeEnter (o : OrderManager) (sym userRef : ℕ) (side : Side) (price : ℤ) (qty : ℕ) : Outbound where
  msg := .enterOrder
    { userRefNum := userRef
      side := ouchSide side
      quantity := qty
      symbol := symbolField (o.symbols.getD sym [])
      price := wirePrice price
      timeInForce := .day }
  userRef := userRef

/-- The request to replace an order. -/
def encodeReplace (origRef userRef : ℕ) (price : ℤ) (qty : ℕ) : Outbound where
  msg := .replaceOrder
    { origUserRefNum := origRef, userRefNum := userRef, quantity := qty, price := wirePrice price }
  userRef := userRef

/-- The request to cancel an order. -/
def encodeCancel (userRef : ℕ) : Outbound where
  msg := .cancelOrder { userRefNum := userRef, quantity := 0 }
  userRef := userRef

/-- The name of the symbol of test orders, `ZVZZT`. -/
def kTestSymbol : List UInt8 := [90, 86, 90, 90, 84]

/-- A test order, which no slot follows. -/
def encodeTestOrder (o : OrderManager) : OrderManager × Outbound :=
  let (ref, o) := o.allocRef kTestSym .buy
  (o,
    { msg := .enterOrder
        { userRefNum := ref
          side := ouchSide .buy
          quantity := 1
          symbol := symbolField kTestSymbol
          price := wirePrice 100
          timeInForce := .day }
      userRef := ref })

/-- Bring a slot to what the strategy wants. -/
def reconcileSlot (o : OrderManager) (s : QuoteSlot) (sym : ℕ) (side : Side) (want : Bool) (price : ℤ)
    (qty : ℕ) : OrderManager × QuoteSlot × List Outbound :=
  let want := want && decide (qty ≠ 0)
  match s.state with
  | .idle =>
      if !want then (o, s, [])
      else
        let (ref, o) := o.allocRef sym side
        (o.count fun c => { c with enters := c.enters + 1 },
          { state := .pendingNew, userRef := ref, pendingRef := 0, price := price, qty := qty,
            leaves := qty },
          [o.encodeEnter sym ref side price qty])
  | .live =>
      if !want then
        (o.count fun c => { c with cancels := c.cancels + 1 }, { s with state := .pendingCancel },
          [encodeCancel s.userRef])
      else if price = s.price ∧ qty = s.leaves then
        (o.count fun c => { c with unchanged := c.unchanged + 1 }, s, [])
      else
        let (ref, o) := o.allocRef sym side
        (o.count fun c => { c with replaces := c.replaces + 1 },
          { s with state := .pendingReplace, pendingRef := ref },
          [encodeReplace s.userRef ref price qty])
  | .pendingNew | .pendingReplace | .pendingCancel =>
      (o.count fun c => { c with pendingSkips := c.pendingSkips + if want then 1 else 0 }, s, [])

/-- Bring one side of a symbol to what the strategy wants. -/
def reconcileSide (o : OrderManager) (sym : ℕ) (side : Side) (want : Bool) (price : ℤ) (qty : ℕ) :
    OrderManager × List Outbound :=
  let (o, s, out) := o.reconcileSlot (o.slots sym side) sym side want price qty
  (o.setSlot sym side s, out)

/-- Does the bid move to the offer's price or through it? Then the offer goes first. -/
def sellFirst (o : OrderManager) (sym : ℕ) (t : QuoteTargets) : Bool :=
  let ask := o.slots sym .sell
  t.quoteBid && ask.state ≠ .idle && t.bidPrice ≥ ask.price

/-- Bring a symbol to what the strategy wants. -/
def reconcile (o : OrderManager) (sym : ℕ) (t : QuoteTargets) : OrderManager × List Outbound :=
  if o.sellFirst sym t then
    let (o, ask) := o.reconcileSide sym .sell t.quoteAsk t.askPrice t.askQty
    let (o, bid) := o.reconcileSide sym .buy t.quoteBid t.bidPrice t.bidQty
    (o, ask ++ bid)
  else
    let (o, bid) := o.reconcileSide sym .buy t.quoteBid t.bidPrice t.bidQty
    let (o, ask) := o.reconcileSide sym .sell t.quoteAsk t.askPrice t.askQty
    (o, bid ++ ask)

/-- Walk through the requests with a slot of no symbol, and put everything back. -/
def warmReconcile (o : OrderManager) (sym : ℕ) : OrderManager :=
  let scratch : QuoteSlot := {}
  let stats := o.stats
  let nextRef := o.nextUserRef
  let ref0 := o.refs (nextRef % kRefRing)
  let ref1 := o.refs ((nextRef + 1) % 2 ^ 32 % kRefRing)
  let (o, scratch, _) := o.reconcileSlot scratch sym .buy true 1 1
  let scratch := { scratch with state := .live, price := 1, leaves := 1 }
  let (o, _, _) := o.reconcileSlot scratch sym .buy true 2 1
  let refs := Function.update o.refs (nextRef % kRefRing) ref0
  { o with
    stats := stats
    nextUserRef := nextRef
    refs := Function.update refs ((nextRef + 1) % 2 ^ 32 % kRefRing) ref1 }

/-! ### Finding the slot of an answer -/

/-- The symbol and the side that the ring has for a reference. -/
def lookupRef (o : OrderManager) (userRef : ℕ) : Option (ℕ × Side) :=
  let r := o.refs (userRef % kRefRing)
  if r.userRef ≠ userRef then none else some (r.sym, r.side)

/-- Is it the reference of a test order? -/
def isTestRef (o : OrderManager) (userRef : ℕ) : Bool :=
  let r := o.refs (userRef % kRefRing)
  r.userRef = userRef ∧ r.sym = kTestSym

/-- The slots in the order of a walk over the array. -/
def positions (o : OrderManager) : List (ℕ × Side) :=
  (List.range o.symbolCount).flatMap fun i => [(i, .buy), (i, .sell)]

/-- The slot that holds the order with this reference: the one the ring names if it
does, else the first of all. -/
def slotByRef (o : OrderManager) (userRef : ℕ) : Option (ℕ × Side) :=
  let scan := o.positions.find? fun p => (o.slots p.1 p.2).Holds userRef
  match o.lookupRef userRef with
  | some (hint, side) =>
      if hint < o.symbolCount ∧ (o.slots hint side).Holds userRef then some (hint, side) else scan
  | none => scan

/-- The slot that waits for a replace to this reference. -/
def slotByPending (o : OrderManager) (userRef : ℕ) : Option (ℕ × Side) :=
  o.positions.find? fun p => (o.slots p.1 p.2).Awaits userRef

/-! ### Answers -/

/-- An order has ended, its slot is free. -/
def settle : QuoteSlot := {}

/-- Count an answer that no slot is waiting for. -/
def unknownAck (o : OrderManager) : OrderManager := o.count fun c => { c with unknown := c.unknown + 1 }

/-- Remember whose slot an answer was for. -/
def found (o : OrderManager) (sym : ℕ) : OrderManager := { o with ackSym := some sym }

/-- A new order was accepted. -/
def onAccepted (o : OrderManager) (m : Ouch.Accepted) : OrderManager :=
  if o.isTestRef m.userRefNum then o.count fun c => { c with tests := c.tests + 1 }
  else
    match o.slotByRef m.userRefNum with
    | none => o.unknownAck
    | some (sym, side) =>
        let o := o.found sym
        let s := o.slots sym side
        if s.state ≠ .pendingNew then o.unknownAck
        else
          let o := o.count fun c => { c with accepts := c.accepts + 1 }
          if m.orderState = .dead then o.setSlot sym side settle
          else
            o.setSlot sym side { s with qty := m.quantity, leaves := m.quantity, state := .live }

/-- An order was replaced. -/
def onReplaced (o : OrderManager) (m : Ouch.Replaced) : OrderManager :=
  match o.slotByPending m.userRefNum with
  | none => o.unknownAck
  | some (sym, side) =>
      let o := o.count fun c => { c with accepts := c.accepts + 1 }
      if m.orderState = .dead then o.setSlot sym side settle
      else
        o.setSlot sym side
          { state := .live, userRef := m.userRefNum, pendingRef := 0, price := toPrice m.price,
            qty := m.quantity, leaves := m.quantity }

/-- An order traded. -/
def onExecuted (o : OrderManager) (m : Ouch.Executed) : OrderManager :=
  match o.slotByRef m.userRefNum with
  | none => o.unknownAck
  | some (sym, side) =>
      let o := (o.found sym).count fun c => { c with fills := c.fills + 1 }
      let s := o.slots sym side
      let position := (o.acct sym).position
      let position := match side with
        | .buy => position + m.quantity
        | .sell => position - m.quantity
      let o := { o with acct := Function.update o.acct sym ⟨position⟩ }
      let leaves := if m.quantity ≥ s.leaves then 0 else s.leaves - m.quantity
      if leaves = 0 ∧ s.state = .live then o.setSlot sym side settle
      else o.setSlot sym side { s with leaves := leaves }

/-- An order lost shares without a trade. -/
def onCanceled (o : OrderManager) (m : Ouch.Canceled) : OrderManager :=
  match o.slotByRef m.userRefNum with
  | none => o.unknownAck
  | some (sym, side) =>
      let o := o.found sym
      let s := o.slots sym side
      let leaves := if m.quantity ≥ s.leaves then 0 else s.leaves - m.quantity
      if leaves = 0 ∨ s.state = .pendingCancel then o.setSlot sym side settle
      else
        o.setSlot sym side
          { s with leaves := leaves, state := if s.state = .pendingNew then .live else s.state }

/-- A new order or a replacement was refused. -/
def onRejected (o : OrderManager) (m : Ouch.Rejected) : OrderManager :=
  if o.isTestRef m.userRefNum then o.count fun c => { c with tests := c.tests + 1 }
  else
    let o := o.count fun c => c.reject m.reason
    match o.slotByPending m.userRefNum with
    | some (sym, side) =>
        let p := o.slots sym side
        if p.leaves > 0 then o.setSlot sym side { p with pendingRef := 0, state := .live }
        else o.setSlot sym side settle
    | none =>
        match o.slotByRef m.userRefNum with
        | none => o.unknownAck
        | some (sym, side) => (o.found sym).setSlot sym side settle

/-- A cancel was refused. -/
def onCancelReject (o : OrderManager) (m : Ouch.CancelReject) : OrderManager :=
  match o.slotByRef m.userRefNum with
  | none => o.unknownAck
  | some (sym, side) =>
      let o := o.found sym
      let s := o.slots sym side
      if s.state ≠ .pendingCancel then o.unknownAck
      else if s.leaves > 0 then o.setSlot sym side { s with state := .live }
      else o.setSlot sym side settle

/-- Take in an answer. -/
def onAckMsg (o : OrderManager) : Ouch.Out → OrderManager
  | .accepted m => o.onAccepted m
  | .replaced m => o.onReplaced m
  | .executed m => o.onExecuted m
  | .canceled m => o.onCanceled m
  | .rejected m => o.onRejected m
  | .cancelReject m => o.onCancelReject m

/-- Take in the bytes of an answer; `ackSym` is then the symbol to quote afresh. -/
def onAck (o : OrderManager) (ouch : List UInt8) : OrderManager :=
  let o := { o with ackSym := none }
  match Ouch.decodeOut ouch with
  | none => o
  | some m => o.onAckMsg m

end OrderManager

end TickToTrade.Dut
