import TickToTrade.Protocol.Itch50

/-!
# OUCH 5.0 messages

The order-entry messages: the requests of a client, and what the venue answers. Each
structure has the fields of the overlay struct that some reader of the model uses.
-/

namespace TickToTrade.Ouch

open Itch (byteAt beAt)

/-- The side byte of an order. -/
inductive SideCode where
  | buy
  | sell
  | sellShort
  | sellShortExempt
  /-- Any other byte. -/
  | unknown
deriving DecidableEq, Repr

/-- `TimeInForce`. -/
inductive TimeInForce where
  | day
  | ioc
  | gtx
  | gtt
  | afterHours
  /-- Any other byte. -/
  | unknown
deriving DecidableEq, Repr

/-- `OrderState`. -/
inductive OrderState where
  | live
  | dead
  /-- Any other byte. -/
  | unknown
deriving DecidableEq, Repr

/-- `CancelReason`, the reasons that the venue gives. -/
inductive CancelReason where
  | closed
  | ioc
  | userRequested
  /-- Any other byte. -/
  | other
deriving DecidableEq, Repr

/-- `RejectReason`. -/
inductive RejectReason where
  | invalidSide
  | invalidQuantity
  | replaceNotAllowed
  | invalidSymbol
  | invalidPrice
  /-- Any other code. -/
  | other
deriving DecidableEq, Repr

/-! ### Requests -/

/-- A new order. -/
structure EnterOrder where
  userRefNum : ℕ
  side : SideCode
  quantity : ℕ
  symbol : List UInt8
  price : ℕ
  timeInForce : TimeInForce
deriving DecidableEq, Repr

/-- A live order to be replaced by a new one. -/
structure ReplaceOrder where
  origUserRefNum : ℕ
  userRefNum : ℕ
  quantity : ℕ
  price : ℕ
deriving DecidableEq, Repr

/-- A live order to be cancelled down to a quantity. -/
structure CancelOrder where
  userRefNum : ℕ
  quantity : ℕ
deriving DecidableEq, Repr

/-- A request. -/
inductive In where
  | enterOrder (m : EnterOrder)
  | replaceOrder (m : ReplaceOrder)
  | cancelOrder (m : CancelOrder)
deriving DecidableEq, Repr

/-! ### Answers -/

/-- A new order was accepted. -/
structure Accepted where
  userRefNum : ℕ
  side : SideCode
  quantity : ℕ
  price : ℕ
  orderReferenceNumber : ℕ
  orderState : OrderState
deriving DecidableEq, Repr

/-- A live order was replaced. -/
structure Replaced where
  origUserRefNum : ℕ
  userRefNum : ℕ
  side : SideCode
  quantity : ℕ
  price : ℕ
  orderReferenceNumber : ℕ
  orderState : OrderState
deriving DecidableEq, Repr

/-- A live order lost shares without a trade. -/
structure Canceled where
  userRefNum : ℕ
  quantity : ℕ
  reason : CancelReason
deriving DecidableEq, Repr

/-- A live order traded. -/
structure Executed where
  userRefNum : ℕ
  quantity : ℕ
  price : ℕ
  matchNumber : ℕ
deriving DecidableEq, Repr

/-- A new order or a replacement was refused. -/
structure Rejected where
  userRefNum : ℕ
  reason : RejectReason
deriving DecidableEq, Repr

/-- A cancel was refused. -/
structure CancelReject where
  userRefNum : ℕ
deriving DecidableEq, Repr

/-- An answer. -/
inductive Out where
  | accepted (m : Accepted)
  | replaced (m : Replaced)
  | canceled (m : Canceled)
  | executed (m : Executed)
  | rejected (m : Rejected)
  | cancelReject (m : CancelReject)
deriving DecidableEq, Repr

/-! ### Reading an answer -/

/-- The side of a byte. -/
def sideCodeOf (b : ℕ) : SideCode :=
  if b = 66 then .buy                   -- 'B'
  else if b = 83 then .sell             -- 'S'
  else if b = 84 then .sellShort        -- 'T'
  else if b = 69 then .sellShortExempt  -- 'E'
  else .unknown

/-- The order state of a byte. -/
def orderStateOf (b : ℕ) : OrderState :=
  if b = 76 then .live       -- 'L'
  else if b = 68 then .dead  -- 'D'
  else .unknown

/-- The cancel reason of a byte. -/
def cancelReasonOf (b : ℕ) : CancelReason :=
  if b = 69 then .closed              -- 'E'
  else if b = 73 then .ioc            -- 'I'
  else if b = 85 then .userRequested  -- 'U'
  else .other

/-- The reject reason of a code. -/
def rejectReasonOf (w : ℕ) : RejectReason :=
  if w = 0x0009 then .invalidSide
  else if w = 0x0013 then .invalidQuantity
  else if w = 0x0015 then .replaceNotAllowed
  else if w = 0x0017 then .invalidSymbol
  else if w = 0x001D then .invalidPrice
  else .other

/-- Read an answer off the wire, by the type in its first byte. Other types, and
messages shorter than their struct, are not answers that a reader acts on. -/
def decodeOut (msg : List UInt8) : Option Out :=
  let n := msg.length
  let type := byteAt msg 0
  if type = 65 ∧ 64 ≤ n then  -- 'A'
    some (.accepted ⟨beAt msg 9 4, sideCodeOf (byteAt msg 13), beAt msg 14 4, beAt msg 26 8,
      beAt msg 36 8, orderStateOf (byteAt msg 47)⟩)
  else if type = 85 ∧ 68 ≤ n then  -- 'U'
    some (.replaced ⟨beAt msg 9 4, beAt msg 13 4, sideCodeOf (byteAt msg 17), beAt msg 18 4,
      beAt msg 30 8, beAt msg 40 8, orderStateOf (byteAt msg 51)⟩)
  else if type = 69 ∧ 36 ≤ n then  -- 'E'
    some (.executed ⟨beAt msg 9 4, beAt msg 13 4, beAt msg 17 8, beAt msg 26 8⟩)
  else if type = 67 ∧ 20 ≤ n then  -- 'C'
    some (.canceled ⟨beAt msg 9 4, beAt msg 13 4, cancelReasonOf (byteAt msg 17)⟩)
  else if type = 74 ∧ 31 ≤ n then  -- 'J'
    some (.rejected ⟨beAt msg 9 4, rejectReasonOf (beAt msg 13 2)⟩)
  else if type = 73 ∧ 15 ≤ n then  -- 'I'
    some (.cancelReject ⟨beAt msg 9 4⟩)
  else none

/-! ### Reading a request -/

/-- The time in force of a byte. -/
def timeInForceOf (b : ℕ) : TimeInForce :=
  if b = 48 then .day              -- '0'
  else if b = 51 then .ioc         -- '3'
  else if b = 53 then .gtx         -- '5'
  else if b = 54 then .gtt         -- '6'
  else if b = 69 then .afterHours  -- 'E'
  else .unknown

/-- Read a request off the wire, by the type in its first byte. Other types, and messages
shorter than their struct, are none that the exchange acts on. -/
def decodeIn (msg : List UInt8) : Option In :=
  let n := msg.length
  let type := byteAt msg 0
  if type = 79 ∧ 47 ≤ n then  -- 'O'
    some (.enterOrder ⟨beAt msg 1 4, sideCodeOf (byteAt msg 5), beAt msg 6 4, Itch.alphaView ((msg.drop 10).take 8),
      beAt msg 18 8, timeInForceOf (byteAt msg 26)⟩)
  else if type = 88 ∧ 11 ≤ n then  -- 'X'
    some (.cancelOrder ⟨beAt msg 1 4, beAt msg 5 4⟩)
  else if type = 85 ∧ 40 ≤ n then  -- 'U'
    some (.replaceOrder ⟨beAt msg 1 4, beAt msg 5 4, beAt msg 9 4, beAt msg 13 8⟩)
  else none

end TickToTrade.Ouch
