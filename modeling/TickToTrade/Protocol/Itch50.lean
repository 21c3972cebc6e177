import TickToTrade.Lob.Types

/-!
# TotalView-ITCH 5.0 messages

The messages of the market-data feed, as the overlay structs of the program read
them: the fields that some reader of the model uses, and for each type the check of
the length before it. A message too short for its type is told apart from other
messages where a reader treats it differently.
-/

namespace TickToTrade.Itch

/-- `SystemEventCode`. -/
inductive SystemEventCode where
  | startOfMessages
  | startOfSystemHours
  | startOfMarketHours
  | endOfMarketHours
  | endOfSystemHours
  | endOfMessages
  /-- Any other byte. -/
  | unknown
deriving DecidableEq, Repr

/-- `TradingState`. -/
inductive TradingState where
  | halted
  | paused
  | quotationOnly
  | trading
  /-- Any other byte. -/
  | unknown
deriving DecidableEq, Repr

/-- A message without its header. Prices are 32-bit words as on the wire. -/
inductive Body where
  | systemEvent (eventCode : SystemEventCode)
  /-- A system event shorter than its struct. -/
  | systemEventShort
  | stockDirectory (stock : List UInt8)
  /-- A directory entry shorter than its struct. -/
  | stockDirectoryShort
  | stockTradingAction (tradingState : TradingState)
  /-- A trading action shorter than its struct. -/
  | stockTradingActionShort
  /-- Types `A` and `F`. -/
  | addOrder (orderRef : ℕ) (side : Side) (shares price : ℕ)
  | orderExecuted (orderRef executedShares matchNumber : ℕ)
  | orderExecutedWithPrice (orderRef executedShares matchNumber executionPrice : ℕ)
  | orderCancel (orderRef cancelledShares : ℕ)
  | orderDelete (orderRef : ℕ)
  | orderReplace (origOrderRef newOrderRef shares price : ℕ)
  | tradeNonCross (orderRef : ℕ) (side : Side) (shares price matchNumber : ℕ)
  | crossTrade (shares crossPrice matchNumber : ℕ)
  /-- Another type, or a message of the types above that is shorter than its struct. -/
  | other
deriving DecidableEq, Repr

/-- A message: the locate code of its header, and its body. -/
structure Msg where
  /-- `stockLocate`, a 16-bit word. -/
  locate : ℕ
  /-- The rest of the message. -/
  body : Body
deriving DecidableEq, Repr

/-! ### Reading the overlays -/

/-- The byte at offset `i`. -/
def byteAt (msg : List UInt8) (i : ℕ) : ℕ := (msg.getD i 0).toNat

/-- The big-endian word of `n` bytes at offset `off`. -/
def beAt (msg : List UInt8) (off : ℕ) : ℕ → ℕ
  | 0 => 0
  | n + 1 => beAt msg off n * 256 + byteAt msg (off + n)

/-- The text of a space-padded field. -/
def alphaView (chars : List UInt8) : List UInt8 := (chars.reverse.dropWhile (· = 32)).reverse

/-- The event code of a byte. -/
def eventCodeOf (b : ℕ) : SystemEventCode :=
  if b = 79 then .startOfMessages        -- 'O'
  else if b = 83 then .startOfSystemHours  -- 'S'
  else if b = 81 then .startOfMarketHours  -- 'Q'
  else if b = 77 then .endOfMarketHours    -- 'M'
  else if b = 69 then .endOfSystemHours    -- 'E'
  else if b = 67 then .endOfMessages       -- 'C'
  else .unknown

/-- The trading state of a byte. -/
def tradingStateOf (b : ℕ) : TradingState :=
  if b = 72 then .halted                -- 'H'
  else if b = 80 then .paused           -- 'P'
  else if b = 81 then .quotationOnly    -- 'Q'
  else if b = 84 then .trading          -- 'T'
  else .unknown

/-- The side of a byte: everything but `B` sells. -/
def sideOf (b : ℕ) : Side := if b = 66 then .buy else .sell

/-- The body of a message, by the type in its first byte. -/
def bodyOf (msg : List UInt8) : Body :=
  let n := msg.length
  let type := byteAt msg 0
  if type = 83 then  -- 'S'
    if n < 12 then .systemEventShort else .systemEvent (eventCodeOf (byteAt msg 11))
  else if type = 82 then  -- 'R'
    if n < 39 then .stockDirectoryShort else .stockDirectory (alphaView ((msg.drop 11).take 8))
  else if type = 72 then  -- 'H'
    if n < 25 then .stockTradingActionShort
    else .stockTradingAction (tradingStateOf (byteAt msg 19))
  else if (type = 65 ∨ type = 70) ∧ 36 ≤ n then  -- 'A', 'F'
    .addOrder (beAt msg 11 8) (sideOf (byteAt msg 19)) (beAt msg 20 4) (beAt msg 32 4)
  else if type = 69 ∧ 31 ≤ n then  -- 'E'
    .orderExecuted (beAt msg 11 8) (beAt msg 19 4) (beAt msg 23 8)
  else if type = 67 ∧ 36 ≤ n then  -- 'C'
    .orderExecutedWithPrice (beAt msg 11 8) (beAt msg 19 4) (beAt msg 23 8) (beAt msg 32 4)
  else if type = 88 ∧ 23 ≤ n then  -- 'X'
    .orderCancel (beAt msg 11 8) (beAt msg 19 4)
  else if type = 68 ∧ 19 ≤ n then  -- 'D'
    .orderDelete (beAt msg 11 8)
  else if type = 85 ∧ 35 ≤ n then  -- 'U'
    .orderReplace (beAt msg 11 8) (beAt msg 19 8) (beAt msg 27 4) (beAt msg 31 4)
  else if type = 80 ∧ 44 ≤ n then  -- 'P'
    .tradeNonCross (beAt msg 11 8) (sideOf (byteAt msg 19)) (beAt msg 20 4) (beAt msg 32 4)
      (beAt msg 36 8)
  else if type = 81 ∧ 40 ≤ n then  -- 'Q'
    .crossTrade (beAt msg 11 8) (beAt msg 27 4) (beAt msg 31 8)
  else .other

/-- Read a message off the wire. -/
def decode (msg : List UInt8) : Msg := ⟨beAt msg 1 2, bodyOf msg⟩

end TickToTrade.Itch
