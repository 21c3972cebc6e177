import Mathlib.Data.List.DropRight
import TickToTrade.Protocol.MoldUdp64
import TickToTrade.Protocol.Ouch50

/-!
# Writing the messages

The messages as the program writes them: each struct with its fields in their order, numbers
with the big end first and texts padded with blanks. A decoder has only the fields that a reader
of the model uses. The others are given beside the message (`Itch.Unread`, `Ouch.Unread`), and
what is read does not depend on them.

## What is proved

* `Itch.decode_encode`, `Ouch.decodeOut_encodeOut`, `Ouch.decodeIn_encodeIn` — a message whose
  fields fit their widths is read back as it was written.
-/

namespace TickToTrade

open Mold (put)

namespace Itch

/-! ### Fields -/

/-- `Alpha::store`. -/
def alphaField (n : ℕ) (s : List UInt8) : List UInt8 := (s ++ List.replicate n 32).take n

@[simp] theorem length_alphaField (n : ℕ) (s : List UInt8) : (alphaField n s).length = n := by
  simp [alphaField]

/-- The text is one that a field of this width gives back: not too long, and with no blank at its end. -/
def FitsAlpha (n : ℕ) (s : List UInt8) : Prop := s.length ≤ n ∧ alphaView s = s

instance (n : ℕ) (s : List UInt8) : Decidable (FitsAlpha n s) := inferInstanceAs (Decidable (_ ∧ _))

theorem alphaView_append_blanks (s : List UInt8) (k : ℕ) : alphaView (s ++ List.replicate k 32) = alphaView s := by
  unfold alphaView
  rw [List.reverse_append, List.reverse_replicate, List.dropWhile_append, List.dropWhile_replicate]
  simp

theorem alphaView_alphaField {n : ℕ} {s : List UInt8} (h : FitsAlpha n s) : alphaView (alphaField n s) = s := by
  have hfield : alphaField n s = s ++ List.replicate (n - s.length) 32 := by
    unfold alphaField
    rw [List.take_append, List.take_of_length_le h.1, List.take_replicate, Nat.min_eq_left (Nat.sub_le ..)]
  rw [hfield, alphaView_append_blanks, h.2]

/-- What a field gives back fits it. -/
theorem fitsAlpha_alphaView (n : ℕ) (s : List UInt8) : FitsAlpha n (alphaView (s.take n)) :=
  ⟨Nat.le_trans (List.rdropWhile_prefix ..).length_le (List.length_take_le n s), List.rdropWhile_idempotent ..⟩

/-! ### Reading behind other fields -/

variable {l l' : List UInt8} {off n : ℕ}

theorem beAt_skip (h : l.length ≤ off) : beAt (l ++ l') off n = beAt l' (off - l.length) n := by
  obtain ⟨k, rfl⟩ := Nat.exists_eq_add_of_le h
  rw [Mold.beAt_append, Nat.add_sub_cancel_left]

theorem byteAt_skip (h : l.length ≤ off) : byteAt (l ++ l') off = byteAt l' (off - l.length) := by
  obtain ⟨k, rfl⟩ := Nat.exists_eq_add_of_le h
  rw [Mold.byteAt_append, Nat.add_sub_cancel_left]

theorem beAt_cons (b : UInt8) (h : 0 < off) : beAt (b :: l) off n = beAt l (off - 1) n := beAt_skip (l := [b]) h

theorem byteAt_cons (b : UInt8) (h : 0 < off) : byteAt (b :: l) off = byteAt l (off - 1) := byteAt_skip (l := [b]) h

theorem byteAt_cons_zero (b : UInt8) : byteAt (b :: l) 0 = b.toNat := rfl

/-- A number that fits is read back. -/
theorem beAt_put_of_lt {v : ℕ} (h : v < 256 ^ n) : beAt (put n v ++ l) 0 n = v := by
  rw [Mold.beAt_put, Nat.mod_eq_of_lt h]

theorem beAt_last {v : ℕ} (h : v < 256 ^ n) : beAt (put n v) 0 n = v := by
  rw [← List.append_nil (put n v)]
  exact beAt_put_of_lt h

theorem drop_skip (h : l.length ≤ off) : (l ++ l').drop off = l'.drop (off - l.length) := by
  obtain ⟨k, rfl⟩ := Nat.exists_eq_add_of_le h
  rw [Nat.add_sub_cancel_left, List.drop_append, List.drop_of_length_le (Nat.le_add_right ..), List.nil_append,
    Nat.add_sub_cancel_left]

/-! ### Market data -/

/-- What the program writes into a message beside what a reader of the model uses. -/
structure Unread where
  /-- A 48-bit word. -/
  timestamp : ℕ := 0
  /-- The symbol of a new order. -/
  stock : List UInt8 := []

/-- The byte of an event code; zero is no code. -/
def SystemEventCode.byte : SystemEventCode → UInt8
  | .startOfMessages => 79     -- 'O'
  | .startOfSystemHours => 83  -- 'S'
  | .startOfMarketHours => 81  -- 'Q'
  | .endOfMarketHours => 77    -- 'M'
  | .endOfSystemHours => 69    -- 'E'
  | .endOfMessages => 67       -- 'C'
  | .unknown => 0

/-- The byte of a side. -/
def sideByte : Side → UInt8
  | .buy => 66   -- 'B'
  | .sell => 83  -- 'S'

/-- `messageType`, `stockLocate`, `trackingNumber` and `timestamp`, in front of every struct. -/
def header (type : UInt8) (locate timestamp : ℕ) : List UInt8 := type :: (put 2 locate ++ (put 2 0 ++ put 6 timestamp))

/-- The bytes of a message, for the structs that the program writes. -/
def encode (x : Unread) (m : Msg) : List UInt8 :=
  match m.body with
  | .systemEvent code => header 83 m.locate x.timestamp ++ [code.byte]
  | .stockDirectory stock =>
      -- `marketCategory` is 'Q' and `roundLotSize` is 100; the struct is zero elsewhere
      header 82 m.locate x.timestamp ++ (alphaField 8 stock ++ ([81, 0] ++ (put 4 100 ++ List.replicate 14 0)))
  | .addOrder ref side shares price =>
      header 65 m.locate x.timestamp ++
        (put 8 ref ++ (sideByte side :: (put 4 shares ++ (alphaField 8 x.stock ++ put 4 price))))
  | .orderExecuted ref shares matchNumber =>
      header 69 m.locate x.timestamp ++ (put 8 ref ++ (put 4 shares ++ put 8 matchNumber))
  | .orderCancel ref shares => header 88 m.locate x.timestamp ++ (put 8 ref ++ put 4 shares)
  | .orderDelete ref => header 68 m.locate x.timestamp ++ put 8 ref
  | .orderReplace origRef newRef shares price =>
      header 85 m.locate x.timestamp ++ (put 8 origRef ++ (put 8 newRef ++ (put 4 shares ++ put 4 price)))
  | _ => []

/-- The body is one that the program writes, and its fields fit their widths. -/
def Body.Fits : Body → Prop
  | .systemEvent _ => True
  | .stockDirectory stock => FitsAlpha 8 stock
  | .addOrder ref _ shares price => ref < 2 ^ 64 ∧ shares < 2 ^ 32 ∧ price < 2 ^ 32
  | .orderExecuted ref shares matchNumber => ref < 2 ^ 64 ∧ shares < 2 ^ 32 ∧ matchNumber < 2 ^ 64
  | .orderCancel ref shares => ref < 2 ^ 64 ∧ shares < 2 ^ 32
  | .orderDelete ref => ref < 2 ^ 64
  | .orderReplace origRef newRef shares price =>
      origRef < 2 ^ 64 ∧ newRef < 2 ^ 64 ∧ shares < 2 ^ 32 ∧ price < 2 ^ 32
  | _ => False

/-- The fields of the message fit their widths. -/
def Msg.Fits (m : Msg) : Prop := m.locate < 2 ^ 16 ∧ m.body.Fits

@[simp] theorem length_header (type : UInt8) (locate timestamp : ℕ) : (header type locate timestamp).length = 11 := by
  simp [header]

theorem byteAt_header (type : UInt8) (locate timestamp : ℕ) (l : List UInt8) :
    byteAt (header type locate timestamp ++ l) 0 = type.toNat := rfl

theorem beAt_header {locate : ℕ} (type : UInt8) (timestamp : ℕ) (l : List UInt8) (h : locate < 2 ^ 16) :
    beAt (header type locate timestamp ++ l) 1 2 = locate := by
  rw [header, List.cons_append, beAt_cons type (by decide), List.append_assoc]
  exact beAt_put_of_lt h

theorem eventCodeOf_byte (code : SystemEventCode) : eventCodeOf code.byte.toNat = code := by
  cases code <;> rfl

theorem sideOf_byte (side : Side) : sideOf (sideByte side).toNat = side := by
  cases side <;> rfl

/-- **A message is read back as it was written.** -/
theorem decode_encode (x : Unread) {m : Msg} (h : m.Fits) : decode (encode x m) = m := by
  obtain ⟨locate, body⟩ := m
  obtain ⟨hlocate, hbody⟩ := h
  suffices hsame : bodyOf (encode x ⟨locate, body⟩) = body by
    have hread : beAt (encode x ⟨locate, body⟩) 1 2 = locate := by
      cases body <;> first | exact hbody.elim | exact beAt_header _ _ _ hlocate
    exact congrArg₂ Msg.mk hread hsame
  cases body with
  | systemEvent code => simp [encode, bodyOf, byteAt_header, byteAt_skip, byteAt_cons_zero, eventCodeOf_byte]
  | stockDirectory stock =>
      simp [encode, bodyOf, byteAt_header, List.take_left', alphaView_alphaField hbody]
  | addOrder ref side shares price =>
      have href : ref < 256 ^ 8 := hbody.1
      have hshares : shares < 256 ^ 4 := hbody.2.1
      have hprice : price < 256 ^ 4 := hbody.2.2
      simp [encode, bodyOf, byteAt_header, byteAt_skip, byteAt_cons_zero, beAt_skip, beAt_cons, sideOf_byte,
        beAt_put_of_lt href, beAt_put_of_lt hshares, beAt_last hprice]
  | orderExecuted ref shares matchNumber =>
      have href : ref < 256 ^ 8 := hbody.1
      have hshares : shares < 256 ^ 4 := hbody.2.1
      have hmatch : matchNumber < 256 ^ 8 := hbody.2.2
      simp [encode, bodyOf, byteAt_header, beAt_skip, beAt_put_of_lt href, beAt_put_of_lt hshares, beAt_last hmatch]
  | orderCancel ref shares =>
      have href : ref < 256 ^ 8 := hbody.1
      have hshares : shares < 256 ^ 4 := hbody.2
      simp [encode, bodyOf, byteAt_header, beAt_skip, beAt_put_of_lt href, beAt_last hshares]
  | orderDelete ref =>
      have href : ref < 256 ^ 8 := hbody
      simp [encode, bodyOf, byteAt_header, beAt_skip, beAt_last href]
  | orderReplace origRef newRef shares price =>
      have horig : origRef < 256 ^ 8 := hbody.1
      have hnew : newRef < 256 ^ 8 := hbody.2.1
      have hshares : shares < 256 ^ 4 := hbody.2.2.1
      have hprice : price < 256 ^ 4 := hbody.2.2.2
      simp [encode, bodyOf, byteAt_header, beAt_skip, beAt_put_of_lt horig, beAt_put_of_lt hnew, beAt_put_of_lt hshares,
        beAt_last hprice]
  | _ => exact hbody.elim

/-- No message is longer than a directory entry. -/
theorem length_encode_le (x : Unread) (m : Msg) : (encode x m).length ≤ 39 := by
  unfold encode
  split <;> simp

end Itch

namespace Ouch

open Itch (byteAt beAt alphaField FitsAlpha)

/-! ### The bytes of the codes -/

/-- The byte of a side; zero is no side. -/
def SideCode.byte : SideCode → UInt8
  | .buy => 66              -- 'B'
  | .sell => 83             -- 'S'
  | .sellShort => 84        -- 'T'
  | .sellShortExempt => 69  -- 'E'
  | .unknown => 0

/-- The byte of an order state; zero is no state. -/
def OrderState.byte : OrderState → UInt8
  | .live => 76  -- 'L'
  | .dead => 68  -- 'D'
  | .unknown => 0

/-- The byte of a cancel reason; zero is no reason. -/
def CancelReason.byte : CancelReason → UInt8
  | .closed => 69         -- 'E'
  | .ioc => 73            -- 'I'
  | .userRequested => 85  -- 'U'
  | .other => 0

/-- The code of a reject reason. -/
def RejectReason.code : RejectReason → ℕ
  | .invalidSide => 0x0009
  | .invalidQuantity => 0x0013
  | .replaceNotAllowed => 0x0015
  | .invalidSymbol => 0x0017
  | .invalidPrice => 0x001D
  | .other => 0x000F

/-- The byte of a time in force; zero is none. -/
def TimeInForce.byte : TimeInForce → UInt8
  | .day => 48         -- '0'
  | .ioc => 51         -- '3'
  | .gtx => 53         -- '5'
  | .gtt => 54         -- '6'
  | .afterHours => 69  -- 'E'
  | .unknown => 0

theorem sideCodeOf_byte (s : SideCode) : sideCodeOf s.byte.toNat = s := by
  cases s <;> rfl

theorem orderStateOf_byte (s : OrderState) : orderStateOf s.byte.toNat = s := by
  cases s <;> rfl

theorem cancelReasonOf_byte (r : CancelReason) : cancelReasonOf r.byte.toNat = r := by
  cases r <;> rfl

theorem timeInForceOf_byte (t : TimeInForce) : timeInForceOf t.byte.toNat = t := by
  cases t <;> rfl

theorem rejectReasonOf_code (r : RejectReason) : rejectReasonOf r.code = r := by
  cases r <;> rfl

theorem RejectReason.code_lt (r : RejectReason) : r.code < 256 ^ 2 := by
  cases r <;> decide

/-! ### Answers -/

/-- What the venue writes into an answer beside what a reader of the model uses: a time, its
symbol, the flag of a trade, and the fields of the request that an answer repeats. -/
structure Unread where
  timestamp : ℕ := 0
  symbol : List UInt8 := []
  timeInForce : UInt8 := 0
  display : UInt8 := 0
  capacity : UInt8 := 0
  imSweepEligibility : UInt8 := 0
  crossType : UInt8 := 0
  clOrdId : List UInt8 := []
  liquidityFlag : UInt8 := 0

/-- The bytes of an answer. -/
def encodeOut (x : Unread) : Out → List UInt8
  | .accepted m =>
      65 :: (put 8 x.timestamp ++ (put 4 m.userRefNum ++ (m.side.byte :: (put 4 m.quantity ++ (alphaField 8 x.symbol ++
        (put 8 m.price ++ ([x.timeInForce, x.display] ++ (put 8 m.orderReferenceNumber ++
          ([x.capacity, x.imSweepEligibility, x.crossType, m.orderState.byte] ++
            (alphaField 14 x.clOrdId ++ put 2 0))))))))))
  | .replaced m =>
      -- `capacity` is 'A' and `crossType` is 'N'
      85 :: (put 8 x.timestamp ++ (put 4 m.origUserRefNum ++ (put 4 m.userRefNum ++ (m.side.byte :: (put 4 m.quantity ++
        (alphaField 8 x.symbol ++ (put 8 m.price ++ ([x.timeInForce, x.display] ++ (put 8 m.orderReferenceNumber ++
          ([65, x.imSweepEligibility, 78, m.orderState.byte] ++ (alphaField 14 x.clOrdId ++ put 2 0)))))))))))
  | .canceled m =>
      67 :: (put 8 x.timestamp ++ (put 4 m.userRefNum ++ (put 4 m.quantity ++ (m.reason.byte :: put 2 0))))
  | .executed m =>
      69 :: (put 8 x.timestamp ++ (put 4 m.userRefNum ++ (put 4 m.quantity ++ (put 8 m.price ++
        (x.liquidityFlag :: (put 8 m.matchNumber ++ put 2 0))))))
  | .rejected m =>
      74 :: (put 8 x.timestamp ++ (put 4 m.userRefNum ++ (put 2 m.reason.code ++ (alphaField 14 x.clOrdId ++ put 2 0))))
  | .cancelReject m => 73 :: (put 8 x.timestamp ++ (put 4 m.userRefNum ++ put 2 0))

/-- The fields of an answer fit their widths. -/
def Out.Fits : Out → Prop
  | .accepted m =>
      m.userRefNum < 2 ^ 32 ∧ m.quantity < 2 ^ 32 ∧ m.price < 2 ^ 64 ∧ m.orderReferenceNumber < 2 ^ 64
  | .replaced m =>
      m.origUserRefNum < 2 ^ 32 ∧ m.userRefNum < 2 ^ 32 ∧ m.quantity < 2 ^ 32 ∧ m.price < 2 ^ 64 ∧
        m.orderReferenceNumber < 2 ^ 64
  | .canceled m => m.userRefNum < 2 ^ 32 ∧ m.quantity < 2 ^ 32
  | .executed m => m.userRefNum < 2 ^ 32 ∧ m.quantity < 2 ^ 32 ∧ m.price < 2 ^ 64 ∧ m.matchNumber < 2 ^ 64
  | .rejected m => m.userRefNum < 2 ^ 32
  | .cancelReject m => m.userRefNum < 2 ^ 32

/-- **An answer is read back as it was written.** -/
theorem decodeOut_encodeOut (x : Unread) {m : Out} (h : m.Fits) : decodeOut (encodeOut x m) = some m := by
  cases m with
  | accepted m =>
      obtain ⟨user, side, qty, price, ref, state⟩ := m
      have huser : user < 256 ^ 4 := h.1
      have hqty : qty < 256 ^ 4 := h.2.1
      have hprice : price < 256 ^ 8 := h.2.2.1
      have href : ref < 256 ^ 8 := h.2.2.2
      simp [encodeOut, decodeOut, Itch.byteAt_cons_zero, Itch.byteAt_cons, Itch.beAt_cons, Itch.byteAt_skip, Itch.beAt_skip,
        Itch.beAt_put_of_lt huser, Itch.beAt_put_of_lt hqty, Itch.beAt_put_of_lt hprice, Itch.beAt_put_of_lt href,
        sideCodeOf_byte, orderStateOf_byte]
  | replaced m =>
      obtain ⟨orig, user, side, qty, price, ref, state⟩ := m
      have horig : orig < 256 ^ 4 := h.1
      have huser : user < 256 ^ 4 := h.2.1
      have hqty : qty < 256 ^ 4 := h.2.2.1
      have hprice : price < 256 ^ 8 := h.2.2.2.1
      have href : ref < 256 ^ 8 := h.2.2.2.2
      simp [encodeOut, decodeOut, Itch.byteAt_cons_zero, Itch.byteAt_cons, Itch.beAt_cons, Itch.byteAt_skip, Itch.beAt_skip,
        Itch.beAt_put_of_lt horig, Itch.beAt_put_of_lt huser, Itch.beAt_put_of_lt hqty, Itch.beAt_put_of_lt hprice,
        Itch.beAt_put_of_lt href, sideCodeOf_byte, orderStateOf_byte]
  | canceled m =>
      obtain ⟨user, qty, reason⟩ := m
      have huser : user < 256 ^ 4 := h.1
      have hqty : qty < 256 ^ 4 := h.2
      simp [encodeOut, decodeOut, Itch.byteAt_cons_zero, Itch.beAt_cons, Itch.byteAt_cons, Itch.byteAt_skip, Itch.beAt_skip,
        Itch.beAt_put_of_lt huser, Itch.beAt_put_of_lt hqty, cancelReasonOf_byte]
  | executed m =>
      obtain ⟨user, qty, price, matchNumber⟩ := m
      have huser : user < 256 ^ 4 := h.1
      have hqty : qty < 256 ^ 4 := h.2.1
      have hprice : price < 256 ^ 8 := h.2.2.1
      have hmatch : matchNumber < 256 ^ 8 := h.2.2.2
      simp [encodeOut, decodeOut, Itch.byteAt_cons_zero, Itch.beAt_cons, Itch.beAt_skip, Itch.beAt_put_of_lt huser,
        Itch.beAt_put_of_lt hqty, Itch.beAt_put_of_lt hprice, Itch.beAt_put_of_lt hmatch]
  | rejected m =>
      obtain ⟨user, reason⟩ := m
      have huser : user < 256 ^ 4 := h
      simp [encodeOut, decodeOut, Itch.byteAt_cons_zero, Itch.beAt_cons, Itch.beAt_skip, Itch.beAt_put_of_lt huser,
        Itch.beAt_put_of_lt reason.code_lt, rejectReasonOf_code]
  | cancelReject m =>
      obtain ⟨user⟩ := m
      have huser : user < 256 ^ 4 := h
      simp [encodeOut, decodeOut, Itch.byteAt_cons_zero, Itch.beAt_cons, Itch.beAt_skip, Itch.beAt_put_of_lt huser]

/-! ### Requests -/

/-- The bytes of a request, as the order manager writes them into its templates. -/
def encodeIn : In → List UInt8
  | .enterOrder o =>
      -- visible, principal, not eligible for sweeps, continuous
      79 :: (put 4 o.userRefNum ++ (o.side.byte :: (put 4 o.quantity ++ (alphaField 8 o.symbol ++ (put 8 o.price ++
        ([o.timeInForce.byte, 89, 80, 78, 78] ++ (alphaField 14 [] ++ put 2 0)))))))
  | .replaceOrder u =>
      -- for the day, visible, not eligible for sweeps
      85 :: (put 4 u.origUserRefNum ++ (put 4 u.userRefNum ++ (put 4 u.quantity ++ (put 8 u.price ++
        ([48, 89, 78] ++ (alphaField 14 [] ++ put 2 0))))))
  | .cancelOrder x => 88 :: (put 4 x.userRefNum ++ (put 4 x.quantity ++ put 2 0))

/-- The fields of a request fit their widths. -/
def In.Fits : In → Prop
  | .enterOrder o => o.userRefNum < 2 ^ 32 ∧ o.quantity < 2 ^ 32 ∧ FitsAlpha 8 o.symbol ∧ o.price < 2 ^ 64
  | .replaceOrder u =>
      u.origUserRefNum < 2 ^ 32 ∧ u.userRefNum < 2 ^ 32 ∧ u.quantity < 2 ^ 32 ∧ u.price < 2 ^ 64
  | .cancelOrder x => x.userRefNum < 2 ^ 32 ∧ x.quantity < 2 ^ 32

instance : (m : In) → Decidable m.Fits
  | .enterOrder _ => inferInstanceAs (Decidable (_ ∧ _))
  | .replaceOrder _ => inferInstanceAs (Decidable (_ ∧ _))
  | .cancelOrder _ => inferInstanceAs (Decidable (_ ∧ _))

/-- **A request is read back as it was written.** -/
theorem decodeIn_encodeIn {m : In} (h : m.Fits) : decodeIn (encodeIn m) = some m := by
  cases m with
  | enterOrder o =>
      obtain ⟨user, side, qty, symbol, price, tif⟩ := o
      have huser : user < 256 ^ 4 := h.1
      have hqty : qty < 256 ^ 4 := h.2.1
      have hprice : price < 256 ^ 8 := h.2.2.2
      have hsymbol := Itch.alphaView_alphaField h.2.2.1
      simp [encodeIn, decodeIn, Itch.byteAt_cons_zero, Itch.byteAt_cons, Itch.beAt_cons, Itch.byteAt_skip, Itch.beAt_skip,
        Itch.drop_skip, List.take_left', Itch.beAt_put_of_lt huser, Itch.beAt_put_of_lt hqty, Itch.beAt_put_of_lt hprice, sideCodeOf_byte,
        timeInForceOf_byte, hsymbol]
  | replaceOrder u =>
      obtain ⟨orig, user, qty, price⟩ := u
      have horig : orig < 256 ^ 4 := h.1
      have huser : user < 256 ^ 4 := h.2.1
      have hqty : qty < 256 ^ 4 := h.2.2.1
      have hprice : price < 256 ^ 8 := h.2.2.2
      simp [encodeIn, decodeIn, Itch.byteAt_cons_zero, Itch.beAt_cons, Itch.beAt_skip, Itch.beAt_put_of_lt horig,
        Itch.beAt_put_of_lt huser, Itch.beAt_put_of_lt hqty, Itch.beAt_put_of_lt hprice]
  | cancelOrder x =>
      obtain ⟨user, qty⟩ := x
      have huser : user < 256 ^ 4 := h.1
      have hqty : qty < 256 ^ 4 := h.2
      simp [encodeIn, decodeIn, Itch.byteAt_cons_zero, Itch.beAt_cons, Itch.beAt_skip, Itch.beAt_put_of_lt huser,
        Itch.beAt_put_of_lt hqty]

end Ouch

end TickToTrade
