import TickToTrade.Dut.ColdShard
import TickToTrade.Dut.DirectoryBinding
import TickToTrade.Protocol.BoundedReads

/-!
# What the books read

The books get the messages of the feed as bytes. Every field is read after a check of the message's
length, so each of these readers has a value, the one that the table of books has for the decoded
message.
-/

namespace TickToTrade.Dut

open Itch (alphaView byteAt beAt bodyOf decode eventCodeOf sideOf tradingStateOf readByte readBe readBytes)

variable {msg : List UInt8}

/-- `BookBuilder::apply`, with the fields that each message is read for. -/
def BookBuilder.boundedApply (b : BookBuilder) (msg : List UInt8) : Option BookBuilder :=
  if msg = [] then some b
  else do
    let type ← readByte msg 0
    if type = 65 ∨ type = 70 then  -- 'A', 'F'
      if 36 ≤ msg.length then do
        let ref ← readBe msg 11 8
        let side ← readByte msg 19
        let shares ← readBe msg 20 4
        let price ← readBe msg 32 4
        return b.onAddOrder ref (sideOf side) shares price
      else return b
    else if type = 69 then  -- 'E'
      if 31 ≤ msg.length then do
        let ref ← readBe msg 11 8
        let shares ← readBe msg 19 4
        return b.reduceOrder ref shares true
      else return b
    else if type = 67 then  -- 'C'
      if 36 ≤ msg.length then do
        let ref ← readBe msg 11 8
        let shares ← readBe msg 19 4
        return b.reduceOrder ref shares true
      else return b
    else if type = 88 then  -- 'X'
      if 23 ≤ msg.length then do
        let ref ← readBe msg 11 8
        let shares ← readBe msg 19 4
        return b.reduceOrder ref shares false
      else return b
    else if type = 80 then  -- 'P'
      if 44 ≤ msg.length then do
        let price ← readBe msg 32 4
        return b.onTradePrice (toPrice price)
      else return b
    else if type = 81 then  -- 'Q'
      if 40 ≤ msg.length then do
        let shares ← readBe msg 11 8
        let price ← readBe msg 27 4
        return if shares > 0 ∧ price > 0 then b.onTradePrice (toPrice price) else b
      else return b
    else if type = 68 then  -- 'D'
      if 19 ≤ msg.length then do
        let ref ← readBe msg 11 8
        return b.removeOrder ref
      else return b
    else if type = 85 then  -- 'U'
      if 35 ≤ msg.length then do
        let orig ← readBe msg 11 8
        let new ← readBe msg 19 8
        let shares ← readBe msg 27 4
        let price ← readBe msg 31 4
        return b.onOrderReplace orig new shares price
      else return b
    else return b

/-- The messages that a book does nothing with: too short for their type, or of another one. -/
structure Quiet (msg : List UInt8) : Prop where
  add : byteAt msg 0 = 65 ∨ byteAt msg 0 = 70 → msg.length < 36
  executed : byteAt msg 0 = 69 → msg.length < 31
  executedWithPrice : byteAt msg 0 = 67 → msg.length < 36
  cancel : byteAt msg 0 = 88 → msg.length < 23
  trade : byteAt msg 0 = 80 → msg.length < 44
  cross : byteAt msg 0 = 81 → msg.length < 40
  delete : byteAt msg 0 = 68 → msg.length < 19
  replace : byteAt msg 0 = 85 → msg.length < 35

theorem Quiet.apply_bodyOf (h : Quiet msg) (b : BookBuilder) : b.apply (bodyOf msg) = b := by
  obtain ⟨hA, hE, hC, hX, hP, hQ, hD, hU⟩ := h
  unfold bodyOf
  simp only
  by_cases hS : byteAt msg 0 = 83
  · rw [if_pos hS]
    split_ifs <;> rfl
  · by_cases hR : byteAt msg 0 = 82
    · rw [if_neg hS, if_pos hR]
      split_ifs <;> rfl
    · by_cases hH : byteAt msg 0 = 72
      · rw [if_neg hS, if_neg hR, if_pos hH]
        split_ifs <;> rfl
      · rw [if_neg hS, if_neg hR, if_neg hH, if_neg (by omega), if_neg (by omega), if_neg (by omega), if_neg (by omega), if_neg (by omega),
          if_neg (by omega), if_neg (by omega), if_neg (by omega)]
        rfl

section Bodies

theorem bodyOf_add (h : byteAt msg 0 = 65 ∨ byteAt msg 0 = 70) (hlen : 36 ≤ msg.length) :
    bodyOf msg = .addOrder (beAt msg 11 8) (sideOf (byteAt msg 19)) (beAt msg 20 4) (beAt msg 32 4) := by
  unfold bodyOf
  simp only
  rw [if_neg (by omega), if_neg (by omega), if_neg (by omega), if_pos ⟨h, hlen⟩]

theorem bodyOf_executed (h : byteAt msg 0 = 69) (hlen : 31 ≤ msg.length) :
    bodyOf msg = .orderExecuted (beAt msg 11 8) (beAt msg 19 4) (beAt msg 23 8) := by
  unfold bodyOf
  simp only
  rw [if_neg (by omega), if_neg (by omega), if_neg (by omega), if_neg (by omega), if_pos ⟨h, hlen⟩]

theorem bodyOf_executedWithPrice (h : byteAt msg 0 = 67) (hlen : 36 ≤ msg.length) :
    bodyOf msg = .orderExecutedWithPrice (beAt msg 11 8) (beAt msg 19 4) (beAt msg 23 8) (beAt msg 32 4) := by
  unfold bodyOf
  simp only
  rw [if_neg (by omega), if_neg (by omega), if_neg (by omega), if_neg (by omega), if_neg (by omega), if_pos ⟨h, hlen⟩]

theorem bodyOf_cancel (h : byteAt msg 0 = 88) (hlen : 23 ≤ msg.length) : bodyOf msg = .orderCancel (beAt msg 11 8) (beAt msg 19 4) := by
  unfold bodyOf
  simp only
  rw [if_neg (by omega), if_neg (by omega), if_neg (by omega), if_neg (by omega), if_neg (by omega), if_neg (by omega), if_pos ⟨h, hlen⟩]

theorem bodyOf_delete (h : byteAt msg 0 = 68) (hlen : 19 ≤ msg.length) : bodyOf msg = .orderDelete (beAt msg 11 8) := by
  unfold bodyOf
  simp only
  rw [if_neg (by omega), if_neg (by omega), if_neg (by omega), if_neg (by omega), if_neg (by omega), if_neg (by omega), if_neg (by omega),
    if_pos ⟨h, hlen⟩]

theorem bodyOf_replace (h : byteAt msg 0 = 85) (hlen : 35 ≤ msg.length) :
    bodyOf msg = .orderReplace (beAt msg 11 8) (beAt msg 19 8) (beAt msg 27 4) (beAt msg 31 4) := by
  unfold bodyOf
  simp only
  rw [if_neg (by omega), if_neg (by omega), if_neg (by omega), if_neg (by omega), if_neg (by omega), if_neg (by omega), if_neg (by omega),
    if_neg (by omega), if_pos ⟨h, hlen⟩]

theorem bodyOf_trade (h : byteAt msg 0 = 80) (hlen : 44 ≤ msg.length) :
    bodyOf msg = .tradeNonCross (beAt msg 11 8) (sideOf (byteAt msg 19)) (beAt msg 20 4) (beAt msg 32 4) (beAt msg 36 8) := by
  unfold bodyOf
  simp only
  rw [if_neg (by omega), if_neg (by omega), if_neg (by omega), if_neg (by omega), if_neg (by omega), if_neg (by omega), if_neg (by omega),
    if_neg (by omega), if_neg (by omega), if_pos ⟨h, hlen⟩]

theorem bodyOf_cross (h : byteAt msg 0 = 81) (hlen : 40 ≤ msg.length) :
    bodyOf msg = .crossTrade (beAt msg 11 8) (beAt msg 27 4) (beAt msg 31 8) := by
  unfold bodyOf
  simp only
  rw [if_neg (by omega), if_neg (by omega), if_neg (by omega), if_neg (by omega), if_neg (by omega), if_neg (by omega), if_neg (by omega),
    if_neg (by omega), if_neg (by omega), if_neg (by omega), if_pos ⟨h, hlen⟩]

end Bodies

/-- A book reads no byte outside of the message. -/
theorem BookBuilder.boundedApply_eq (b : BookBuilder) (msg : List UInt8) : b.boundedApply msg = some (b.apply (bodyOf msg)) := by
  by_cases hnil : msg = []
  · rw [boundedApply, if_pos hnil, hnil]
    rfl
  · have hpos := List.length_pos_iff.mpr hnil
    have hquiet : Quiet msg → some b = some (b.apply (bodyOf msg)) := fun h => by rw [h.apply_bodyOf]
    unfold boundedApply
    rw [if_neg hnil, Itch.readByte_eq hpos]
    simp only [Option.bind_eq_bind, Option.bind_some]
    by_cases hA : byteAt msg 0 = 65 ∨ byteAt msg 0 = 70
    · rw [if_pos hA]
      by_cases hlen : 36 ≤ msg.length
      · rw [if_pos hlen]
        simp (disch := omega) only [Itch.readBe_eq, Itch.readByte_eq, Option.bind_some, bodyOf_add hA hlen]
        rfl
      · rw [if_neg hlen]
        exact hquiet (by constructor <;> omega)
    rw [if_neg hA]
    by_cases hE : byteAt msg 0 = 69
    · rw [if_pos hE]
      by_cases hlen : 31 ≤ msg.length
      · rw [if_pos hlen]
        simp (disch := omega) only [Itch.readBe_eq, Option.bind_some, bodyOf_executed hE hlen]
        rfl
      · rw [if_neg hlen]
        exact hquiet (by constructor <;> omega)
    rw [if_neg hE]
    by_cases hC : byteAt msg 0 = 67
    · rw [if_pos hC]
      by_cases hlen : 36 ≤ msg.length
      · rw [if_pos hlen]
        simp (disch := omega) only [Itch.readBe_eq, Option.bind_some, bodyOf_executedWithPrice hC hlen]
        rfl
      · rw [if_neg hlen]
        exact hquiet (by constructor <;> omega)
    rw [if_neg hC]
    by_cases hX : byteAt msg 0 = 88
    · rw [if_pos hX]
      by_cases hlen : 23 ≤ msg.length
      · rw [if_pos hlen]
        simp (disch := omega) only [Itch.readBe_eq, Option.bind_some, bodyOf_cancel hX hlen]
        rfl
      · rw [if_neg hlen]
        exact hquiet (by constructor <;> omega)
    rw [if_neg hX]
    by_cases hP : byteAt msg 0 = 80
    · rw [if_pos hP]
      by_cases hlen : 44 ≤ msg.length
      · rw [if_pos hlen]
        simp (disch := omega) only [Itch.readBe_eq, Option.bind_some, bodyOf_trade hP hlen]
        rfl
      · rw [if_neg hlen]
        exact hquiet (by constructor <;> omega)
    rw [if_neg hP]
    by_cases hQ : byteAt msg 0 = 81
    · rw [if_pos hQ]
      by_cases hlen : 40 ≤ msg.length
      · rw [if_pos hlen]
        simp (disch := omega) only [Itch.readBe_eq, Option.bind_some, bodyOf_cross hQ hlen]
        rfl
      · rw [if_neg hlen]
        exact hquiet (by constructor <;> omega)
    rw [if_neg hQ]
    by_cases hD : byteAt msg 0 = 68
    · rw [if_pos hD]
      by_cases hlen : 19 ≤ msg.length
      · rw [if_pos hlen]
        simp (disch := omega) only [Itch.readBe_eq, Option.bind_some, bodyOf_delete hD hlen]
        rfl
      · rw [if_neg hlen]
        exact hquiet (by constructor <;> omega)
    rw [if_neg hD]
    by_cases hU : byteAt msg 0 = 85
    · rw [if_pos hU]
      by_cases hlen : 35 ≤ msg.length
      · rw [if_pos hlen]
        simp (disch := omega) only [Itch.readBe_eq, Option.bind_some, bodyOf_replace hU hlen]
        rfl
      · rw [if_neg hlen]
        exact hquiet (by constructor <;> omega)
    rw [if_neg hU]
    exact hquiet (by constructor <;> omega)

/-! ### The table -/

/-- `BookTable::onDirectory`. -/
def BookTable.boundedOnDirectory (t : BookTable) (locate : ℕ) (msg : List UInt8) : Option BookTable :=
  if msg.length < 39 then some t
  else do
    let stock ← readBytes msg 11 8
    return t.onDirectory locate (alphaView stock)

/-- The end of `BookTable::apply`: a message goes to a book. -/
def BookTable.boundedApplyToBook (t : BookTable) (i : ℕ) (msg : List UInt8) : Option BookTable := do
  let b := t.storage i
  let b := if b.epoch ≠ t.epoch then { b.clear with epoch := t.epoch } else b
  let before := b.liveOrders
  let b ← b.boundedApply msg
  return { t with
    storage := Function.update t.storage i b
    live := ((t.live + (b.liveOrders - before)) % 2 ^ 64).toNat }

/-- `BookTable::apply`. -/
def BookTable.boundedApply (t : BookTable) (msg : List UInt8) : Option (BookTable × Option ℕ) := do
  let locate ← readBe msg 1 2
  let type ← readByte msg 0
  let hot := (t.books locate).hot
  if type = 82 then do  -- 'R'
    let t ← t.boundedOnDirectory locate msg
    return (t, (t.books locate).hot)
  else if t.skips locate then return (t, hot)
  else
    let t := t.ensureBook locate
    if type = 72 then  -- 'H'
      if hot.isSome ∧ 25 ≤ msg.length then do
        let state ← readByte msg 19
        return (t.setTrading locate (tradingStateOf state = .trading), hot)
      else return (t, hot)
    else do
      let t ← t.boundedApplyToBook ((t.books locate).book.getD 0) msg
      return (t, hot)

/-- `BookTable::prefetchHotOrders`: the hot symbol, and the references that are looked for ahead of time. -/
def BookTable.boundedPrefetchHotOrders (t : BookTable) (msg : List UInt8) : Option (Option ℕ × List ℕ) :=
  if msg.length < 19 then some (none, [])
  else do
    let locate ← readBe msg 1 2
    if t.isHot locate then do
      let e := t.books locate
      let type ← readByte msg 0
      if type ∈ [65, 70, 69, 67, 88, 68, 85] ∧ e.book.isSome then do  -- 'A', 'F', 'E', 'C', 'X', 'D', 'U'
        let ref ← readBe msg 11 8
        if type = 85 ∧ 35 ≤ msg.length then do
          let new ← readBe msg 19 8
          return (e.hot, [ref, new])
        else return (e.hot, [ref])
      else return (e.hot, [])
    else return (none, [])

theorem BookTable.boundedOnDirectory_eq (t : BookTable) (locate : ℕ) (msg : List UInt8) :
    t.boundedOnDirectory locate msg =
      some (if msg.length < 39 then t else t.onDirectory locate (alphaView ((msg.drop 11).take 8))) := by
  unfold boundedOnDirectory
  by_cases hshort : msg.length < 39
  · rw [if_pos hshort, if_pos hshort]
  · rw [if_neg hshort, if_neg hshort, Itch.readBytes_eq (by omega)]
    rfl

theorem BookTable.boundedApplyToBook_eq (t : BookTable) (i : ℕ) (msg : List UInt8) :
    t.boundedApplyToBook i msg = some (t.applyToBook i (bodyOf msg)) := by
  unfold boundedApplyToBook applyToBook
  simp only [BookBuilder.boundedApply_eq]
  rfl

/-- The messages that the table hands to a book: neither directory entries nor trading actions. -/
def ForBook : Itch.Body → Bool
  | .stockDirectory _ | .stockDirectoryShort | .stockTradingAction _ | .stockTradingActionShort => false
  | _ => true

theorem forBook_bodyOf (hR : byteAt msg 0 ≠ 82) (hH : byteAt msg 0 ≠ 72) : ForBook (bodyOf msg) := by
  unfold bodyOf
  simp only
  rw [if_neg hR, if_neg hH]
  split_ifs <;> rfl

theorem BookTable.apply_of_forBook (t : BookTable) {m : Itch.Msg} (h : ForBook m.body) :
    t.apply m =
      if t.skips m.locate then (t, (t.books m.locate).hot)
      else
        ((t.ensureBook m.locate).applyToBook (((t.ensureBook m.locate).books m.locate).book.getD 0) m.body, (t.books m.locate).hot) := by
  obtain ⟨locate, body⟩ := m
  cases body
  case stockDirectory | stockDirectoryShort | stockTradingAction | stockTradingActionShort => cases h
  all_goals rfl

/-- A trading action for a locate that is no hot symbol's changes nothing. -/
theorem BookTable.setTrading_of_cold (t : BookTable) {locate : ℕ} (h : (t.books locate).hot = none) (trading : Bool) :
    t.setTrading locate trading = t := by
  unfold setTrading
  rw [h]

/-- The table reads no byte outside of a message that has its locate code. -/
theorem BookTable.boundedApply_eq (t : BookTable) (h : 3 ≤ msg.length) : t.boundedApply msg = some (t.apply (decode msg)) := by
  unfold boundedApply
  rw [Itch.readBe_eq h, Itch.readByte_eq (by omega)]
  simp only [Option.bind_eq_bind, Option.bind_some, boundedOnDirectory_eq, boundedApplyToBook_eq]
  have hlocate : (decode msg).locate = beAt msg 1 2 := rfl
  have hbody : (decode msg).body = bodyOf msg := rfl
  by_cases hR : byteAt msg 0 = 82
  · rw [if_pos hR]
    unfold apply
    simp only [hlocate, hbody]
    by_cases hshort : msg.length < 39
    · have hb : bodyOf msg = .stockDirectoryShort := by
        unfold bodyOf
        simp only
        rw [if_neg (by omega), if_pos hR, if_pos hshort]
      rw [hb, if_pos hshort]
      rfl
    · have hb : bodyOf msg = .stockDirectory (alphaView ((msg.drop 11).take 8)) := by
        unfold bodyOf
        simp only
        rw [if_neg (by omega), if_pos hR, if_neg hshort]
      rw [hb, if_neg hshort]
      rfl
  rw [if_neg hR]
  by_cases hH : byteAt msg 0 = 72
  · have hhot := (ensureBook_spec t (beAt msg 1 2)).2.2.2.2.1
    unfold apply
    simp only [hlocate, hbody]
    by_cases hshort : msg.length < 25
    · have hb : bodyOf msg = .stockTradingActionShort := by
        unfold bodyOf
        simp only
        rw [if_neg (by omega), if_neg (by omega), if_pos hH, if_pos hshort]
      have hno : ¬ ((t.books (beAt msg 1 2)).hot.isSome ∧ 25 ≤ msg.length) := fun h => Nat.not_lt_of_le h.2 hshort
      simp only [hb, if_pos hH, if_neg hno]
      split_ifs <;> rfl
    · have hb : bodyOf msg = .stockTradingAction (tradingStateOf (byteAt msg 19)) := by
        unfold bodyOf
        simp only
        rw [if_neg (by omega), if_neg (by omega), if_pos hH, if_neg hshort]
      simp only [hb, if_pos hH]
      rw [Itch.readByte_eq (by omega)]
      cases hsome : (t.books (beAt msg 1 2)).hot with
      | none =>
          have hno : ¬ ((none : Option ℕ).isSome = true ∧ 25 ≤ msg.length) := fun h => by cases h.1
          rw [setTrading_of_cold _ (hhot.trans hsome), if_neg hno]
          split_ifs <;> rfl
      | some i =>
          have hyes : (some i).isSome = true ∧ 25 ≤ msg.length := ⟨rfl, Nat.le_of_not_lt hshort⟩
          rw [if_pos hyes]
          split_ifs <;> rfl
  · rw [if_neg hH, apply_of_forBook t (forBook_bodyOf hR hH), hlocate, hbody]
    split_ifs <;> rfl

/-- No byte outside of the message is looked at ahead of time. -/
theorem BookTable.boundedPrefetchHotOrders_isSome (t : BookTable) (msg : List UInt8) : (t.boundedPrefetchHotOrders msg).isSome := by
  unfold boundedPrefetchHotOrders
  by_cases hshort : msg.length < 19
  · rw [if_pos hshort]
    rfl
  · rw [if_neg hshort, Itch.readBe_eq (by omega), Itch.readBe_eq (by omega), Itch.readByte_eq (by omega)]
    simp only [Option.bind_eq_bind, Option.bind_some]
    by_cases hnew : byteAt msg 0 = 85 ∧ 35 ≤ msg.length
    · rw [Itch.readBe_eq (by omega)]
      split_ifs <;> rfl
    · rw [if_neg hnew]
      split_ifs <;> rfl

/-! ### The cold shard -/

/-- `ColdShard::applyOne`. -/
def ColdShard.boundedApplyOne (c : ColdShard) (n : ℕ) (msg : List UInt8) : Option ColdShard :=
  if msg.length < 11 then some c
  else do
    let type ← readByte msg 0
    if type = 83 then  -- 'S'
      if 12 ≤ msg.length then do
        let code ← readByte msg 11
        return if eventCodeOf code = .startOfMessages then { c with books := c.books.clearAll } else c
      else return c
    else do
      let (books, _) ← c.books.boundedApply msg
      return { c with books := books, log := c.log ++ [(n, msg)] }

/-- The loop of `ColdShard::applyFrame`. -/
def ColdShard.boundedApplyAll (pkt : List UInt8) : ℕ → ColdShard → ℕ → ℕ → Option ColdShard
  | 0, c, _, _ => some c
  | left + 1, c, n, off => do
      match ← Mold.boundedNextMessage pkt off with
      | none => return c
      | some (msg, off) =>
          let c ← c.boundedApplyOne n msg
          boundedApplyAll pkt left c (n + 1) off

/-- `ColdShard::applyFrame`. -/
def ColdShard.boundedApplyFrame (c : ColdShard) (pkt : List UInt8) : Option ColdShard :=
  let c := { c with packets := c.packets + 1 }
  if pkt.length < Mold.kHeaderSize then some c
  else do
    let msgs ← readBe pkt Mold.kCountOffset 2
    let seq ← readBe pkt Mold.kSequenceOffset 8
    let count := if msgs = Mold.kHeartbeat ∨ msgs = Mold.kEndOfSession then 0 else msgs
    boundedApplyAll pkt count c seq Mold.kHeaderSize

/-- The body of a system event. -/
theorem bodyOf_system (h : byteAt msg 0 = 83) :
    bodyOf msg = if msg.length < 12 then .systemEventShort else .systemEvent (eventCodeOf (byteAt msg 11)) := by
  unfold bodyOf
  simp only
  rw [if_pos h]

/-- The system events, of their length or short. -/
def IsSystem : Itch.Body → Bool
  | .systemEvent _ | .systemEventShort => true
  | _ => false

theorem isSystem_bodyOf (h : byteAt msg 0 ≠ 83) : IsSystem (bodyOf msg) = false := by
  unfold bodyOf
  simp only
  rw [if_neg h]
  split_ifs <;> rfl

theorem ColdShard.boundedApplyOne_eq (c : ColdShard) (n : ℕ) (msg : List UInt8) :
    c.boundedApplyOne n msg = some (c.applyOne n msg) := by
  unfold boundedApplyOne applyOne
  by_cases hshort : msg.length < 11
  · rw [if_pos hshort, if_pos hshort]
  rw [if_neg hshort, if_neg hshort, Itch.readByte_eq (by omega), BookTable.boundedApply_eq _ (by omega)]
  simp only [Option.bind_eq_bind, Option.bind_some]
  have hbody : (decode msg).body = bodyOf msg := rfl
  by_cases hS : byteAt msg 0 = 83
  · rw [if_pos hS, hbody, bodyOf_system hS]
    by_cases hlen : msg.length < 12
    · rw [if_pos hlen, if_neg (Nat.not_le_of_lt hlen)]
      rfl
    · rw [if_neg hlen, if_pos (Nat.le_of_not_lt hlen), Itch.readByte_eq (Nat.le_of_not_lt hlen)]
      rfl
  · have hsystem := isSystem_bodyOf hS
    rw [if_neg hS, hbody]
    cases hb : bodyOf msg
    case systemEvent | systemEventShort =>
      rw [hb] at hsystem
      cases hsystem
    all_goals rfl

theorem ColdShard.boundedApplyAll_eq (pkt : List UInt8) (left : ℕ) (c : ColdShard) (n off : ℕ) :
    boundedApplyAll pkt left c n off = some (c.applyAll n (Mold.messagesFrom pkt left off)) := by
  induction left generalizing c n off with
  | zero => rfl
  | succ left ih =>
      rw [boundedApplyAll, Mold.boundedNextMessage_eq, Mold.messagesFrom]
      cases Mold.nextMessage pkt off with
      | none => rfl
      | some next =>
          simp only [Option.bind_eq_bind, Option.bind_some, boundedApplyOne_eq, ih]
          rfl

/-- The cold shard reads no byte outside of a frame. -/
theorem ColdShard.boundedApplyFrame_eq (c : ColdShard) (pkt : List UInt8) : c.boundedApplyFrame pkt = some (c.applyFrame pkt) := by
  unfold boundedApplyFrame applyFrame
  by_cases hshort : pkt.length < Mold.kHeaderSize
  · simp only [if_pos hshort]
  · have hlen : 20 ≤ pkt.length := Nat.le_of_not_lt hshort
    simp only [if_neg hshort]
    rw [Itch.readBe_eq (Nat.le_trans (by decide) hlen), Itch.readBe_eq (Nat.le_trans (by decide) hlen)]
    exact boundedApplyAll_eq ..

/-- `ColdShard::consume`. -/
def ColdShard.boundedConsume (c : ColdShard) : Option ColdShard :=
  match c.queue with
  | [] => some c
  | none :: queue => some { c with books := c.books.clearAll, queue := queue }
  | some pkt :: queue =>
      if c.queue.length > c.safeDepth then some { c with stale := c.stale + 1, queue := queue }
      else { c with queue := queue }.boundedApplyFrame pkt

theorem ColdShard.boundedConsume_eq (c : ColdShard) : c.boundedConsume = some c.consume := by
  unfold boundedConsume consume
  simp only [boundedApplyFrame_eq]
  rcases c.queue with _ | ⟨f, queue⟩
  · rfl
  · cases f with
    | none => rfl
    | some pkt =>
        simp only
        split_ifs <;> rfl

end TickToTrade.Dut
