import TickToTrade.Dut.OrderManager

/-!
# What happens to a slot

The lemmas here say once what a request and an answer do to the slots: `reconcile`
moves only the slots of its symbol, and only those that wait for no answer, each by
the request it sends; an answer moves at most one slot, and never a free one.
-/

namespace TickToTrade.Dut

namespace OrderManager

variable {o : OrderManager} {s : QuoteSlot} {sym : ℕ} {side : Side} {want : Bool} {price : ℤ} {qty : ℕ}

@[simp] theorem setSlot_slots_self (o : OrderManager) (sym : ℕ) (side : Side) (s : QuoteSlot) :
    (o.setSlot sym side s).slots sym side = s := by
  simp [setSlot]

theorem setSlot_slots_of_sym_ne {sym' : ℕ} (h : sym' ≠ sym) (o : OrderManager) (side side' : Side)
    (s : QuoteSlot) : (o.setSlot sym side s).slots sym' side' = o.slots sym' side' := by
  simp [setSlot, h]

theorem setSlot_slots_of_side_ne {side' : Side} (h : side' ≠ side) (o : OrderManager) (sym sym' : ℕ)
    (s : QuoteSlot) : (o.setSlot sym side s).slots sym' side' = o.slots sym' side' := by
  by_cases hs : sym' = sym
  · subst hs; simp [setSlot, h]
  · exact setSlot_slots_of_sym_ne hs o side side' s

theorem setSlot_slots_of_ne {sym' : ℕ} {side' : Side} (h : (sym', side') ≠ (sym, side)) (o : OrderManager)
    (s : QuoteSlot) : (o.setSlot sym side s).slots sym' side' = o.slots sym' side' := by
  by_cases hs : sym' = sym
  · exact setSlot_slots_of_side_ne (fun hside => h (by rw [hs, hside])) o sym sym' s
  · exact setSlot_slots_of_sym_ne hs o side side' s

@[simp] theorem count_slots (o : OrderManager) (f : OmsStats → OmsStats) : (o.count f).slots = o.slots := rfl
@[simp] theorem found_slots (o : OrderManager) (sym : ℕ) : (o.found sym).slots = o.slots := rfl
@[simp] theorem unknownAck_slots (o : OrderManager) : o.unknownAck.slots = o.slots := rfl
@[simp] theorem allocRef_slots (o : OrderManager) (sym : ℕ) (side : Side) :
    (o.allocRef sym side).2.slots = o.slots := rfl

/-! ### Requests -/

/-- The part of the order manager that no request changes. -/
structure SameBooks (o o' : OrderManager) : Prop where
  symbols : o'.symbols = o.symbols
  acct : o'.acct = o.acct
  ackSym : o'.ackSym = o.ackSym

namespace SameBooks

theorem refl (o : OrderManager) : SameBooks o o := ⟨rfl, rfl, rfl⟩

theorem trans {o o' o'' : OrderManager} (h : SameBooks o o') (h' : SameBooks o' o'') :
    SameBooks o o'' :=
  ⟨h'.symbols.trans h.symbols, h'.acct.trans h.acct, h'.ackSym.trans h.ackSym⟩

end SameBooks

/-- What `reconcileSlot` can do to a slot, with the request that it sends: nothing, or
a new order from a free slot, or a cancel or a replace from a live one. -/
inductive Requests (o : OrderManager) (s : QuoteSlot) (sym : ℕ) (side : Side) (want : Bool) (price : ℤ)
    (qty : ℕ) : QuoteSlot → List Outbound → Prop where
  | rest (hlive : s.state = .live → want = true ∧ qty ≠ 0 ∧ price = s.price ∧ qty = s.leaves)
      (hidle : s.state = .idle → want = false ∨ qty = 0) : Requests o s sym side want price qty s []
  | enter (hidle : s.state = .idle) (hwant : want = true) (hqty : qty ≠ 0) :
      Requests o s sym side want price qty
        { state := .pendingNew, userRef := o.nextUserRef, pendingRef := 0, price := price, qty := qty,
          leaves := qty }
        [o.encodeEnter sym o.nextUserRef side price qty]
  | cancel (hlive : s.state = .live) (hwant : want = false ∨ qty = 0) :
      Requests o s sym side want price qty { s with state := .pendingCancel } [encodeCancel s.userRef]
  | replace (hlive : s.state = .live) (hwant : want = true) (hqty : qty ≠ 0)
      (hnew : ¬ (price = s.price ∧ qty = s.leaves)) :
      Requests o s sym side want price qty { s with state := .pendingReplace, pendingRef := o.nextUserRef }
        [encodeReplace s.userRef o.nextUserRef price qty]

/-- `reconcileSlot` does one of these. -/
theorem reconcileSlot_requests (o : OrderManager) (s : QuoteSlot) (sym : ℕ) (side : Side) (want : Bool)
    (price : ℤ) (qty : ℕ) :
    Requests o s sym side want price qty (o.reconcileSlot s sym side want price qty).2.1
      (o.reconcileSlot s sym side want price qty).2.2 := by
  unfold reconcileSlot
  cases hs : s.state with
  | idle =>
      simp only
      split_ifs with hw
      · exact .rest (by simp [hs]) fun _ => by
          rw [Bool.not_eq_true', Bool.and_eq_false_iff, decide_eq_false_iff_not, not_not] at hw
          exact hw
      · simp only [Bool.not_eq_true', Bool.not_eq_false, Bool.and_eq_true, decide_eq_true_eq] at hw
        exact .enter hs hw.1 hw.2
  | live =>
      simp only
      split_ifs with hw hsame
      · rw [Bool.not_eq_true', Bool.and_eq_false_iff, decide_eq_false_iff_not, not_not] at hw
        exact .cancel hs hw
      · simp only [Bool.not_eq_true', Bool.not_eq_false, Bool.and_eq_true, decide_eq_true_eq] at hw
        exact .rest (fun _ => ⟨hw.1, hw.2, hsame⟩) (by simp [hs])
      · simp only [Bool.not_eq_true', Bool.not_eq_false, Bool.and_eq_true, decide_eq_true_eq] at hw
        exact .replace hs hw.1 hw.2 hsame
  | pendingNew => exact .rest (by simp [hs]) (by simp [hs])
  | pendingReplace => exact .rest (by simp [hs]) (by simp [hs])
  | pendingCancel => exact .rest (by simp [hs]) (by simp [hs])

/-- `reconcileSlot` changes the slots only through its result. -/
theorem reconcileSlot_slots (o : OrderManager) (s : QuoteSlot) (sym : ℕ) (side : Side) (want : Bool)
    (price : ℤ) (qty : ℕ) : (o.reconcileSlot s sym side want price qty).1.slots = o.slots := by
  unfold reconcileSlot
  cases hs : s.state <;> simp only <;> split_ifs <;> rfl

theorem reconcileSlot_sameBooks (o : OrderManager) (s : QuoteSlot) (sym : ℕ) (side : Side) (want : Bool)
    (price : ℤ) (qty : ℕ) : SameBooks o (o.reconcileSlot s sym side want price qty).1 := by
  unfold reconcileSlot
  cases hs : s.state <;> simp only <;> split_ifs <;> exact ⟨rfl, rfl, rfl⟩

theorem reconcileSide_sameBooks (o : OrderManager) (sym : ℕ) (side : Side) (want : Bool)
    (price : ℤ) (qty : ℕ) : SameBooks o (o.reconcileSide sym side want price qty).1 := by
  have h := reconcileSlot_sameBooks o (o.slots sym side) sym side want price qty
  exact ⟨h.symbols, h.acct, h.ackSym⟩

/-- `reconcileSide` does one of the requests to its own slot. -/
theorem reconcileSide_requests (o : OrderManager) (sym : ℕ) (side : Side) (want : Bool) (price : ℤ)
    (qty : ℕ) :
    Requests o (o.slots sym side) sym side want price qty
      ((o.reconcileSide sym side want price qty).1.slots sym side)
      (o.reconcileSide sym side want price qty).2 := by
  have h := reconcileSlot_requests o (o.slots sym side) sym side want price qty
  simpa [reconcileSide] using h

/-- `reconcileSide` leaves the other slots. -/
theorem reconcileSide_slots_of_ne {sym' : ℕ} {side' : Side} (h : (sym', side') ≠ (sym, side))
    (o : OrderManager) (want : Bool) (price : ℤ) (qty : ℕ) :
    (o.reconcileSide sym side want price qty).1.slots sym' side' = o.slots sym' side' := by
  unfold reconcileSide
  simp only
  rw [setSlot_slots_of_ne h, reconcileSlot_slots]

/-- What a slot has become after requests for its symbol: a slot that waits for an
answer has stayed, a free slot has stayed or has sent a new order, and a live slot has
stayed or has sent its cancel or its replace. -/
structure Moves (s s' : QuoteSlot) (out : List Outbound) : Prop where
  pending : s.state.Pending → s' = s
  idle : s.state = .idle → s' = s ∨
    (s'.state = .pendingNew ∧ ∃ m ref, (⟨.enterOrder m, ref⟩ : Outbound) ∈ out)
  live : s.state = .live → s' = s ∨
    (s'.state = .pendingCancel ∧ encodeCancel s.userRef ∈ out) ∨
    (s'.state = .pendingReplace ∧ ∃ ref price qty, encodeReplace s.userRef ref price qty ∈ out)

namespace Moves

theorem refl (s : QuoteSlot) (out : List Outbound) : Moves s s out :=
  ⟨fun _ => rfl, fun _ => .inl rfl, fun _ => .inl rfl⟩

theorem mono {s s' : QuoteSlot} {out out' : List Outbound} (h : Moves s s' out) (hout : out ⊆ out') :
    Moves s s' out' where
  pending := h.pending
  idle hi := by
    obtain he | ⟨hs, m, ref, hm⟩ := h.idle hi
    · exact .inl he
    · exact .inr ⟨hs, m, ref, hout hm⟩
  live hl := by
    obtain he | ⟨hs, hc⟩ | ⟨hs, ref, price, qty, hr⟩ := h.live hl
    · exact .inl he
    · exact .inr (.inl ⟨hs, hout hc⟩)
    · exact .inr (.inr ⟨hs, ref, price, qty, hout hr⟩)

/-- A slot that was not live has not become live. -/
theorem not_live {s s' : QuoteSlot} {out : List Outbound} (h : Moves s s' out) (hs : s.state ≠ .live) :
    s'.state ≠ .live := by
  by_cases hp : s.state.Pending
  · rw [h.pending hp]; exact hs
  · have hi : s.state = .idle := by
      cases hst : s.state <;> simp_all [QuoteState.Pending]
    obtain he | ⟨hn, -⟩ := h.idle hi
    · rw [he]; exact hs
    · rw [hn]; decide

theorem trans {s s' s'' : QuoteSlot} {out : List Outbound} (h : Moves s s' out) (h' : Moves s' s'' out) :
    Moves s s'' out where
  pending hp := by
    have he := h.pending hp
    rw [h'.pending (by rw [he]; exact hp), he]
  idle hi := by
    obtain he | ⟨hn, hm⟩ := h.idle hi
    · rw [he] at h'; exact h'.idle hi
    · rw [h'.pending (by rw [hn]; exact .inl rfl)]; exact .inr ⟨hn, hm⟩
  live hl := by
    obtain he | ⟨hs, hc⟩ | ⟨hs, hr⟩ := h.live hl
    · rw [he] at h'; exact h'.live hl
    · rw [h'.pending (by rw [hs]; exact .inr (.inr rfl))]; exact .inr (.inl ⟨hs, hc⟩)
    · rw [h'.pending (by rw [hs]; exact .inr (.inl rfl))]; exact .inr (.inr ⟨hs, hr⟩)

/-- Without any request the slot has stayed. -/
theorem eq_of_nil {s s' : QuoteSlot} (h : Moves s s' []) : s' = s := by
  cases hs : s.state with
  | idle =>
      obtain he | ⟨-, m, ref, hm⟩ := h.idle hs
      · exact he
      · cases hm
  | live =>
      obtain he | ⟨-, hc⟩ | ⟨-, ref, price, qty, hr⟩ := h.live hs
      · exact he
      · cases hc
      · cases hr
  | pendingNew => exact h.pending (by rw [hs]; exact .inl rfl)
  | pendingReplace => exact h.pending (by rw [hs]; exact .inr (.inl rfl))
  | pendingCancel => exact h.pending (by rw [hs]; exact .inr (.inr rfl))

end Moves

theorem Requests.moves {s' : QuoteSlot} {out : List Outbound}
    (h : Requests o s sym side want price qty s' out) : Moves s s' out := by
  cases h with
  | rest => exact Moves.refl _ _
  | enter hidle =>
      exact ⟨by simp [hidle, QuoteState.Pending],
        fun _ => .inr ⟨rfl, _, _, List.mem_singleton.mpr rfl⟩, by simp [hidle]⟩
  | cancel hlive =>
      exact ⟨by simp [hlive, QuoteState.Pending], by simp [hlive],
        fun _ => .inr (.inl ⟨rfl, List.mem_singleton.mpr rfl⟩)⟩
  | replace hlive =>
      exact ⟨by simp [hlive, QuoteState.Pending], by simp [hlive],
        fun _ => .inr (.inr ⟨rfl, _, _, _, List.mem_singleton.mpr rfl⟩)⟩

/-- A request that is not for a quote cancels a live slot. -/
theorem Requests.cancels {s' : QuoteSlot} {out : List Outbound}
    (h : Requests o s sym side false price qty s' out) (hs : s.state = .live) :
    s' = { s with state := .pendingCancel } ∧ encodeCancel s.userRef ∈ out := by
  cases h with
  | rest hlive => exact absurd (hlive hs).1 Bool.false_ne_true
  | enter hidle => rw [hidle] at hs; cases hs
  | cancel => exact ⟨rfl, List.mem_singleton.mpr rfl⟩
  | replace _ hwant => exact absurd hwant Bool.false_ne_true

/-- `reconcileSide` for one side of the targets. -/
def reconcileFor (o : OrderManager) (sym : ℕ) (t : QuoteTargets) : Side → OrderManager × List Outbound
  | .buy => o.reconcileSide sym .buy t.quoteBid t.bidPrice t.bidQty
  | .sell => o.reconcileSide sym .sell t.quoteAsk t.askPrice t.askQty

/-- The side that `reconcile` does first. -/
def firstSide (o : OrderManager) (sym : ℕ) (t : QuoteTargets) : Side :=
  if o.sellFirst sym t then .sell else .buy

/-- `reconcile` does the one side and then the other. -/
theorem reconcile_eq (o : OrderManager) (sym : ℕ) (t : QuoteTargets) :
    let first := o.reconcileFor sym t (o.firstSide sym t)
    let second := first.1.reconcileFor sym t (o.firstSide sym t).opposite
    o.reconcile sym t = (second.1, first.2 ++ second.2) := by
  unfold reconcile firstSide
  split_ifs <;> rfl

theorem reconcileFor_sameBooks (o : OrderManager) (sym : ℕ) (t : QuoteTargets) (side : Side) :
    SameBooks o (o.reconcileFor sym t side).1 := by
  cases side <;> exact reconcileSide_sameBooks ..

theorem reconcileFor_slots_of_ne {sym' : ℕ} {side' : Side} (h : (sym', side') ≠ (sym, side))
    (o : OrderManager) (t : QuoteTargets) :
    (o.reconcileFor sym t side).1.slots sym' side' = o.slots sym' side' := by
  cases side <;> exact reconcileSide_slots_of_ne h ..

theorem reconcileFor_moves (o : OrderManager) (sym : ℕ) (t : QuoteTargets) (side : Side) :
    Moves (o.slots sym side) ((o.reconcileFor sym t side).1.slots sym side)
      (o.reconcileFor sym t side).2 := by
  cases side <;> exact (reconcileSide_requests ..).moves

theorem reconcile_sameBooks (o : OrderManager) (sym : ℕ) (t : QuoteTargets) :
    SameBooks o (o.reconcile sym t).1 := by
  rw [reconcile_eq]
  exact (reconcileFor_sameBooks ..).trans (reconcileFor_sameBooks ..)

/-- `reconcile` leaves the slots of other symbols. -/
theorem reconcile_slots_of_ne {sym' : ℕ} (h : sym' ≠ sym) (o : OrderManager) (t : QuoteTargets)
    (side : Side) : (o.reconcile sym t).1.slots sym' side = o.slots sym' side := by
  have hne : ∀ x, (sym', side) ≠ (sym, x) := fun x he => h (Prod.ext_iff.mp he).1
  rw [reconcile_eq]
  simp only
  rw [reconcileFor_slots_of_ne (hne _), reconcileFor_slots_of_ne (hne _)]

/-- `reconcile` moves the slots of its symbol by the requests that it sends. -/
theorem reconcile_moves (o : OrderManager) (sym : ℕ) (t : QuoteTargets) (side : Side) :
    Moves (o.slots sym side) ((o.reconcile sym t).1.slots sym side) (o.reconcile sym t).2 := by
  have hfirst := reconcileFor_moves o sym t (o.firstSide sym t)
  have hsecond := reconcileFor_moves (o.reconcileFor sym t (o.firstSide sym t)).1 sym t
    (o.firstSide sym t).opposite
  rw [reconcile_eq]
  simp only
  by_cases hside : side = o.firstSide sym t
  · have hne : (sym, side) ≠ (sym, (o.firstSide sym t).opposite) := fun he =>
      Side.ne_opposite _ (hside.symm.trans (Prod.ext_iff.mp he).2)
    rw [reconcileFor_slots_of_ne hne, hside]
    exact hfirst.mono (List.subset_append_left _ _)
  · have hside' : side = (o.firstSide sym t).opposite := Side.eq_opposite_of_ne (Ne.symm hside)
    have hne : (sym, side) ≠ (sym, o.firstSide sym t) := fun he => hside (Prod.ext_iff.mp he).2
    rw [← reconcileFor_slots_of_ne hne o t, hside']
    exact hsecond.mono (List.subset_append_right _ _)

theorem reconcileFor_pulls (o : OrderManager) (sym : ℕ) (side : Side) :
    let r := o.reconcileFor sym {} side
    (o.slots sym side).state = .live →
      r.1.slots sym side = { o.slots sym side with state := .pendingCancel } ∧
        encodeCancel (o.slots sym side).userRef ∈ r.2 := by
  intro r hl
  cases side <;> exact (reconcileSide_requests ..).cancels hl

/-- Without targets `reconcile` cancels every live order of its symbol. -/
theorem reconcile_pulls (o : OrderManager) (sym : ℕ) (side : Side) (hl : (o.slots sym side).state = .live) :
    (o.reconcile sym {}).1.slots sym side = { o.slots sym side with state := .pendingCancel } ∧
      encodeCancel (o.slots sym side).userRef ∈ (o.reconcile sym {}).2 := by
  rw [reconcile_eq]
  simp only
  by_cases hside : side = o.firstSide sym {}
  · have hne : (sym, side) ≠ (sym, (o.firstSide sym {}).opposite) := fun he =>
      Side.ne_opposite _ (hside.symm.trans (Prod.ext_iff.mp he).2)
    rw [reconcileFor_slots_of_ne hne, ← hside]
    have h := reconcileFor_pulls o sym side hl
    exact ⟨h.1, List.mem_append_left _ h.2⟩
  · have hside' : (o.firstSide sym {}).opposite = side := (Side.eq_opposite_of_ne (Ne.symm hside)).symm
    have hne : (sym, side) ≠ (sym, o.firstSide sym {}) := fun he => hside (Prod.ext_iff.mp he).2
    have hsame := reconcileFor_slots_of_ne hne o {}
    have h := reconcileFor_pulls (o.reconcileFor sym {} (o.firstSide sym {})).1 sym side (by rw [hsame]; exact hl)
    rw [hsame] at h
    rw [hside']
    exact ⟨h.1, List.mem_append_right _ h.2⟩

/-! ### Answers -/

/-- The slot found by a reference holds it. -/
theorem holds_of_slotByRef {userRef : ℕ} {p : ℕ × Side} (h : o.slotByRef userRef = some p) :
    (o.slots p.1 p.2).Holds userRef := by
  have hscan : ∀ {q}, (o.positions.find? fun p => (o.slots p.1 p.2).Holds userRef) = some q →
      (o.slots q.1 q.2).Holds userRef := fun hq => by simpa using List.find?_some hq
  unfold slotByRef at h
  simp only at h
  cases hl : o.lookupRef userRef with
  | none => rw [hl] at h; exact hscan h
  | some hint =>
      rw [hl] at h
      simp only at h
      split_ifs at h with hh
      · cases h; exact hh.2
      · exact hscan h

/-- The slot found by a pending reference waits for it. -/
theorem awaits_of_slotByPending {userRef : ℕ} {p : ℕ × Side} (h : o.slotByPending userRef = some p) :
    (o.slots p.1 p.2).Awaits userRef := by
  simpa using List.find?_some h

/-- What an answer can do: nothing to slots and accounts; or to the slot that a
reference finds, which it marks; or to the slot that a replace waits in. -/
inductive Answers (o : OrderManager) (m : Ouch.Out) (o' : OrderManager) : Prop where
  | nothing (hslots : o'.slots = o.slots) (hacct : o'.acct = o.acct)
  | byRef (sym : ℕ) (side : Side) (hidle : (o.slots sym side).state ≠ .idle) (hmark : o'.ackSym = some sym)
      (hslots : ∀ p, p ≠ (sym, side) → o'.slots p.1 p.2 = o.slots p.1 p.2)
      (hacct : ∀ sym', sym' ≠ sym → o'.acct sym' = o.acct sym')
  | byPending (sym : ℕ) (side : Side) (userRef : ℕ)
      (hm : (∃ r, m = .replaced r ∧ r.userRefNum = userRef) ∨ ∃ r, m = .rejected r ∧ r.userRefNum = userRef)
      (hawaits : (o.slots sym side).Awaits userRef)
      (hslots : ∀ p, p ≠ (sym, side) → o'.slots p.1 p.2 = o.slots p.1 p.2) (hacct : o'.acct = o.acct)

/-- An answer that overwrites the slot that a reference finds. -/
theorem Answers.ofRef {m : Ouch.Out} {o' : OrderManager} {userRef : ℕ} {p : ℕ × Side}
    (h : o.slotByRef userRef = some p) (s : QuoteSlot) (hslots : o'.slots = o.slots)
    (hmark : o'.ackSym = some p.1) (hacct : ∀ sym', sym' ≠ p.1 → o'.acct sym' = o.acct sym') :
    Answers o m (o'.setSlot p.1 p.2 s) :=
  .byRef p.1 p.2 (holds_of_slotByRef h).1 hmark
    (fun q hq => by rw [setSlot_slots_of_ne hq, hslots]) hacct

/-- An answer that overwrites the slot that a pending reference finds. -/
theorem Answers.ofPending {m : Ouch.Out} {o' : OrderManager} {userRef : ℕ} {p : ℕ × Side}
    (h : o.slotByPending userRef = some p) (s : QuoteSlot)
    (hm : (∃ r, m = .replaced r ∧ r.userRefNum = userRef) ∨ ∃ r, m = .rejected r ∧ r.userRefNum = userRef)
    (hslots : o'.slots = o.slots) (hacct : o'.acct = o.acct) : Answers o m (o'.setSlot p.1 p.2 s) :=
  .byPending p.1 p.2 userRef hm (awaits_of_slotByPending h)
    (fun q hq => by rw [setSlot_slots_of_ne hq, hslots]) hacct

theorem onAccepted_answers (o : OrderManager) (r : Ouch.Accepted) :
    Answers o (.accepted r) (o.onAccepted r) := by
  unfold onAccepted
  split
  · exact .nothing rfl rfl
  · cases hf : o.slotByRef r.userRefNum with
    | none => exact .nothing rfl rfl
    | some p =>
        simp only
        split
        · exact .byRef p.1 p.2 (holds_of_slotByRef hf).1 rfl (fun _ _ => rfl) fun _ _ => rfl
        · split
          · exact .ofRef hf _ rfl rfl fun _ _ => rfl
          · exact .ofRef hf _ rfl rfl fun _ _ => rfl

theorem onReplaced_answers (o : OrderManager) (r : Ouch.Replaced) :
    Answers o (.replaced r) (o.onReplaced r) := by
  unfold onReplaced
  cases hf : o.slotByPending r.userRefNum with
  | none => exact .nothing rfl rfl
  | some p =>
      simp only
      split
      · exact .ofPending hf _ (.inl ⟨r, rfl, rfl⟩) rfl rfl
      · exact .ofPending hf _ (.inl ⟨r, rfl, rfl⟩) rfl rfl

theorem onExecuted_answers (o : OrderManager) (r : Ouch.Executed) :
    Answers o (.executed r) (o.onExecuted r) := by
  unfold onExecuted
  cases hf : o.slotByRef r.userRefNum with
  | none => exact .nothing rfl rfl
  | some p =>
      have hacct : ∀ (a : Account) sym', sym' ≠ p.1 →
          Function.update o.acct p.1 a sym' = o.acct sym' := fun a _ h => Function.update_of_ne h a o.acct
      simp only
      generalize (if r.quantity ≥ _ then 0 else _ : ℕ) = leaves
      split
      · exact .ofRef hf _ rfl rfl (hacct _)
      · exact .ofRef hf _ rfl rfl (hacct _)

theorem onCanceled_answers (o : OrderManager) (r : Ouch.Canceled) :
    Answers o (.canceled r) (o.onCanceled r) := by
  unfold onCanceled
  cases hf : o.slotByRef r.userRefNum with
  | none => exact .nothing rfl rfl
  | some p =>
      simp only
      generalize (if r.quantity ≥ _ then 0 else _ : ℕ) = leaves
      split
      · exact .ofRef hf _ rfl rfl fun _ _ => rfl
      · exact .ofRef hf _ rfl rfl fun _ _ => rfl

theorem onRejected_answers (o : OrderManager) (r : Ouch.Rejected) :
    Answers o (.rejected r) (o.onRejected r) := by
  unfold onRejected
  split
  · exact .nothing rfl rfl
  · -- the counters play no part in finding a slot
    have hpending : (o.count fun c => c.reject r.reason).slotByPending r.userRefNum =
        o.slotByPending r.userRefNum := rfl
    have href : (o.count fun c => c.reject r.reason).slotByRef r.userRefNum =
        o.slotByRef r.userRefNum := rfl
    simp only [hpending, href]
    cases hf : o.slotByPending r.userRefNum with
    | some p =>
        simp only
        split
        · exact .ofPending hf _ (.inr ⟨r, rfl, rfl⟩) rfl rfl
        · exact .ofPending hf _ (.inr ⟨r, rfl, rfl⟩) rfl rfl
    | none =>
        cases hr : o.slotByRef r.userRefNum with
        | none => exact .nothing rfl rfl
        | some p => exact .ofRef hr _ rfl rfl fun _ _ => rfl

theorem onCancelReject_answers (o : OrderManager) (r : Ouch.CancelReject) :
    Answers o (.cancelReject r) (o.onCancelReject r) := by
  unfold onCancelReject
  cases hf : o.slotByRef r.userRefNum with
  | none => exact .nothing rfl rfl
  | some p =>
      simp only
      split
      · exact .byRef p.1 p.2 (holds_of_slotByRef hf).1 rfl (fun _ _ => rfl) fun _ _ => rfl
      · split
        · exact .ofRef hf _ rfl rfl fun _ _ => rfl
        · exact .ofRef hf _ rfl rfl fun _ _ => rfl

/-- Every answer does one of these. -/
theorem onAckMsg_answers (o : OrderManager) (m : Ouch.Out) : Answers o m (o.onAckMsg m) := by
  cases m with
  | accepted r => exact onAccepted_answers o r
  | replaced r => exact onReplaced_answers o r
  | canceled r => exact onCanceled_answers o r
  | executed r => exact onExecuted_answers o r
  | rejected r => exact onRejected_answers o r
  | cancelReject r => exact onCancelReject_answers o r

/-- An answer leaves a free slot. -/
theorem onAck_slots_of_idle (ouch : List UInt8) (h : (o.slots sym side).state = .idle) :
    (o.onAck ouch).slots sym side = o.slots sym side := by
  unfold onAck
  cases hd : Ouch.decodeOut ouch with
  | none => rfl
  | some m =>
      simp only
      have hmove := onAckMsg_answers { o with ackSym := none } m
      have hne : ∀ {sym' side'}, (o.slots sym' side').state ≠ .idle → (sym, side) ≠ (sym', side') := by
        rintro sym' side' hidle ⟨⟩
        exact hidle h
      cases hmove with
      | nothing hslots => rw [hslots]
      | byRef sym' side' hidle _ hslots => exact hslots _ (hne hidle)
      | byPending sym' side' _ _ hawaits hslots =>
          refine hslots _ (hne ?_)
          rw [hawaits.1]; decide

end OrderManager

end TickToTrade.Dut
