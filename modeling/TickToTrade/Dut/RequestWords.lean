import TickToTrade.Dut.QuoterStrategy
import TickToTrade.Dut.SessionSteps
import TickToTrade.Dut.SlotRefs
import TickToTrade.Dut.WarmUps
import TickToTrade.Protocol.Overlays

/-!
# What the DUT requests fits the wire

The references of a request come from the slots and from the counter of the order manager, its
size from the strategy. If the strategy's sizes are words (`QuotesWords`), every request that a
session produces fits the struct that it is written into, in every run: whatever packets and
answers come, and also for test orders and behind walks that warm the quote path.
-/

namespace TickToTrade.Dut

/-- The sizes that the strategy wants are words. -/
def QuoteTargets.Words (t : QuoteTargets) : Prop := t.bidQty < 2 ^ 32 ∧ t.askQty < 2 ^ 32

/-- The references of a slot are words. -/
def QuoteSlot.Words (s : QuoteSlot) : Prop := s.userRef < 2 ^ 32 ∧ s.pendingRef < 2 ^ 32

theorem QuoteSlot.words_blank : QuoteSlot.Words {} := ⟨Nat.two_pow_pos 32, Nat.two_pow_pos 32⟩

/-- The strategies of this kind stay of it, and want sizes that are words. -/
structure QuotesWords {S : Type} [Strategy S] (Good : S → Prop) : Prop where
  onBook : ∀ s, Good s → ∀ book acct, Good (Strategy.onBook s book acct).2 ∧
    ∀ t, (Strategy.onBook s book acct).1 = some t → t.Words
  forget : ∀ s, Good s → Good (Strategy.forget s)

/-- The quoter's sizes are that of its configuration, or none. -/
theorem quotesWords_quoter : QuotesWords fun q : QuoterStrategy => q.cfg.quoteQty < 2 ^ 32 where
  onBook q hq book acct := by
    have hempty : QuoteTargets.Words {} := ⟨Nat.two_pow_pos 32, Nat.two_pow_pos 32⟩
    change (q.onBook book acct).2.cfg.quoteQty < 2 ^ 32 ∧ ∀ t, (q.onBook book acct).1 = some t → t.Words
    unfold QuoterStrategy.onBook
    split_ifs
    · exact ⟨hq, fun t ht => by cases ht; exact hempty⟩
    · exact ⟨hq, fun t ht => nomatch ht⟩
    · exact ⟨hq, fun t ht => by cases ht; exact ⟨hq, hq⟩⟩
    · exact ⟨hq, fun t ht => by cases ht; exact ⟨hq, hq⟩⟩
  forget _ hq := hq

namespace OrderManager

/-- The counter and the references in the slots are words. -/
structure Words (o : OrderManager) : Prop where
  nextUserRef : o.nextUserRef < 2 ^ 32
  slots : ∀ sym side, (o.slots sym side).Words

namespace Words

variable {o : OrderManager} {s : QuoteSlot} {sym qty : ℕ} {side : Side}

theorem of_eq {o' : OrderManager} (ho : o.Words) (hnext : o'.nextUserRef = o.nextUserRef) (hslots : o'.slots = o.slots) :
    o'.Words := ⟨hnext ▸ ho.nextUserRef, hslots ▸ ho.slots⟩

theorem setSlot (ho : o.Words) (sym : ℕ) (side : Side) (hs : s.Words) : (o.setSlot sym side s).Words where
  nextUserRef := ho.nextUserRef
  slots sym' side' := by
    change (Function.update o.slots sym (Function.update (o.slots sym) side s) sym' side').Words
    by_cases hsym : sym' = sym
    · rw [hsym, Function.update_self]
      by_cases hside : side' = side
      · rw [hside, Function.update_self]
        exact hs
      · rw [Function.update_of_ne hside]
        exact ho.slots sym side'
    · rw [Function.update_of_ne hsym]
      exact ho.slots sym' side'

theorem allocRef (ho : o.Words) (sym : ℕ) (side : Side) : (o.allocRef sym side).2.Words where
  nextUserRef := by
    unfold OrderManager.allocRef
    simp only
    split_ifs
    · decide
    · exact Nat.mod_lt _ (Nat.two_pow_pos 32)
  slots := ho.slots

/-! ### Requests -/

theorem wirePrice_lt (p : ℤ) : wirePrice p < 2 ^ 64 := by
  unfold wirePrice
  omega

theorem encodeEnter_fits (ho : o.Words) (sym : ℕ) (side : Side) (price : ℤ) (hqty : qty < 2 ^ 32) :
    (o.encodeEnter sym o.nextUserRef side price qty).msg.Fits :=
  ⟨ho.nextUserRef, hqty, Itch.fitsAlpha_alphaView 8 _, wirePrice_lt price⟩

theorem encodeReplace_fits (ho : o.Words) (hs : s.Words) (price : ℤ) (hqty : qty < 2 ^ 32) :
    (encodeReplace s.userRef o.nextUserRef price qty).msg.Fits := ⟨hs.1, ho.nextUserRef, hqty, wirePrice_lt price⟩

theorem encodeCancel_fits (hs : s.Words) : (encodeCancel s.userRef).msg.Fits := ⟨hs.1, Nat.two_pow_pos 32⟩

theorem encodeTestOrder (ho : o.Words) : o.encodeTestOrder.1.Words ∧ o.encodeTestOrder.2.msg.Fits :=
  ⟨ho.allocRef kTestSym .buy, ho.nextUserRef, Nat.one_lt_two_pow (by decide), Itch.fitsAlpha_alphaView 8 _, wirePrice_lt 100⟩

/-- One slot is brought to what the strategy wants. -/
theorem reconcileSlot (ho : o.Words) (hs : s.Words) (sym : ℕ) (side : Side) (want : Bool) (price : ℤ) (hqty : qty < 2 ^ 32) :
    (o.reconcileSlot s sym side want price qty).1.Words ∧ (o.reconcileSlot s sym side want price qty).2.1.Words ∧
      ∀ out ∈ (o.reconcileSlot s sym side want price qty).2.2, out.msg.Fits := by
  have hdrawn := ho.allocRef sym side
  have hnone : ∀ out ∈ ([] : List Outbound), out.msg.Fits := fun out hout => absurd hout List.not_mem_nil
  unfold OrderManager.reconcileSlot
  simp only
  cases s.state with
  | idle =>
      simp only
      split_ifs
      · exact ⟨ho, hs, hnone⟩
      · exact ⟨hdrawn.of_eq rfl rfl, ⟨ho.nextUserRef, Nat.two_pow_pos 32⟩,
          fun out hout => List.mem_singleton.mp hout ▸ ho.encodeEnter_fits sym side price hqty⟩
  | live =>
      simp only
      split_ifs
      · exact ⟨ho.of_eq rfl rfl, hs, fun out hout => List.mem_singleton.mp hout ▸ encodeCancel_fits hs⟩
      · exact ⟨ho.of_eq rfl rfl, hs, hnone⟩
      · exact ⟨hdrawn.of_eq rfl rfl, ⟨hs.1, ho.nextUserRef⟩,
          fun out hout => List.mem_singleton.mp hout ▸ ho.encodeReplace_fits hs price hqty⟩
  | pendingNew => exact ⟨ho.of_eq rfl rfl, hs, hnone⟩
  | pendingReplace => exact ⟨ho.of_eq rfl rfl, hs, hnone⟩
  | pendingCancel => exact ⟨ho.of_eq rfl rfl, hs, hnone⟩

theorem reconcileSide (ho : o.Words) (sym : ℕ) (side : Side) (want : Bool) (price : ℤ) (hqty : qty < 2 ^ 32) :
    (o.reconcileSide sym side want price qty).1.Words ∧
      ∀ out ∈ (o.reconcileSide sym side want price qty).2, out.msg.Fits := by
  obtain ⟨hwords, hslot, hout⟩ := ho.reconcileSlot (ho.slots sym side) sym side want price hqty
  exact ⟨hwords.setSlot sym side hslot, hout⟩

theorem reconcile (ho : o.Words) (sym : ℕ) {t : QuoteTargets} (ht : t.Words) :
    (o.reconcile sym t).1.Words ∧ ∀ out ∈ (o.reconcile sym t).2, out.msg.Fits := by
  have hboth : ∀ {o' : OrderManager} {first second : List Outbound}, (∀ out ∈ first, out.msg.Fits) →
      (o'.Words ∧ ∀ out ∈ second, out.msg.Fits) → o'.Words ∧ ∀ out ∈ first ++ second, out.msg.Fits := by
    rintro o' first second hfirst ⟨ho', hsecond⟩
    exact ⟨ho', fun out hout => (List.mem_append.mp hout).elim (hfirst out) (hsecond out)⟩
  unfold OrderManager.reconcile
  simp only
  split_ifs
  · obtain ⟨hask, houtAsk⟩ := ho.reconcileSide sym .sell t.quoteAsk t.askPrice ht.2
    exact hboth houtAsk (hask.reconcileSide sym .buy t.quoteBid t.bidPrice ht.1)
  · obtain ⟨hbid, houtBid⟩ := ho.reconcileSide sym .buy t.quoteBid t.bidPrice ht.1
    exact hboth houtBid (hbid.reconcileSide sym .sell t.quoteAsk t.askPrice ht.2)

theorem warmReconcile (ho : o.Words) (sym : ℕ) : (o.warmReconcile sym).Words := by
  rw [warmReconcile_eq]
  exact ho.of_eq rfl rfl

/-! ### Answers -/

theorem answered {s s' : QuoteSlot} (h : QuoteSlot.Answered s s') (hs : s.Words) : s'.Words := by
  cases h with
  | ended => exact QuoteSlot.words_blank
  | goesOn _ _ _ href hpending => exact ⟨href ▸ hs.1, hpending ▸ hs.2⟩
  | replaceOver _ _ href hpending =>
      refine ⟨?_, hpending ▸ Nat.two_pow_pos 32⟩
      obtain href | href := href
      · exact href ▸ hs.1
      · exact href ▸ hs.2

/-- An answer brings no reference in: its own ones are compared only. -/
theorem onAck (ho : o.Words) (ouch : List UInt8) : (o.onAck ouch).Words := by
  have hmoves := onAck_moves o ouch
  refine ⟨hmoves.next ▸ ho.nextUserRef, fun sym side => ?_⟩
  obtain hsame | ⟨p, hother, hanswered⟩ := hmoves.slots
  · exact hsame ▸ ho.slots sym side
  · by_cases hp : (sym, side) = p
    · subst hp
      exact answered hanswered (ho.slots sym side)
    · exact hother (sym, side) hp ▸ ho.slots sym side

theorem new (cfg : OmsConfig) (hfirst : cfg.firstUserRef < 2 ^ 32) : (OrderManager.new cfg).Words where
  nextUserRef := by
    unfold OrderManager.new
    simp only
    split_ifs
    · exact Nat.one_lt_two_pow (by decide)
    · exact hfirst
  slots _ _ := QuoteSlot.words_blank

end Words

end OrderManager

/-! ### The session -/

namespace DutSession

variable {S : Type} {Good : S → Prop}

/-- The order manager and the strategies keep to their words, and all requests so far fit. -/
structure Words (Good : S → Prop) (d : DutSession S) : Prop where
  oms : d.oms.Words
  strats : ∀ h, Good (d.strats h)
  log : ∀ h out ok, .produced h out ok ∈ d.log → out.msg.Fits

namespace Words

variable {d : DutSession S}

theorem of_eq {t : DutSession S} (hd : d.Words Good) (homs : t.oms = d.oms) (hstrats : t.strats = d.strats)
    (hlog : t.log = d.log) : t.Words Good := ⟨homs ▸ hd.oms, hstrats ▸ hd.strats, hlog ▸ hd.log⟩

/-- An event that is no request. -/
theorem note (hd : d.Words Good) {e : Event} (he : ∀ h out ok, e ≠ .produced h out ok) : (d.note e).Words Good :=
  { hd with
    log := fun h out ok hmem => by
      obtain hmem | hmem := List.mem_append.mp hmem
      · exact hd.log h out ok hmem
      · exact absurd (List.mem_singleton.mp hmem).symm (he h out ok) }

theorem sendOrder (hd : d.Words Good) (h : ℕ) {out : Outbound} (hout : out.msg.Fits) : (d.sendOrder h out).Words Good :=
  { hd with
    log := fun h' out' ok hmem => by
      obtain hmem | hmem := List.mem_append.mp hmem
      · exact hd.log h' out' ok hmem
      · cases List.mem_singleton.mp hmem
        exact hout }

theorem setStrat (hd : d.Words Good) (h : ℕ) {s : S} (hs : Good s) :
    Words Good { d with strats := Function.update d.strats h s } :=
  { hd with
    strats := fun h' => by
      by_cases hh : h' = h
      · simp only [hh, Function.update_self]
        exact hs
      · simp only [ne_eq, hh, not_false_eq_true, Function.update_of_ne]
        exact hd.strats h' }

/-! ### Quoting -/

section

variable [Strategy S] (hstrat : QuotesWords Good)

include hstrat

theorem forget (hd : d.Words Good) (h : ℕ) : (d.forget h).Words Good :=
  (hd.setStrat h (hstrat.forget _ (hd.strats h))).note fun _ _ _ => nofun

omit hstrat [Strategy S] in
theorem act (hd : d.Words Good) (h : ℕ) {t : QuoteTargets} (ht : t.Words) : (d.act h t).Words Good := by
  obtain ⟨homs, hout⟩ := hd.oms.reconcile h ht
  refine List.foldlRecOn (motive := Words Good) _ _ ?_ fun _ hd' out hmem => hd'.sendOrder h (hout out hmem)
  exact ⟨homs, hd.strats, hd.log⟩

theorem ask (hd : d.Words Good) (h : ℕ) : (d.ask h).Words Good := by
  obtain ⟨hgood, htargets⟩ := hstrat.onBook _ (hd.strats h) (d.books.hotBook h) (d.oms.acct h)
  unfold DutSession.ask
  simp only
  generalize Strategy.onBook (d.strats h) (d.books.hotBook h) (d.oms.acct h) = answer at hgood htargets ⊢
  obtain ⟨t, s⟩ := answer
  cases t with
  | none => exact (hd.setStrat h hgood).of_eq rfl rfl rfl
  | some t => exact (hd.setStrat h hgood).act h (htargets t rfl)

theorem quote (hd : d.Words Good) (h : ℕ) : (d.quote h).Words Good := by
  unfold DutSession.quote
  split_ifs
  · exact Words.ask hstrat (hd.note (e := .evaluated h) fun _ _ _ => nofun) h
  · refine act (note (e := .evaluated h) (hd.forget hstrat h) fun _ _ _ => nofun) h ?_
    exact ⟨Nat.two_pow_pos 32, Nat.two_pow_pos 32⟩

theorem quoteAll (hd : d.Words Good) : d.quoteAll.Words Good :=
  List.foldlRecOn (motive := Words Good) _ _ hd fun _ hd' h _ => hd'.quote hstrat h

/-! ### Packets -/

omit hstrat [Strategy S] in
theorem applyMessage (hd : d.Words Good) (n : ℕ) (msg : List UInt8) : (d.applyMessage n msg).1.Words Good := by
  have hbooks : (d.toBooks n msg).1.Words Good := by
    unfold DutSession.toBooks
    split_ifs
    · exact note (hd.of_eq (t := { d with books := (d.books.apply (Itch.decode msg)).1 }) rfl rfl rfl) fun _ _ _ => nofun
    · exact hd
  unfold DutSession.applyMessage
  split_ifs
  · exact hd
  split
  · rename_i code _
    cases code <;> exact hd.of_eq rfl rfl rfl
  · exact hd
  · exact hbooks

theorem handle (hd : d.Words Good) (n : ℕ) (msg : List UInt8) : (d.handle n msg).Words Good := by
  have happlied := hd.applyMessage n msg
  unfold DutSession.handle
  generalize d.applyMessage n msg = r at happlied ⊢
  obtain ⟨d', hot⟩ := r
  cases hot with
  | none => exact happlied
  | some h =>
      change (d'.requote h).Words Good
      unfold DutSession.requote
      split_ifs
      · exact happlied
      · exact (Words.forget hstrat happlied h).quote hstrat h
      · exact Words.quote hstrat happlied h

theorem handleAll (hd : d.Words Good) (n : ℕ) (msgs : List (List UInt8)) : (d.handleAll n msgs).Words Good := by
  induction msgs generalizing d n with
  | nil => exact hd
  | cons msg msgs ih => exact ih (hd.handle hstrat n msg) (n + 1)

omit hstrat [Strategy S] in
theorem begin (hd : d.Words Good) (pkt : List UInt8) : (d.begin pkt).Words Good := by
  unfold DutSession.begin
  simp only
  split_ifs <;> exact hd.of_eq rfl rfl rfl

theorem finish (hd : d.Words Good) (pkt : List UInt8) : (d.finish pkt).Words Good := by
  unfold DutSession.finish
  simp only
  split_ifs
  · exact (quoteAll hstrat (hd.of_eq (t := { d with reconcileAll := false }) rfl rfl rfl)).of_eq rfl rfl rfl
  · exact hd.of_eq rfl rfl rfl

theorem applyPacket (hd : d.Words Good) (pkt : List UInt8) : (d.applyPacket pkt).Words Good := by
  unfold DutSession.applyPacket
  split_ifs
  · exact hd
  · exact hd.begin pkt
  · exact ((hd.begin pkt).handleAll hstrat _ _).finish hstrat pkt

/-! ### Runs -/

omit hstrat [Strategy S] in
theorem applyAck (hd : d.Words Good) (ouch : List UInt8) : (d.applyAck ouch).Words Good :=
  ⟨hd.oms.onAck ouch, hd.strats, hd.log⟩

theorem warm (hd : d.Words Good) (h : ℕ) : (d.warm h).Words Good := by
  have hgood := (hstrat.onBook _ (hd.strats h) (d.books.hotBook h) (d.oms.acct h)).1
  have hforgot := Words.forget hstrat (hd.setStrat h hgood) h
  exact ⟨hforgot.oms.warmReconcile h, hforgot.strats, hforgot.log⟩

theorem step (hd : d.Words Good) (x : Input) : (d.step x).Words Good := by
  cases x with
  | packet bytes => exact hd.applyPacket hstrat bytes
  | ack bytes => exact hd.applyAck bytes
  | coldFrame => exact hd.of_eq rfl rfl rfl
  | warmUp =>
      have hwarm : ((List.range d.books.hotCount).foldl DutSession.warm d).Words Good :=
        List.foldlRecOn (motive := Words Good) _ _ hd fun _ hd' h _ => hd'.warm hstrat h
      exact hwarm.of_eq rfl rfl rfl
  | testOrder =>
      obtain ⟨homs, hout⟩ := hd.oms.encodeTestOrder
      exact sendOrder (d := { d with oms := d.oms.encodeTestOrder.1 }) ⟨homs, hd.strats, hd.log⟩ _ hout

/-- **In every run** the requests that a session produces fit. -/
theorem run (hd : d.Words Good) (ins : List Input) : (d.run ins).Words Good :=
  List.foldlRecOn (motive := Words Good) ins DutSession.step hd fun _ hd' x _ => hd'.step hstrat x

end

theorem new {cfg : DutConfig} (hfirst : cfg.firstUserRef < 2 ^ 32) {strat : S} (hstrat : Good strat) (link : ℕ → Bool) :
    (DutSession.new cfg strat link).Words Good :=
  ⟨OrderManager.Words.new _ hfirst, fun _ => hstrat, fun _ _ _ h => absurd h List.not_mem_nil⟩

end Words

end DutSession

end TickToTrade.Dut
