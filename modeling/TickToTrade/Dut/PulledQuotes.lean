import TickToTrade.Dut.SessionRuns

/-!
# Pulling the quotes

Two events ought to take the DUT's orders out of the market within the packet that
brings them: the feed going dead, and the end of trading for a symbol. The session
does so only where it evaluates the quotes, and neither event changes the top of a
book. This module says exactly which packets cancel the orders:

* `deadFeedPulls_iff` — while the feed is invalid, the packets that quote all symbols
  at their end, or that find no live order;
* `haltPulls_iff` — when trading in a symbol stops, those and the packets in which the
  stop, or a message after it, finds a top that the session has not seen.

In a run that misses these an order stays in the market (`deadFeed_leaves_order`,
`halt_leaves_order`).
-/

namespace TickToTrade.Dut.DutSession

open OrderManager (Moves encodeCancel encodeReplace)

variable {S : Type} [Strategy S]

/-- Does the packet make the session quote all symbols at its end? -/
def QuotesAll (d : DutSession S) (pkt : List UInt8) : Prop :=
  d.reconcileAll ∨ d.verdict pkt = .gap ∨ ∃ msg ∈ Mold.messages pkt, Rouses msg

/-- Has the hot symbol no live order? -/
def NoneLive (d : DutSession S) (h : ℕ) : Prop := ∀ side, (d.oms.slots h side).state ≠ .live

instance (d : DutSession S) (h : ℕ) : Decidable (d.NoneLive h) :=
  decidable_of_iff ((d.oms.slots h .buy).state ≠ .live ∧ (d.oms.slots h .sell).state ≠ .live)
    ⟨fun hs side => by cases side; exacts [hs.1, hs.2], fun hs => ⟨hs .buy, hs .sell⟩⟩

omit [Strategy S] in
theorem Acts.noneLive {d d' : DutSession S} {new : List Event} (ha : Acts d d' new) {h : ℕ}
    (hn : d.NoneLive h) : d'.NoneLive h := fun side => ha.not_live (hn side)

theorem quotesAll_iff (d : DutSession S) (pkt : List UInt8) :
    (d.afterMessages pkt).reconcileAll ↔ d.QuotesAll pkt := by
  obtain ⟨-, -, -, h⟩ := afterMessages_spec d pkt
  rw [h, or_assoc, QuotesAll]

/-! ### A dead feed -/

/-- Every order that is live when the packet arrives gets its cancel. -/
def CancelsLive (d : DutSession S) (pkt : List UInt8) : Prop :=
  ∀ h side, (d.oms.slots h side).state = .live →
    encodeCancel (d.oms.slots h side).userRef ∈ requests h (d.events pkt)

/-- A packet that is accepted while the feed is invalid, and stays so, cancels every live
order. -/
def DeadFeedPulls (d : DutSession S) (i : Input) : Prop :=
  ∀ pkt, i = .packet pkt → d.Accepts pkt → ¬ (d.applyPacket pkt).feedValid → d.CancelsLive pkt

/-- A packet that is accepted while the feed is invalid, and stays so, quotes all
symbols at its end, unless there is no live order. -/
def DeadFeedNoticed (d : DutSession S) (i : Input) : Prop :=
  ∀ pkt, i = .packet pkt → d.Accepts pkt → ¬ (d.applyPacket pkt).feedValid →
    d.QuotesAll pkt ∨ ∀ h, d.NoneLive h

/-- A dead packet acts only at its end. -/
theorem applyPacket_dead {d : DutSession S} {pkt : List UInt8} (hacc : d.Accepts pkt)
    (hdead : ¬ (d.applyPacket pkt).feedValid) :
    (d.afterMessages pkt).oms = d.oms ∧ ¬ (d.afterMessages pkt).feedValid ∧
      ∃ new, Finishes (d.afterMessages pkt) (d.applyPacket pkt) pkt new ∧ d.events pkt = new := by
  obtain ⟨new, hf⟩ := finish_finishes (d.afterMessages pkt) pkt
  rw [← applyPacket_of_accepts hacc] at hf
  have hdead' : ¬ (d.afterMessages pkt).feedValid := by rw [← hf.feedValid]; exact hdead
  obtain ⟨hbegin, homs, -⟩ := begin_spec d pkt
  obtain ⟨hlog, homs'⟩ := handleAll_dead (d.begin pkt) (Mold.sequenceOf pkt) (Mold.messages pkt) hdead'
  refine ⟨homs'.trans homs, hdead', new, hf, events_eq ?_⟩
  rw [hf.log, afterMessages, hlog, hbegin.log, List.append_nil]

theorem deadFeedPulls_step (d : DutSession S) (i : Input) (hd : d.Sound) :
    DeadFeedPulls d i ↔ DeadFeedNoticed d i := by
  refine forall_congr' fun pkt => imp_congr_right fun _ => forall_congr' fun hacc => forall_congr' fun hdead => ?_
  obtain ⟨homs, hdead', new, hf, hev⟩ := applyPacket_dead hacc hdead
  have hcount : (d.afterMessages pkt).books.hotCount = d.books.hotCount := by
    obtain ⟨_, ha, -⟩ := afterMessages_spec d pkt
    exact ha.hotCount
  rw [CancelsLive, hev]
  constructor
  · -- without the pass at the end there is no request at all
    intro hcancel
    by_cases hq : d.QuotesAll pkt
    · exact .inl hq
    · obtain ⟨hnil, -⟩ := hf.rests fun h => hq ((quotesAll_iff d pkt).mp h)
      refine .inr fun h side hl => ?_
      have := hcancel h side hl
      rw [hnil] at this
      cases this
  · rintro (hq | hn) h side hl
    · have hh : h < (d.afterMessages pkt).books.hotCount := by
        by_contra hge
        have := hd.idle h (by omega) side
        rw [this] at hl
        cases hl
      have hall : ¬ (d.afterMessages pkt).tradingAllowed h := by simp [tradingAllowed, hdead']
      have hp := hf.pulls ((quotesAll_iff d pkt).mpr hq) h hh hall side
      rw [homs] at hp
      exact (hp hl).2
    · exact absurd hl (hn h side)

/-- **A dead feed pulls the quotes exactly in the packets that quote all symbols**: at
every step of every run, whatever answers arrive in between. -/
theorem deadFeedPulls_iff (cfg : DutConfig) (strat : S) (link : ℕ → Bool) (ins : List Input) :
    EachStep DeadFeedPulls (new cfg strat link) ins ↔ EachStep DeadFeedNoticed (new cfg strat link) ins :=
  eachStep_congr deadFeedPulls_step (sound_new cfg strat link) ins

/-- The market opens and a bid is sent; a gap voids the feed; the bid is accepted, and
the next packet in order leaves it in the market. -/
theorem deadFeed_leaves_order :
    ¬ EachStep DeadFeedPulls (oneSymbol false [sampleBid])
      [packetOf 1 [systemEvent 81], packetOf 9 [], acceptance 1 5, packetOf 9 [tradingAction 84]] := by
  rintro ⟨-, -, -, h, -⟩
  exact absurd (h _ rfl (by decide) (by decide) 0 .buy (by decide)) (by decide)

/-! ### The end of trading -/

/-- Is the message a trading action for the hot symbol, other than to trade? -/
def Halts (d : DutSession S) (h : ℕ) (msg : List UInt8) : Prop :=
  d.books.hotIndexOf (Itch.decode msg).locate = some h ∧
    ∃ state, (Itch.decode msg).body = .stockTradingAction state ∧ state ≠ .trading

/-- Does the packet carry a halt of the hot symbol, or the end of market hours? -/
def CarriesStop (d : DutSession S) (pkt : List UInt8) (h : ℕ) : Prop :=
  (∃ pre msg post, Mold.messages pkt = pre ++ msg :: post ∧ (d.upTo pkt pre).Halts h msg) ∨
    ∃ msg ∈ Mold.messages pkt, (Itch.decode msg).body = .systemEvent .endOfMarketHours

/-- After the packet no order of the hot symbol is live. Each one that was has its
cancel produced and waits for the answer, or an earlier message of the packet has
replaced it. -/
def Withdrawn (d : DutSession S) (pkt : List UInt8) (h : ℕ) : Prop :=
  ∀ side, ((d.applyPacket pkt).oms.slots h side).state ≠ .live ∧
    ((d.oms.slots h side).state = .live →
      (((d.applyPacket pkt).oms.slots h side).state = .pendingCancel ∧
        encodeCancel (d.oms.slots h side).userRef ∈ requests h (d.events pkt)) ∨
      (((d.applyPacket pkt).oms.slots h side).state = .pendingReplace ∧
        ∃ ref price qty, encodeReplace (d.oms.slots h side).userRef ref price qty ∈ requests h (d.events pkt)))

/-- The packets that the claim is about: limited to market hours, with a valid feed, a
packet in order stops the trading of a hot symbol. -/
structure StopsTrading (d : DutSession S) (pkt : List UInt8) (h : ℕ) : Prop where
  limited : d.cfg.marketHoursOnly
  valid : d.feedValid
  long : Mold.kHeaderSize ≤ pkt.length
  inOrder : d.verdict pkt = .inOrder
  hot : h < d.books.hotCount
  carries : d.CarriesStop pkt h
  stopped : ¬ (d.applyPacket pkt).tradingAllowed h

theorem StopsTrading.accepts {d : DutSession S} {pkt : List UInt8} {h : ℕ} (hs : d.StopsTrading pkt h) :
    d.Accepts pkt :=
  ⟨hs.long, by rw [hs.inOrder]; decide⟩

/-- A packet that stops the trading of a hot symbol takes its orders out of the market. -/
def HaltPulls (d : DutSession S) (i : Input) : Prop :=
  ∀ pkt h, i = .packet pkt → d.StopsTrading pkt h → d.Withdrawn pkt h

/-- When a message for the hot symbol has been applied and trading is not allowed: is
the top of the book not the one seen last, or is there nothing to pull? -/
def Notices (d : DutSession S) (n : ℕ) (msg : List UInt8) (h : ℕ) : Prop :=
  let r := d.applyMessage n msg
  r.2 = some h ∧ ¬ r.1.tradingAllowed h ∧ ((r.1.books.hotBook h).topVersion ≠ r.1.topSeen h ∨ r.1.NoneLive h)

/-- A packet that stops the trading of a hot symbol is noticed: it quotes all symbols at
its end, or some message of it is noticed, or there was nothing to pull. -/
def HaltNoticed (d : DutSession S) (i : Input) : Prop :=
  ∀ pkt h, i = .packet pkt → d.StopsTrading pkt h →
    d.QuotesAll pkt ∨ d.NoneLive h ∨
      ∃ pre msg post, Mold.messages pkt = pre ++ msg :: post ∧
        (d.upTo pkt pre).Notices (Mold.sequenceOf pkt + pre.length) msg h

/-- An order that is not live after the packet was never live, or the packet sent its
cancel or its replace. -/
theorem withdrawn_iff (d : DutSession S) (pkt : List UInt8) (h : ℕ) :
    d.Withdrawn pkt h ↔ (d.applyPacket pkt).NoneLive h := by
  refine ⟨fun hw side => (hw side).1, fun hn side => ⟨hn side, fun hl => ?_⟩⟩
  obtain ⟨new, ha⟩ := applyPacket_acts d pkt
  rw [events_eq ha.log]
  obtain he | hmoved := (ha.moves h side).live hl
  · exact absurd (by rw [he]; exact hl) (hn side)
  · exact hmoved

/-- A noticed message leaves no live order. -/
theorem Notices.noneLive {d : DutSession S} {n : ℕ} {msg : List UInt8} {h : ℕ} (hn : d.Notices n msg h) :
    (d.handle n msg).NoneLive h := by
  obtain ⟨hr, hall, htop⟩ := hn
  rw [handle_of_some hr]
  obtain htop | hnone := htop
  · exact fun side => requote_pulls _ h htop hall side
  · obtain ⟨_, hq, -⟩ := requote_quotes (d.applyMessage n msg).1 h
    exact hq.noneLive hnone

omit [Strategy S] in
/-- A message that is not for the hot symbol, and no system event that matters, leaves
its permission to trade. -/
theorem tradingAllowed_applyMessage {d : DutSession S} {n : ℕ} {msg : List UInt8} {h : ℕ}
    (hne : (d.applyMessage n msg).2 ≠ some h) (hrouse : ¬ Rouses msg) :
    (d.applyMessage n msg).1.tradingAllowed h = d.tradingAllowed h := by
  have hr := applyMessage_receives d n msg
  revert hr hne
  generalize d.applyMessage n msg = r
  intro hne hr
  cases hr with
  | event code hlen hbody =>
      have hlen' : 11 ≤ msg.length := Nat.le_of_not_lt hlen
      cases code
      case startOfMessages => exact absurd ⟨hlen', .inl hbody⟩ hrouse
      case startOfMarketHours => exact absurd ⟨hlen', .inr (.inl hbody)⟩ hrouse
      case endOfMarketHours => exact absurd ⟨hlen', .inr (.inr hbody)⟩ hrouse
      all_goals rfl
  | skipped => rfl
  | applied =>
      unfold tradingAllowed
      simp only [note]
      rw [BookTable.trading_apply_of_ne _ hne]

/-- A message for another symbol leaves the orders of the hot symbol. -/
theorem slots_handle_of_ne {d : DutSession S} {n : ℕ} {msg : List UInt8} {h : ℕ}
    (hne : (d.applyMessage n msg).2 ≠ some h) (side : Side) :
    (d.handle n msg).oms.slots h side = d.oms.slots h side := by
  have homs := applyMessage_oms d n msg
  unfold handle
  revert hne homs
  rcases d.applyMessage n msg with ⟨d', _ | x⟩
  · intro _ homs
    exact congrArg (fun o : OrderManager => o.slots h side) homs
  · intro hne homs
    obtain ⟨new, hq, hnew⟩ := requote_quotes d' x
    have hx : h ≠ x := fun he => hne (by rw [he])
    exact (hq.slots_eq (requests_of_isFor hx hnew) side).trans
      (congrArg (fun o : OrderManager => o.slots h side) homs)

theorem tradingAllowed_handle (d : DutSession S) (n : ℕ) (msg : List UInt8) (h : ℕ) :
    (d.handle n msg).tradingAllowed h = (d.applyMessage n msg).1.tradingAllowed h := by
  unfold handle
  rcases d.applyMessage n msg with ⟨d', _ | x⟩
  · rfl
  · obtain ⟨new, hq, -⟩ := requote_quotes d' x
    exact hq.tradingAllowed h

/-- If the messages stop the trading and no order is live afterwards, though one was or
trading was allowed, then some message was noticed. The induction follows the messages:
one that is for the symbol but is not noticed, although trading is not allowed, leaves a
live order. -/
theorem exists_notices (h : ℕ) (msgs : List (List UInt8)) (d : DutSession S) (n : ℕ)
    (hrouse : ∀ msg ∈ msgs, ¬ Rouses msg) (hstop : ¬ (d.handleAll n msgs).tradingAllowed h)
    (hnone : (d.handleAll n msgs).NoneLive h) (hstart : d.tradingAllowed h ∨ ¬ d.NoneLive h) :
    ∃ pre msg post, msgs = pre ++ msg :: post ∧ (d.handleAll n pre).Notices (n + pre.length) msg h := by
  induction msgs generalizing d n with
  | nil => exact (hstart.elim hstop fun hl => hl hnone).elim
  | cons msg msgs ih =>
      have hrest := ih (d.handle n msg) (n + 1) (fun m hm => hrouse m (by simp [hm])) hstop hnone
      have hlift : ((d.handle n msg).tradingAllowed h ∨ ¬ (d.handle n msg).NoneLive h) →
          ∃ pre m post, msg :: msgs = pre ++ m :: post ∧
            (d.handleAll n pre).Notices (n + pre.length) m h := by
        intro hs
        obtain ⟨pre, m, post, heq, hn⟩ := hrest hs
        refine ⟨msg :: pre, m, post, by rw [heq]; rfl, ?_⟩
        rw [List.length_cons, ← Nat.add_assoc, Nat.add_right_comm]
        exact hn
      by_cases hr : (d.applyMessage n msg).2 = some h
      · by_cases hall : (d.applyMessage n msg).1.tradingAllowed h
        · exact hlift (.inl (by rw [tradingAllowed_handle]; exact hall))
        · by_cases hseen : ((d.applyMessage n msg).1.books.hotBook h).topVersion ≠
              (d.applyMessage n msg).1.topSeen h ∨ (d.applyMessage n msg).1.NoneLive h
          · exact ⟨[], msg, msgs, rfl, hr, hall, hseen⟩
          · -- the session has seen this top: the live order stays
            push Not at hseen
            refine hlift (.inr ?_)
            rw [handle_of_some hr, requote, if_pos hseen.1]
            exact hseen.2
      · refine hlift ?_
        rw [tradingAllowed_handle, tradingAllowed_applyMessage hr (hrouse msg (by simp))]
        refine hstart.imp_right fun hl hn => hl fun side => ?_
        rw [← slots_handle_of_ne hr]
        exact hn side

theorem haltPulls_step (d : DutSession S) (i : Input) (_ : d.Sound) : HaltPulls d i ↔ HaltNoticed d i := by
  refine forall_congr' fun pkt => forall_congr' fun h => imp_congr_right fun _ => forall_congr' fun hs => ?_
  rw [withdrawn_iff, applyPacket_of_accepts hs.accepts]
  obtain ⟨new, hf⟩ := finish_finishes (d.afterMessages pkt) pkt
  have hallowed : ((d.afterMessages pkt).finish pkt).tradingAllowed h = (d.afterMessages pkt).tradingAllowed h := by
    unfold tradingAllowed
    rw [hf.feedValid, hf.cfg, hf.marketOpen, hf.books]
  have hstop : ¬ (d.afterMessages pkt).tradingAllowed h := by
    rw [← hallowed, ← applyPacket_of_accepts hs.accepts]
    exact hs.stopped
  obtain ⟨_, ha, -⟩ := afterMessages_spec d pkt
  obtain ⟨hb, homs, -⟩ := begin_spec d pkt
  constructor
  · intro hnone
    by_cases hq : d.QuotesAll pkt
    · exact .inl hq
    · have hsame := (hf.rests fun h => hq ((quotesAll_iff d pkt).mp h)).2
      by_cases hl : d.NoneLive h
      · exact .inr (.inl hl)
      · refine .inr (.inr (exists_notices h (Mold.messages pkt) (d.begin pkt) _ ?_ hstop ?_ (.inr ?_)))
        · exact fun msg hm hr => hq (.inr (.inr ⟨msg, hm, hr⟩))
        · intro side
          have := hnone side
          rwa [hsame] at this
        · exact fun hn => hl fun side => by rw [← homs]; exact hn side
  · rintro (hq | hl | ⟨pre, msg, post, heq, hn⟩)
    · intro side
      by_cases hlive : ((d.afterMessages pkt).oms.slots h side).state = .live
      · have hp := hf.pulls ((quotesAll_iff d pkt).mpr hq) h (by rw [ha.hotCount]; exact hs.hot) hstop side hlive
        rw [hp.1]; decide
      · exact hf.not_live hlive
    · exact hf.noneLive (ha.noneLive hl)
    · -- after the noticed message no order becomes live again
      refine hf.noneLive ?_
      rw [afterMessages, heq, handleAll_append, handleAll]
      obtain ⟨_, hrest⟩ := handleAll_handles ((d.upTo pkt pre).handle (Mold.sequenceOf pkt + pre.length) msg)
        (Mold.sequenceOf pkt + pre.length + 1) post
      exact hrest.noneLive hn.noneLive

/-- **The end of trading pulls the quotes exactly in the packets that notice it**: at
every step of every run of a session. -/
theorem haltPulls_iff (cfg : DutConfig) (strat : S) (link : ℕ → Bool) (ins : List Input) :
    EachStep HaltPulls (new cfg strat link) ins ↔ EachStep HaltNoticed (new cfg strat link) ins :=
  eachStep_congr haltPulls_step (sound_new cfg strat link) ins

/-- The market opens, a bid is sent and accepted, and a first trading action takes the
mark of the answer away; then the halt finds nothing new and leaves the bid. -/
theorem halt_leaves_order :
    ¬ EachStep HaltPulls (oneSymbol true [sampleBid])
      [packetOf 1 [systemEvent 81], acceptance 1 5, packetOf 2 [tradingAction 84],
        packetOf 3 [tradingAction 72]] := by
  rintro ⟨-, -, -, h, -⟩
  have hstops : StopsTrading ((((oneSymbol true [sampleBid]).step (packetOf 1 [systemEvent 81])).step
      (acceptance 1 5)).step (packetOf 2 [tradingAction 84])) (Mold.pack [] 3 [tradingAction 72]) 0 :=
    ⟨by decide, by decide, by decide, by decide, by decide,
      .inl ⟨[], tradingAction 72, [], by decide, by decide, .halted, by decide, by decide⟩, by decide⟩
  exact absurd ((h _ 0 rfl hstops) .buy).1 (by decide)

end TickToTrade.Dut.DutSession
