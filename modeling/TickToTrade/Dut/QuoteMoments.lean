import TickToTrade.Dut.SessionRuns

/-!
# The moments at which a packet quotes

A packet sends requests only where it evaluates the quotes of a hot symbol, and it may
do so many times: after a message whose book has a new top, and for all symbols at its
end. `moments` lists these evaluations with the session as each of them found it, and
what the packet sent is what they sent, one after the other (`applyPacket_passes`). Two
properties of single requests follow:

* while trading in a symbol is not allowed, only cancels of live orders are sent
  (`only_cancels`);
* a request that the transport refuses has moved its slot all the same, and the slot
  keeps waiting for an answer (`refused_moves_slot`).
-/

namespace TickToTrade.Dut

/-- A request that was produced: the symbol, the request, and whether the transport took
it. -/
structure Send where
  sym : ℕ
  out : Outbound
  ok : Bool
deriving DecidableEq, Repr

/-- The request that an event produced. -/
def Event.outgoing? : Event → Option Send
  | .produced h out ok => some ⟨h, out, ok⟩
  | _ => none

/-- The requests that were produced. -/
def outgoing (log : List Event) : List Send := log.filterMap Event.outgoing?

theorem outgoing_append (l l' : List Event) : outgoing (l ++ l') = outgoing l ++ outgoing l' := List.filterMap_append

theorem mem_outgoing {l : List Event} {p : Send} : p ∈ outgoing l ↔ .produced p.sym p.out p.ok ∈ l := by
  simp only [outgoing, List.mem_filterMap]
  constructor
  · rintro ⟨e, he, hp⟩
    cases e <;> simp only [Event.outgoing?] at hp
    case produced => cases hp; exact he
    all_goals cases hp
  · exact fun he => ⟨_, he, rfl⟩

/-- Can a slot of this side send the request: a new order when it is free, a replace or a
cancel of its order when it is live? -/
def QuoteSlot.Makes (s : QuoteSlot) (side : Side) (out : Outbound) : Prop :=
  match out.msg with
  | .enterOrder m => s.state = .idle ∧ m.side = OrderManager.ouchSide side
  | .replaceOrder m => s.state = .live ∧ m.origUserRefNum = s.userRef
  | .cancelOrder m => s.state = .live ∧ m.userRefNum = s.userRef

theorem QuoteSlot.Makes.not_pending {s : QuoteSlot} {side : Side} {out : Outbound} (h : s.Makes side out) :
    ¬ s.state.Pending := by
  unfold Makes at h
  unfold QuoteState.Pending
  split at h <;> rw [h.1] <;> decide

namespace OrderManager

variable {o : OrderManager} {s s' : QuoteSlot} {sym : ℕ} {side : Side} {want : Bool} {price : ℤ} {qty : ℕ}
  {outs : List Outbound} {out : Outbound}

/-- A slot that is not waiting for an answer at the end has not moved. -/
theorem Moves.eq_of_not_pending (h : Moves s s' outs) (hs : ¬ s'.state.Pending) : s' = s := by
  cases hst : s.state with
  | idle => exact (h.idle hst).resolve_right fun hn => hs (.inl hn.1)
  | live =>
      obtain he | ⟨hc, -⟩ | ⟨hr, -⟩ := h.live hst
      · exact he
      · exact absurd (.inr (.inr hc)) hs
      · exact absurd (.inr (.inl hr)) hs
  | pendingNew => exact h.pending (by rw [hst]; exact .inl rfl)
  | pendingReplace => exact h.pending (by rw [hst]; exact .inr (.inl rfl))
  | pendingCancel => exact h.pending (by rw [hst]; exact .inr (.inr rfl))

/-- A request is one that the slot can make, and the slot waits for its answer. -/
theorem Requests.makes (h : Requests o s sym side want price qty s' outs) (hout : out ∈ outs) :
    s.Makes side out ∧ s'.state.Pending := by
  cases h with
  | rest => cases hout
  | enter hidle => rw [List.mem_singleton.mp hout]; exact ⟨⟨hidle, rfl⟩, .inl rfl⟩
  | cancel hlive => rw [List.mem_singleton.mp hout]; exact ⟨⟨hlive, rfl⟩, .inr (.inr rfl)⟩
  | replace hlive => rw [List.mem_singleton.mp hout]; exact ⟨⟨hlive, rfl⟩, .inr (.inl rfl)⟩

/-- A request without targets is the cancel of a live order. -/
theorem Requests.is_cancel (h : Requests o s sym side false price qty s' outs) (hout : out ∈ outs) :
    s.state = .live ∧ out = encodeCancel s.userRef := by
  cases h with
  | rest => cases hout
  | enter _ hwant => exact absurd hwant Bool.false_ne_true
  | cancel hlive => exact ⟨hlive, List.mem_singleton.mp hout⟩
  | replace _ hwant => exact absurd hwant Bool.false_ne_true

/-- Each request of `reconcile` comes from one side, whose slot was as before. -/
theorem mem_reconcile {t : QuoteTargets} (hout : out ∈ (o.reconcile sym t).2) :
    ∃ side, ∃ o' : OrderManager, o'.slots sym side = o.slots sym side ∧ out ∈ (o'.reconcileFor sym t side).2 ∧
      (o.reconcile sym t).1.slots sym side = (o'.reconcileFor sym t side).1.slots sym side := by
  rw [reconcile_eq] at hout ⊢
  simp only at hout ⊢
  have hne : ∀ {x y : Side}, x ≠ y → (sym, x) ≠ (sym, y) := fun hxy he => hxy (Prod.ext_iff.mp he).2
  obtain hout | hout := List.mem_append.mp hout
  · exact ⟨_, o, rfl, hout, reconcileFor_slots_of_ne (hne (Side.ne_opposite _)) _ t⟩
  · exact ⟨_, _, reconcileFor_slots_of_ne (hne (Side.opposite_ne _)) o t, hout, rfl⟩

theorem reconcile_makes {t : QuoteTargets} (hout : out ∈ (o.reconcile sym t).2) :
    ∃ side, (o.slots sym side).Makes side out ∧ ((o.reconcile sym t).1.slots sym side).state.Pending := by
  obtain ⟨side, o', hsame, hmem, hafter⟩ := mem_reconcile hout
  refine ⟨side, ?_⟩
  rw [hafter, ← hsame]
  cases side <;> exact (reconcileSide_requests ..).makes hmem

theorem reconcile_cancels (hout : out ∈ (o.reconcile sym {}).2) :
    ∃ side, (o.slots sym side).state = .live ∧ out = encodeCancel (o.slots sym side).userRef := by
  obtain ⟨side, o', hsame, hmem, -⟩ := mem_reconcile hout
  refine ⟨side, ?_⟩
  rw [← hsame]
  cases side <;> exact (reconcileSide_requests ..).is_cancel hmem

end OrderManager

namespace DutSession

open OrderManager (encodeCancel)

variable {S : Type} [Strategy S]

/-- An evaluation of the quotes of a hot symbol, with the session as it finds it. -/
structure Moment (S : Type) where
  session : DutSession S
  sym : ℕ

/-- What happened at a moment. -/
def Moment.events (m : Moment S) : List Event :=
  (m.session.quote m.sym).log.drop m.session.log.length

/-! ### The moments of a packet -/

/-- The evaluation that `requote` makes, if any. -/
def requoteMoments (d : DutSession S) (h : ℕ) : List (Moment S) :=
  if (d.books.hotBook h).topVersion = d.topSeen h then []
  else if d.topSeen h = kDirtyTop then [⟨d.forget h, h⟩]
  else [⟨d, h⟩]

/-- The evaluation after a message, if any. -/
def handleMoments (d : DutSession S) (n : ℕ) (msg : List UInt8) : List (Moment S) :=
  match d.applyMessage n msg with
  | (_, none) => []
  | (d, some h) => d.requoteMoments h

/-- The evaluations in the message loop. -/
def handleAllMoments (d : DutSession S) : ℕ → List (List UInt8) → List (Moment S)
  | _, [] => []
  | n, msg :: msgs => d.handleMoments n msg ++ (d.handle n msg).handleAllMoments (n + 1) msgs

/-- The evaluations of some symbols one after the other. -/
def quoteMoments (d : DutSession S) : List ℕ → List (Moment S)
  | [] => []
  | h :: hs => ⟨d, h⟩ :: (d.quote h).quoteMoments hs

/-- The evaluations at the end of a packet. -/
def finishMoments (d : DutSession S) : List (Moment S) :=
  if d.reconcileAll then
    { d with reconcileAll := false }.quoteMoments (List.range { d with reconcileAll := false }.books.hotCount)
  else []

/-- The evaluations of a packet. -/
def moments (d : DutSession S) (pkt : List UInt8) : List (Moment S) :=
  if d.Accepts pkt then
    (d.begin pkt).handleAllMoments (Mold.sequenceOf pkt) (Mold.messages pkt) ++ (d.afterMessages pkt).finishMoments
  else []

/-! ### What the moments account for -/

/-- A part of a packet with its moments: it sends what they send, and each of them lies
between the begin and the end of the part. -/
structure Passes (d d' : DutSession S) (ms : List (Moment S)) (new : List Event) : Prop
    extends Acts d d' new where
  sends : outgoing new = ms.flatMap fun m => outgoing m.events
  between : ∀ m ∈ ms, (∃ pre, Acts d m.session pre) ∧ ∃ post, Acts (m.session.quote m.sym) d' post

namespace Passes

variable {d d' d'' : DutSession S} {ms ms' : List (Moment S)} {new new' : List Event}

/-- A part without moments sends nothing. -/
theorem of_acts (h : Acts d d' new) (hno : outgoing new = []) : Passes d d' [] new :=
  ⟨h, hno, by simp⟩

theorem trans (h : Passes d d' ms new) (h' : Passes d' d'' ms' new') :
    Passes d d'' (ms ++ ms') (new ++ new') where
  toActs := h.toActs.trans h'.toActs
  sends := by rw [outgoing_append, h.sends, h'.sends, List.flatMap_append]
  between m hm := by
    obtain hm | hm := List.mem_append.mp hm
    · obtain ⟨hpre, post, hpost⟩ := h.between m hm
      exact ⟨hpre, _, hpost.trans h'.toActs⟩
    · obtain ⟨⟨pre, hpre⟩, hpost⟩ := h'.between m hm
      exact ⟨⟨_, h.toActs.trans hpre⟩, hpost⟩

/-- One evaluation. -/
theorem quote (d : DutSession S) (h : ℕ) : Passes d (d.quote h) [⟨d, h⟩] (Moment.events ⟨d, h⟩) := by
  obtain ⟨pre, ps, hq⟩ := quote_quoted d h
  have hev : Moment.events ⟨d, h⟩ = pre ++ .evaluated h :: ps := by
    rw [Moment.events, hq.log, List.drop_left]
  rw [hev]
  refine ⟨hq.toActs, by simp [hev], fun m hm => ?_⟩
  rw [List.mem_singleton.mp hm]
  exact ⟨⟨_, Acts.refl d⟩, _, Acts.refl _⟩

theorem quoteEach (hs : List ℕ) (d : DutSession S) : ∃ new, Passes d (hs.foldl DutSession.quote d) (d.quoteMoments hs) new := by
  induction hs generalizing d with
  | nil => exact ⟨[], of_acts (Acts.refl d) rfl⟩
  | cons h hs ih =>
      obtain ⟨new, hrest⟩ := ih (d.quote h)
      exact ⟨_, (Passes.quote d h).trans hrest⟩

theorem requote (d : DutSession S) (h : ℕ) : ∃ new, Passes d (d.requote h) (d.requoteMoments h) new := by
  unfold DutSession.requote requoteMoments
  split_ifs
  · exact ⟨[], of_acts (Acts.refl d) rfl⟩
  · exact ⟨_, (of_acts (forget_quotes d h).toActs rfl).trans (Passes.quote (d.forget h) h)⟩
  · exact ⟨_, Passes.quote d h⟩

/-- What is not a request is not sent. -/
theorem outgoing_of_applied {n : ℕ} {msg : List UInt8} {hot : Option ℕ} {new : List Event}
    (h : new = [] ∨ new = [.applied n msg hot]) : outgoing new = [] := by
  obtain rfl | rfl := h <;> rfl

theorem handle (d : DutSession S) (n : ℕ) (msg : List UInt8) :
    ∃ new, Passes d (d.handle n msg) (d.handleMoments n msg) new := by
  obtain ⟨new, hm, hnew⟩ := applyMessage_handles d n msg
  have hpass : Passes d (d.applyMessage n msg).1 [] new := of_acts hm.toActs (outgoing_of_applied (hnew.imp_right And.right))
  unfold DutSession.handle handleMoments
  revert hpass
  rcases d.applyMessage n msg with ⟨d', _ | h⟩
  · exact fun hpass => ⟨new, hpass⟩
  · intro hpass
    obtain ⟨qs, hq⟩ := requote d' h
    exact ⟨_, hpass.trans hq⟩

theorem handleAll (d : DutSession S) (n : ℕ) (msgs : List (List UInt8)) :
    ∃ new, Passes d (d.handleAll n msgs) (d.handleAllMoments n msgs) new := by
  induction msgs generalizing d n with
  | nil => exact ⟨[], of_acts (Acts.refl d) rfl⟩
  | cons msg msgs ih =>
      obtain ⟨new, h⟩ := handle d n msg
      obtain ⟨new', h'⟩ := ih (d.handle n msg) (n + 1)
      exact ⟨_, h.trans h'⟩

theorem finish (d : DutSession S) (pkt : List UInt8) : ∃ new, Passes d (d.finish pkt) d.finishMoments new := by
  have hcold : ∀ e : DutSession S, Passes e { e with cold := e.cold.map fun c => c.push pkt } [] [] := fun e =>
    of_acts ⟨(List.append_nil _).symm, rfl, rfl, fun _ _ => OrderManager.Moves.refl _ _⟩ rfl
  unfold DutSession.finish finishMoments
  split_ifs
  · have hflag : Passes d { d with reconcileAll := false } [] [] :=
      of_acts ⟨(List.append_nil _).symm, rfl, rfl, fun _ _ => OrderManager.Moves.refl _ _⟩ rfl
    obtain ⟨new, h⟩ := quoteEach (List.range { d with reconcileAll := false }.books.hotCount)
      { d with reconcileAll := false }
    have := (hflag.trans h).trans (hcold _)
    rw [List.append_nil, List.nil_append] at this
    exact ⟨_, this⟩
  · exact ⟨[], hcold d⟩

end Passes

/-- **What a packet sends is sent at its moments**, one after the other, and each of them
lies within the packet. -/
theorem applyPacket_passes (d : DutSession S) (pkt : List UInt8) :
    Passes d (d.applyPacket pkt) (d.moments pkt) (d.events pkt) := by
  have hsome : ∃ new, Passes d (d.applyPacket pkt) (d.moments pkt) new := by
    unfold moments
    by_cases h : d.Accepts pkt
    · rw [applyPacket_of_accepts h, if_pos h]
      obtain ⟨new, hloop⟩ := Passes.handleAll (d.begin pkt) (Mold.sequenceOf pkt) (Mold.messages pkt)
      obtain ⟨new', hend⟩ := Passes.finish (d.afterMessages pkt) pkt
      have := ((Passes.of_acts (begin_spec d pkt).1 rfl).trans hloop).trans hend
      exact ⟨_, this⟩
    · rw [if_neg h]
      obtain ⟨new, ha⟩ := applyPacket_acts d pkt
      have hnil : new = [] := by
        have hlog := ha.log
        obtain he | ⟨-, he⟩ := applyPacket_of_not_accepts h
        · simpa [he] using hlog
        · simpa [he] using hlog
      exact ⟨new, Passes.of_acts ha (by rw [hnil]; rfl)⟩
  obtain ⟨new, h⟩ := hsome
  rw [events_eq h.log]
  exact h

/-! ### What a moment sends -/

omit [Strategy S] in
/-- Acting on targets sends the requests of the order manager. -/
theorem act_reconciles (d : DutSession S) (h : ℕ) (t : QuoteTargets) :
    ∃ ps, (d.act h t).log = d.log ++ ps ∧ (d.act h t).oms = (d.oms.reconcile h t).1 ∧
      ∀ p ∈ outgoing ps, p.sym = h ∧ p.out ∈ (d.oms.reconcile h t).2 := by
  obtain ⟨sends, sent, ps, heq, hreq, hps⟩ := act_eq d h t
  refine ⟨ps, by rw [heq], by rw [heq], fun p hp => ?_⟩
  have hmem := mem_outgoing.mp hp
  obtain ⟨o, ok, he⟩ := hps _ hmem
  cases he
  exact ⟨rfl, by rw [← hreq]; exact mem_requests.mpr ⟨_, hmem⟩⟩

/-- What a moment sends, from what it writes to the log. -/
theorem Moment.outgoing_events {m : Moment S} (pre ps : List Event)
    (hlog : (m.session.quote m.sym).log = m.session.log ++ pre ++ ps) (hpre : outgoing pre = []) :
    outgoing m.events = outgoing ps := by
  rw [Moment.events, hlog, List.append_assoc, List.drop_left, outgoing_append, hpre, List.nil_append]

/-- A moment sends nothing, or the requests for some targets; without permission to trade
these are empty. -/
theorem quote_reconciles (d : DutSession S) (h : ℕ) :
    outgoing (Moment.events ⟨d, h⟩) = [] ∨
      ∃ t : QuoteTargets, (¬ d.tradingAllowed h → t = {}) ∧ (d.quote h).oms = (d.oms.reconcile h t).1 ∧
        ∀ p ∈ outgoing (Moment.events ⟨d, h⟩), p.sym = h ∧ p.out ∈ (d.oms.reconcile h t).2 := by
  by_cases hall : d.tradingAllowed h
  · have hask : d.quote h = (d.note (.evaluated h)).ask h := if_pos hall
    unfold ask at hask
    simp only at hask
    revert hask
    cases hb : Strategy.onBook ((d.note (.evaluated h)).strats h) ((d.note (.evaluated h)).books.hotBook h)
        ((d.note (.evaluated h)).oms.acct h) with
    | mk targets strat =>
        cases targets with
        | none =>
            refine fun hask => .inl ?_
            exact Moment.outgoing_events [.evaluated h] [] (by rw [hask]; exact (List.append_nil _).symm) rfl
        | some t =>
            intro hask
            obtain ⟨ps, hlog, homs, hps⟩ := act_reconciles
              { d.note (.evaluated h) with strats := Function.update (d.note (.evaluated h)).strats h strat } h t
            have hout : outgoing (Moment.events ⟨d, h⟩) = outgoing ps :=
              Moment.outgoing_events [.evaluated h] ps (by rw [hask]; exact hlog) rfl
            exact .inr ⟨t, fun hn => absurd hall hn, by rw [hask]; exact homs, by rw [hout]; exact hps⟩
  · have hact : d.quote h = ((d.forget h).note (.evaluated h)).act h {} := if_neg hall
    obtain ⟨ps, hlog, homs, hps⟩ := act_reconciles ((d.forget h).note (.evaluated h)) h {}
    have hout : outgoing (Moment.events ⟨d, h⟩) = outgoing ps :=
      Moment.outgoing_events [.forgot h, .evaluated h] ps
        (by rw [hact]; simpa [note, forget] using hlog) rfl
    exact .inr ⟨{}, fun _ => rfl, by rw [hact]; exact homs, by rw [hout]; exact hps⟩

/-! ### Only cancels -/

/-- Every request sent at the moment is for its symbol, and while trading in that is not
allowed, it is the cancel of an order that is live. -/
def Moment.CancelsOnly (m : Moment S) : Prop :=
  ∀ p ∈ outgoing m.events, p.sym = m.sym ∧
    (¬ m.session.tradingAllowed m.sym → ∃ side, (m.session.oms.slots m.sym side).state = .live ∧
      p.out = encodeCancel (m.session.oms.slots m.sym side).userRef)

theorem Moment.cancelsOnly (m : Moment S) : m.CancelsOnly := by
  intro p hp
  obtain hnil | ⟨t, ht, -, hps⟩ := quote_reconciles m.session m.sym
  · rw [show outgoing m.events = [] from hnil] at hp
    cases hp
  · obtain ⟨hsym, hout⟩ := hps p hp
    refine ⟨hsym, fun hall => ?_⟩
    rw [ht hall] at hout
    exact OrderManager.reconcile_cancels hout

/-- **Only cancels while trading is not allowed**: in every run, the requests of a packet
are those of its moments, in their order, and at a moment at which trading in the symbol
is not allowed these are cancels of its live orders. -/
theorem only_cancels (cfg : DutConfig) (strat : S) (link : ℕ → Bool) (ins : List Input) (pkt : List UInt8) :
    let d := (new cfg strat link).run ins
    outgoing (d.events pkt) = ((d.moments pkt).flatMap fun m => outgoing m.events) ∧
      ∀ m ∈ d.moments pkt, m.CancelsOnly :=
  ⟨(applyPacket_passes _ pkt).sends, fun m _ => m.cancelsOnly⟩

/-! ### Refused requests -/

/-- Does the packet leave the slot that sent the request as it found it? -/
def Restores (d : DutSession S) (pkt : List UInt8) (p : Send) : Prop :=
  ∀ side, (d.oms.slots p.sym side).Makes side p.out →
    (d.applyPacket pkt).oms.slots p.sym side = d.oms.slots p.sym side

/-- The slot of a request was free or live before the packet, and waits for an answer
after it. -/
theorem exists_slot_of_send {d : DutSession S} {pkt : List UInt8} {p : Send} (hp : p ∈ outgoing (d.events pkt)) :
    ∃ side, (d.oms.slots p.sym side).Makes side p.out ∧
      ((d.applyPacket pkt).oms.slots p.sym side).state.Pending := by
  have hpass := applyPacket_passes d pkt
  rw [hpass.sends] at hp
  obtain ⟨m, hm, hpm⟩ := List.mem_flatMap.mp hp
  obtain ⟨⟨pre, hpre⟩, post, hpost⟩ := hpass.between m hm
  obtain hnil | ⟨t, -, homs, hps⟩ := quote_reconciles m.session m.sym
  · rw [show outgoing m.events = [] from hnil] at hpm
    cases hpm
  · obtain ⟨hsym, hout⟩ := hps p hpm
    obtain ⟨side, hmakes, hpending⟩ := OrderManager.reconcile_makes hout
    obtain ⟨sym, out, ok⟩ := p
    simp only at hsym
    subst hsym
    rw [← homs] at hpending
    -- the slot had not moved before the moment, and does not move after it
    have hsame : m.session.oms.slots m.sym side = d.oms.slots m.sym side :=
      (hpre.moves m.sym side).eq_of_not_pending fun hw => hmakes.not_pending hw
    rw [hsame] at hmakes
    rw [← hpost.pending_eq hpending] at hpending
    exact ⟨side, hmakes, hpending⟩

/-- A slot that waits for the answer to its request is not as it was. -/
theorem not_restores {d : DutSession S} {pkt : List UInt8} {p : Send} (side : Side)
    (hmakes : (d.oms.slots p.sym side).Makes side p.out)
    (hpending : ((d.applyPacket pkt).oms.slots p.sym side).state.Pending) : ¬ d.Restores pkt p := fun hsame =>
  hmakes.not_pending (by rw [← hsame side hmakes]; exact hpending)

/-- **A refused request has moved its slot**: in every run, for every request of a packet
that the transport does not take, the slot is not as it was before the packet, and waits
for the answer to a request that was never sent. -/
theorem refused_moves_slot (cfg : DutConfig) (strat : S) (link : ℕ → Bool) (ins : List Input) (pkt : List UInt8)
    (h : ℕ) (out : Outbound) (hp : ⟨h, out, false⟩ ∈ outgoing (((new cfg strat link).run ins).events pkt)) :
    ¬ ((new cfg strat link).run ins).Restores pkt ⟨h, out, false⟩ ∧
      ∃ side, ((((new cfg strat link).run ins).applyPacket pkt).oms.slots h side).state.Pending := by
  obtain ⟨side, hmakes, hpending⟩ := exists_slot_of_send hp
  exact ⟨not_restores side hmakes hpending, side, hpending⟩

/-- A session with one hot symbol whose transport takes nothing. -/
def unheard : DutSession Script := new (oneSymbol false []).cfg ⟨[sampleBid]⟩ fun _ => false

/-- The request for the first bid. -/
def firstBid : Outbound := unheard.oms.encodeEnter 0 1 .buy 100 5

/-- The first bid of a session whose transport takes nothing. -/
theorem refused_moves_slot_unheard :
    ¬ (unheard.run []).Restores (Mold.pack [] 1 [sampleAdd]) ⟨0, firstBid, false⟩ ∧
      ∃ side, (((unheard.run []).applyPacket (Mold.pack [] 1 [sampleAdd])).oms.slots 0 side).state.Pending :=
  refused_moves_slot _ _ _ [] (Mold.pack [] 1 [sampleAdd]) 0 firstBid (by decide +kernel)

/-- The bid is refused, its slot was free, and now waits for an answer. -/
theorem refused_bid_pending :
    let pkt := Mold.pack [] 1 [sampleAdd]
    outgoing (unheard.events pkt) = [⟨0, firstBid, false⟩] ∧ (unheard.oms.slots 0 .buy).state = .idle ∧
      ((unheard.applyPacket pkt).oms.slots 0 .buy).state = .pendingNew ∧ (unheard.applyPacket pkt).ordersSent = 0 ∧
      ¬ unheard.Restores pkt ⟨0, firstBid, false⟩ := by
  intro pkt
  refine ⟨by decide +kernel, rfl, by decide +kernel, by decide +kernel, not_restores .buy ?_ ?_⟩
  · exact ⟨rfl, rfl⟩
  · decide +kernel

end DutSession

end TickToTrade.Dut
