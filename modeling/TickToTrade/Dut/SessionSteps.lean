import TickToTrade.Dut.DutSession
import TickToTrade.Dut.OrderSlots

/-!
# What a session does with a packet

The lemmas here say once what each part of `applyPacket` does: what a quote leaves
alone and what it writes to the log (`Quoted`), what a message does before its quote,
and what holds of all the parts together (`Acts`): slots move only by requests that
are in the log.
-/

namespace TickToTrade.Dut

namespace Event

/-- The request that an event produced for a hot symbol. -/
def request (h : ℕ) : Event → Option Outbound
  | .produced h' out _ => if h' = h then some out else none
  | _ => none

/-- Is it a message that got to the books? -/
def IsApplied : Event → Prop
  | .applied _ _ _ => True
  | _ => False

/-- Is it something done for the hot symbol, other than applying a message? -/
def IsFor (h : ℕ) : Event → Prop
  | .applied _ _ _ => False
  | .forgot h' | .evaluated h' | .produced h' _ _ => h' = h

end Event

/-- The requests produced for a hot symbol. -/
def requests (h : ℕ) (log : List Event) : List Outbound := log.filterMap (Event.request h)

theorem requests_append (h : ℕ) (l l' : List Event) : requests h (l ++ l') = requests h l ++ requests h l' :=
  List.filterMap_append

theorem mem_requests {h : ℕ} {log : List Event} {out : Outbound} :
    out ∈ requests h log ↔ ∃ ok, Event.produced h out ok ∈ log := by
  simp only [requests, List.mem_filterMap]
  constructor
  · rintro ⟨e, he, hr⟩
    cases e <;> simp only [Event.request] at hr
    case produced h' out' ok =>
      split_ifs at hr with hh
      cases hr
      exact ⟨ok, hh ▸ he⟩
    all_goals cases hr
  · rintro ⟨ok, he⟩
    exact ⟨_, he, by simp [Event.request]⟩

namespace DutSession

open OrderManager (Moves encodeCancel)

variable {S : Type}

/-! ### Everything that happens within a packet -/

/-- What the parts of a packet have in common: they append to the log, and the slots
move by the requests there. -/
structure Acts (d d' : DutSession S) (new : List Event) : Prop where
  log : d'.log = d.log ++ new
  cfg : d'.cfg = d.cfg
  hotCount : d'.books.hotCount = d.books.hotCount
  moves : ∀ h side, Moves (d.oms.slots h side) (d'.oms.slots h side) (requests h new)

namespace Acts

variable {d d' d'' : DutSession S} {new new' : List Event}

theorem refl (d : DutSession S) : Acts d d [] :=
  ⟨(List.append_nil _).symm, rfl, rfl, fun _ _ => Moves.refl _ _⟩

theorem trans (h : Acts d d' new) (h' : Acts d' d'' new') : Acts d d'' (new ++ new') where
  log := by rw [h'.log, h.log, List.append_assoc]
  cfg := h'.cfg.trans h.cfg
  hotCount := h'.hotCount.trans h.hotCount
  moves x side := by
    rw [requests_append]
    exact ((h.moves x side).mono (List.subset_append_left _ _)).trans
      ((h'.moves x side).mono (List.subset_append_right _ _))

/-- No order has become live. -/
theorem not_live (h : Acts d d' new) {x : ℕ} {side : Side} (hs : (d.oms.slots x side).state ≠ .live) :
    (d'.oms.slots x side).state ≠ .live :=
  (h.moves x side).not_live hs

end Acts

/-- What quoting has in common: beside the log, only the orders, the strategies and
the tops last seen have changed. -/
structure Quotes (d d' : DutSession S) (new : List Event) : Prop extends Acts d d' new where
  quiet : ∀ e ∈ new, ¬ e.IsApplied
  books : d'.books = d.books
  cold : d'.cold = d.cold
  seq : d'.seq = d.seq
  feedValid : d'.feedValid = d.feedValid
  marketOpen : d'.marketOpen = d.marketOpen
  reconcileAll : d'.reconcileAll = d.reconcileAll

namespace Quotes

variable {d d' d'' : DutSession S} {new new' : List Event}

theorem refl (d : DutSession S) : Quotes d d [] :=
  ⟨Acts.refl d, by simp, rfl, rfl, rfl, rfl, rfl, rfl⟩

theorem trans (h : Quotes d d' new) (h' : Quotes d' d'' new') : Quotes d d'' (new ++ new') where
  toActs := h.toActs.trans h'.toActs
  quiet e he := (List.mem_append.mp he).elim (h.quiet e) (h'.quiet e)
  books := h'.books.trans h.books
  cold := h'.cold.trans h.cold
  seq := h'.seq.trans h.seq
  feedValid := h'.feedValid.trans h.feedValid
  marketOpen := h'.marketOpen.trans h.marketOpen
  reconcileAll := h'.reconcileAll.trans h.reconcileAll

theorem tradingAllowed (h : Quotes d d' new) (x : ℕ) : d'.tradingAllowed x = d.tradingAllowed x := by
  unfold DutSession.tradingAllowed
  rw [h.feedValid, h.cfg, h.marketOpen, h.books]

end Quotes

/-! ### Quoting -/

/-- Sending changes only the log and the counters of the sends. -/
theorem foldl_sendOrder (h : ℕ) (out : List Outbound) (d : DutSession S) :
    ∃ sends sent ps, out.foldl (fun d out => d.sendOrder h out) d =
        { d with sends := sends, ordersSent := sent, log := d.log ++ ps } ∧
      requests h ps = out ∧ ∀ e ∈ ps, ∃ o ok, e = .produced h o ok := by
  induction out generalizing d with
  | nil => exact ⟨d.sends, d.ordersSent, [], by simp, rfl, by simp⟩
  | cons o out ih =>
      obtain ⟨sends, sent, ps, heq, hreq, hps⟩ := ih (d.sendOrder h o)
      refine ⟨sends, sent, .produced h o (d.link d.sends) :: ps, ?_, ?_, ?_⟩
      · rw [List.foldl_cons, heq]
        simp [sendOrder]
      · rw [← hreq]
        simp [requests, Event.request]
      · intro e he
        obtain rfl | he := List.mem_cons.mp he
        · exact ⟨_, _, rfl⟩
        · exact hps e he

/-- Acting on targets changes only the orders, the top last seen and the log. -/
theorem act_eq (d : DutSession S) (h : ℕ) (t : QuoteTargets) :
    ∃ sends sent ps, d.act h t =
        { d with
          oms := (d.oms.reconcile h t).1
          topSeen := Function.update d.topSeen h (d.books.hotBook h).topVersion
          sends := sends
          ordersSent := sent
          log := d.log ++ ps } ∧
      requests h ps = (d.oms.reconcile h t).2 ∧ ∀ e ∈ ps, ∃ o ok, e = .produced h o ok :=
  foldl_sendOrder h (d.oms.reconcile h t).2 _

/-- What one quote of the hot symbol `h` does. The log gets `pre`, the evaluation and
the requests `ps`; without permission to trade the strategy has forgotten before and
every live order is cancelled. -/
structure Quoted (d d' : DutSession S) (h : ℕ) (pre ps : List Event) : Prop
    extends Quotes d d' (pre ++ .evaluated h :: ps) where
  pre_eq : pre = if d.tradingAllowed h then [] else [.forgot h]
  only : ∀ e ∈ ps, ∃ o ok, e = .produced h o ok
  topSeen : d'.topSeen = Function.update d.topSeen h (d.books.hotBook h).topVersion
  pulls : ¬ d.tradingAllowed h → ∀ side, (d.oms.slots h side).state = .live →
    (d'.oms.slots h side).state = .pendingCancel ∧
      encodeCancel (d.oms.slots h side).userRef ∈ requests h ps

theorem Quoted.isFor {d d' : DutSession S} {h : ℕ} {pre ps : List Event} (hq : Quoted d d' h pre ps) :
    ∀ e ∈ pre ++ .evaluated h :: ps, e.IsFor h := by
  intro e he
  simp only [List.mem_append, List.mem_cons] at he
  obtain he | rfl | he := he
  · rw [hq.pre_eq] at he
    split_ifs at he with hall
    · simp at he
    · rw [List.mem_singleton.mp he]; rfl
  · rfl
  · obtain ⟨o, ok, rfl⟩ := hq.only e he
    rfl

/-- Requests for one symbol are not for another one. -/
theorem requests_of_isFor {h x : ℕ} (hx : x ≠ h) {new : List Event} (hnew : ∀ e ∈ new, e.IsFor h) :
    requests x new = [] := by
  refine List.filterMap_eq_nil_iff.mpr fun e he => ?_
  have := hnew e he
  cases e <;> simp_all [Event.IsFor, Event.request, Ne.symm]

/-- Without requests for its symbol a slot stays as it is. -/
theorem Acts.slots_eq {d d' : DutSession S} {new : List Event} (ha : Acts d d' new) {h : ℕ}
    (hreq : requests h new = []) (side : Side) : d'.oms.slots h side = d.oms.slots h side := by
  have hm := ha.moves h side
  rw [hreq] at hm
  exact hm.eq_of_nil

/-- An order that waits for an answer keeps waiting. -/
theorem Acts.pending_eq {d d' : DutSession S} {new : List Event} (ha : Acts d d' new) {h : ℕ} {side : Side}
    (hp : (d.oms.slots h side).state.Pending) : d'.oms.slots h side = d.oms.slots h side :=
  (ha.moves h side).pending hp

/-- What the orders of a symbol are after both sides were pulled: those that were live
have sent their cancels. -/
def Pulled (d d' : DutSession S) (new : List Event) (h : ℕ) : Prop :=
  ∀ side, (d.oms.slots h side).state = .live →
    (d'.oms.slots h side).state = .pendingCancel ∧ encodeCancel (d.oms.slots h side).userRef ∈ requests h new

theorem moves_reconcile (o : OrderManager) (h x : ℕ) (t : QuoteTargets) (side : Side) {out : List Outbound}
    (hout : x = h → (o.reconcile h t).2 ⊆ out) :
    Moves (o.slots x side) ((o.reconcile h t).1.slots x side) out := by
  by_cases hx : x = h
  · subst hx
    exact (OrderManager.reconcile_moves o x t side).mono (hout rfl)
  · rw [OrderManager.reconcile_slots_of_ne hx]
    exact Moves.refl _ _

/-! ### Messages -/

/-- What a message does before its quote: a system event is for the session, a message
may be skipped, and any other one gets to the books. -/
inductive Receives (d : DutSession S) (n : ℕ) (msg : List UInt8) : DutSession S × Option ℕ → Prop where
  | event (code : Itch.SystemEventCode) (hlen : ¬ msg.length < 11)
      (hbody : (Itch.decode msg).body = .systemEvent code) : Receives d n msg (d.onSystemEvent code, none)
  | skipped (hbody : msg.length < 11 ∨ ∀ code, (Itch.decode msg).body ≠ .systemEvent code)
      (hout : msg.length < 11 ∨ (Itch.decode msg).body = .systemEventShort ∨ ¬ d.Admits msg) :
      Receives d n msg (d, none)
  | applied (hlen : ¬ msg.length < 11) (hbody : ∀ code, (Itch.decode msg).body ≠ .systemEvent code)
      (hadmits : d.Admits msg) :
      Receives d n msg
        ({ d with books := (d.books.apply (Itch.decode msg)).1 }.note
          (.applied n msg (d.books.apply (Itch.decode msg)).2), (d.books.apply (Itch.decode msg)).2)

theorem applyMessage_receives (d : DutSession S) (n : ℕ) (msg : List UInt8) :
    Receives d n msg (d.applyMessage n msg) := by
  unfold applyMessage
  by_cases hlen : msg.length < 11
  · rw [if_pos hlen]
    exact .skipped (.inl hlen) (.inl hlen)
  · rw [if_neg hlen]
    have hbooks : (∀ code, (Itch.decode msg).body ≠ .systemEvent code) →
        Receives d n msg (d.toBooks n msg) := by
      intro hbody
      unfold toBooks
      split_ifs with ha
      · exact .applied hlen hbody ha
      · exact .skipped (.inr hbody) (.inr (.inr ha))
    cases hb : (Itch.decode msg).body
    case systemEvent code => exact .event code hlen hb
    case systemEventShort => exact .skipped (.inr (by simp [hb])) (.inr (.inl hb))
    all_goals exact hbooks (by simp [hb])

/-- Does a message make the session quote all symbols? -/
def Rouses (msg : List UInt8) : Prop :=
  11 ≤ msg.length ∧ ((Itch.decode msg).body = .systemEvent .startOfMessages ∨
    (Itch.decode msg).body = .systemEvent .startOfMarketHours ∨
    (Itch.decode msg).body = .systemEvent .endOfMarketHours)

instance (msg : List UInt8) : Decidable (Rouses msg) := by unfold Rouses; infer_instance

/-- Does a message restart the feed? -/
def Restarts (msg : List UInt8) : Prop :=
  11 ≤ msg.length ∧ (Itch.decode msg).body = .systemEvent .startOfMessages

instance (msg : List UInt8) : Decidable (Restarts msg) := by unfold Restarts; infer_instance

/-- A message, before its quote, moves no order. -/
theorem applyMessage_oms (d : DutSession S) (n : ℕ) (msg : List UInt8) :
    (d.applyMessage n msg).1.oms = d.oms := by
  have h := applyMessage_receives d n msg
  revert h
  generalize d.applyMessage n msg = r
  rintro (⟨code, -, -⟩ | ⟨-, -⟩ | ⟨-, -, -⟩)
  · cases code <;> rfl
  · rfl
  · rfl

/-! ### Evaluations -/

variable [Strategy S]

/-- A quote is described by `Quoted`. -/
theorem quote_quoted (d : DutSession S) (h : ℕ) : ∃ pre ps, Quoted d (d.quote h) h pre ps := by
  have hquiet : ∀ {pre ps : List Event}, (∀ e ∈ pre, e = .forgot h) →
      (∀ e ∈ ps, ∃ o ok, e = Event.produced h o ok) → ∀ e ∈ pre ++ .evaluated h :: ps, ¬ e.IsApplied := by
    intro pre ps hpre hps e he
    simp only [List.mem_append, List.mem_cons] at he
    obtain he | rfl | he := he
    · rw [hpre e he]; exact id
    · exact id
    · obtain ⟨o, ok, rfl⟩ := hps e he; exact id
  by_cases hall : d.tradingAllowed h
  · -- the strategy is asked
    rw [quote, if_pos hall, ask]
    cases hb : Strategy.onBook ((d.note (.evaluated h)).strats h) ((d.note (.evaluated h)).books.hotBook h)
        ((d.note (.evaluated h)).oms.acct h) with
    | mk targets strat =>
        cases targets with
        | none =>
            refine ⟨[], [], ⟨⟨⟨rfl, rfl, rfl, fun _ _ => Moves.refl _ _⟩, hquiet (by simp) (by simp),
              rfl, rfl, rfl, rfl, rfl, rfl⟩, by rw [if_pos hall], by simp, rfl, fun hn => absurd hall hn⟩⟩
        | some targets =>
            obtain ⟨sends, sent, ps, heq, hreq, hps⟩ := act_eq
              { d.note (.evaluated h) with strats := Function.update (d.note (.evaluated h)).strats h strat }
              h targets
            refine ⟨[], ps, ⟨⟨⟨?_, ?_, ?_, fun x side => ?_⟩, hquiet (by simp) hps, ?_, ?_, ?_, ?_, ?_, ?_⟩,
              by rw [if_pos hall], hps, ?_, fun hn => absurd hall hn⟩⟩ <;> simp only [heq]
            · simp [note]
            · rfl
            · rfl
            · refine moves_reconcile d.oms h x targets side ?_
              rintro rfl
              rw [List.nil_append, show Event.evaluated x :: ps = [.evaluated x] ++ ps from rfl,
                requests_append, hreq]
              exact List.subset_append_right _ _
            all_goals rfl
  · -- both sides are pulled
    rw [quote, if_neg hall]
    obtain ⟨sends, sent, ps, heq, hreq, hps⟩ := act_eq ((d.forget h).note (.evaluated h)) h {}
    refine ⟨[.forgot h], ps, ⟨⟨⟨?_, ?_, ?_, fun x side => ?_⟩, hquiet (by simp) hps, ?_, ?_, ?_, ?_, ?_, ?_⟩,
      by rw [if_neg hall], hps, ?_, fun _ side hl => ?_⟩⟩ <;> simp only [heq]
    · simp [note, forget]
    · rfl
    · rfl
    · refine moves_reconcile d.oms h x {} side ?_
      rintro rfl
      rw [show [Event.forgot x] ++ Event.evaluated x :: ps = [.forgot x, .evaluated x] ++ ps from rfl,
        requests_append, hreq]
      exact List.subset_append_right _ _
    iterate 7 rfl
    have hp := OrderManager.reconcile_pulls d.oms h side hl
    rw [hreq]
    exact ⟨congrArg QuoteSlot.state hp.1, hp.2⟩

/-- Making a strategy forget is quiet. -/
theorem forget_quotes (d : DutSession S) (h : ℕ) : Quotes d (d.forget h) [.forgot h] :=
  ⟨⟨rfl, rfl, rfl, fun _ _ => Moves.refl _ _⟩, by simp [Event.IsApplied], rfl, rfl, rfl, rfl, rfl, rfl⟩

/-- A quote of all of some symbols: those that may not trade are pulled. -/
theorem foldl_quote (hs : List ℕ) (d : DutSession S) :
    ∃ new, Quotes d (hs.foldl quote d) new ∧
      ∀ h ∈ hs, ¬ d.tradingAllowed h → Pulled d (hs.foldl quote d) new h := by
  induction hs generalizing d with
  | nil => exact ⟨[], Quotes.refl d, by simp⟩
  | cons x hs ih =>
      obtain ⟨pre, ps, hq⟩ := quote_quoted d x
      obtain ⟨new, hrest, hpull⟩ := ih (d.quote x)
      refine ⟨_, hq.toQuotes.trans hrest, fun h hh hall side hl => ?_⟩
      rw [requests_append]
      by_cases hx : h = x
      · subst hx
        have hp := hq.pulls hall side hl
        have hreq : requests h ps ⊆ requests h (pre ++ .evaluated h :: ps) := by
          rw [show pre ++ Event.evaluated h :: ps = (pre ++ [.evaluated h]) ++ ps by simp, requests_append]
          exact List.subset_append_right _ _
        have hwait : ((d.quote h).oms.slots h side).state.Pending := by rw [hp.1]; exact .inr (.inr rfl)
        have hkeep := hrest.pending_eq hwait
        exact ⟨(congrArg QuoteSlot.state hkeep).trans hp.1, List.mem_append_left _ (hreq hp.2)⟩
      · -- the quote of another symbol does not touch the order
        have hsame := hq.slots_eq (requests_of_isFor hx hq.isFor) side
        have hp := hpull h ((List.mem_cons.mp hh).resolve_left hx)
          (by rw [hq.tradingAllowed]; exact hall) side (by rw [hsame]; exact hl)
        rw [hsame] at hp
        exact ⟨hp.1, List.mem_append_right _ hp.2⟩

/-- `requote` is quiet, and only about its symbol. -/
theorem requote_quotes (d : DutSession S) (h : ℕ) :
    ∃ new, Quotes d (d.requote h) new ∧ ∀ e ∈ new, e.IsFor h := by
  unfold requote
  split_ifs
  · exact ⟨[], Quotes.refl d, by simp⟩
  · obtain ⟨pre, ps, hq⟩ := quote_quoted (d.forget h) h
    refine ⟨_, (forget_quotes d h).trans hq.toQuotes, fun e he => ?_⟩
    obtain rfl | he := List.mem_cons.mp he
    · rfl
    · exact hq.isFor e he
  · obtain ⟨pre, ps, hq⟩ := quote_quoted d h
    exact ⟨_, hq.toQuotes, hq.isFor⟩

/-- A quote of a symbol whose top has changed, while it may not trade, pulls it. -/
theorem requote_pulls (d : DutSession S) (h : ℕ) (htop : (d.books.hotBook h).topVersion ≠ d.topSeen h)
    (hall : ¬ d.tradingAllowed h) (side : Side) : ((d.requote h).oms.slots h side).state ≠ .live := by
  have hpull : ∀ {e : DutSession S}, ¬ e.tradingAllowed h → ((e.quote h).oms.slots h side).state ≠ .live := by
    intro e he
    obtain ⟨pre, ps, hq⟩ := quote_quoted e h
    by_cases hl : (e.oms.slots h side).state = .live
    · rw [(hq.pulls he side hl).1]; decide
    · exact hq.not_live hl
  unfold requote
  rw [if_neg htop]
  split_ifs
  · exact hpull (by rw [(forget_quotes d h).tradingAllowed]; exact hall)
  · exact hpull hall

end DutSession

end TickToTrade.Dut
