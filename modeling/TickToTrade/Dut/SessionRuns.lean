import TickToTrade.Dut.SessionSteps

/-!
# Packets and runs of a session

From the parts of `applyPacket` to whole packets: what the message loop does to the
session's flags, when a packet quotes all symbols at its end, and what a packet does
to the orders. And from the steps of a session to its runs: `Sound` holds of every
session that a run reaches.
-/

namespace TickToTrade.Dut.DutSession

open OrderManager (Moves encodeCancel)

variable {S : Type}

/-! ### The message loop -/

/-- What a part of the message loop, with these messages, does beside moving orders:
the feed may have been restarted, and all symbols may have to be quoted. -/
structure Handles (d d' : DutSession S) (msgs : List (List UInt8)) (new : List Event) : Prop
    extends Acts d d' new where
  seq : d'.seq = d.seq
  cold : d'.cold = d.cold
  feedValid : d'.feedValid ↔ d.feedValid ∨ ∃ msg ∈ msgs, Restarts msg
  reconcileAll : d'.reconcileAll ↔ d.reconcileAll ∨ ∃ msg ∈ msgs, Rouses msg

namespace Handles

variable {d d' d'' : DutSession S} {msgs msgs' : List (List UInt8)} {new new' : List Event}

theorem refl (d : DutSession S) : Handles d d [] [] :=
  ⟨Acts.refl d, rfl, rfl, by simp, by simp⟩

theorem trans (h : Handles d d' msgs new) (h' : Handles d' d'' msgs' new') :
    Handles d d'' (msgs ++ msgs') (new ++ new') where
  toActs := h.toActs.trans h'.toActs
  seq := h'.seq.trans h.seq
  cold := h'.cold.trans h.cold
  feedValid := by rw [h'.feedValid, h.feedValid, or_assoc]; simp only [List.mem_append, or_and_right, exists_or]
  reconcileAll := by
    rw [h'.reconcileAll, h.reconcileAll, or_assoc]; simp only [List.mem_append, or_and_right, exists_or]

/-- A quiet quote after it makes no difference to the flags. -/
theorem quotes (h : Handles d d' msgs new) (h' : Quotes d' d'' new') :
    Handles d d'' msgs (new ++ new') where
  toActs := h.toActs.trans h'.toActs
  seq := h'.seq.trans h.seq
  cold := h'.cold.trans h.cold
  feedValid := by rw [h'.feedValid, h.feedValid]
  reconcileAll := by rw [h'.reconcileAll, h.reconcileAll]

end Handles

/-- A system event changes the flags. -/
theorem onSystemEvent_handles (d : DutSession S) {code : Itch.SystemEventCode} {msg : List UInt8}
    (hlen : ¬ msg.length < 11) (hbody : (Itch.decode msg).body = .systemEvent code) :
    Handles d (d.onSystemEvent code) [msg] [] := by
  have hacts : Acts d (d.onSystemEvent code) [] := by
    cases code <;>
      exact ⟨(List.append_nil _).symm, rfl, by simp [onSystemEvent], fun _ _ => Moves.refl _ _⟩
  have hlen' : 11 ≤ msg.length := Nat.le_of_not_lt hlen
  cases code <;>
    exact ⟨hacts, rfl, rfl, by simp [onSystemEvent, Restarts, hbody, hlen'],
      by simp [onSystemEvent, Rouses, hbody, hlen']⟩

/-- The events of a message before its quote: it may have been applied. -/
theorem applyMessage_handles (d : DutSession S) (n : ℕ) (msg : List UInt8) :
    ∃ new, Handles d (d.applyMessage n msg).1 [msg] new ∧
      (new = [] ∨ d.feedValid ∧ new = [.applied n msg (d.applyMessage n msg).2]) := by
  have hno : (msg.length < 11 ∨ ∀ code, (Itch.decode msg).body ≠ .systemEvent code) →
      ¬ Restarts msg ∧ ¬ Rouses msg := by
    rintro (hlen | hbody)
    · exact ⟨fun h => absurd h.1 (by omega), fun h => absurd h.1 (by omega)⟩
    · exact ⟨fun h => hbody _ h.2, fun h => h.2.elim (hbody _) fun h => h.elim (hbody _) (hbody _)⟩
  have hr := applyMessage_receives d n msg
  revert hr
  generalize d.applyMessage n msg = r
  intro hr
  cases hr with
  | event code hlen hbody => exact ⟨[], onSystemEvent_handles d hlen hbody, .inl rfl⟩
  | skipped hbody =>
      have hn := hno hbody
      exact ⟨[], ⟨Acts.refl d, rfl, rfl, by simp [hn.1], by simp [hn.2]⟩, .inl rfl⟩
  | applied hlen hbody hadmits =>
      have hn := hno (.inr hbody)
      refine ⟨[.applied n msg (d.books.apply (Itch.decode msg)).2], ⟨⟨rfl, rfl, ?_, fun _ _ => Moves.refl _ _⟩,
        rfl, rfl, by simp [note, hn.1], by simp [note, hn.2]⟩, .inr ⟨hadmits.1, rfl⟩⟩
      exact BookTable.hotCount_apply ..

variable [Strategy S]

/-- The loop body: perhaps the message is applied, and perhaps a quote follows. -/
theorem handle_handles (d : DutSession S) (n : ℕ) (msg : List UInt8) :
    ∃ new qs, Handles d (d.handle n msg) [msg] (new ++ qs) ∧
      (new = [] ∨ d.feedValid ∧ new = [.applied n msg (d.applyMessage n msg).2]) ∧
      ∀ e ∈ qs, ¬ e.IsApplied := by
  obtain ⟨new, hm, hnew⟩ := applyMessage_handles d n msg
  unfold handle
  revert hm hnew
  rcases d.applyMessage n msg with ⟨d', _ | h⟩
  · intro hm hnew
    exact ⟨new, [], by rw [List.append_nil]; exact hm, hnew, by simp⟩
  · intro hm hnew
    obtain ⟨qs, hq, -⟩ := requote_quotes d' h
    exact ⟨new, qs, hm.quotes hq, hnew, hq.quiet⟩

/-- The loop body after a message for the hot symbol. -/
theorem handle_of_some {d : DutSession S} {n : ℕ} {msg : List UInt8} {h : ℕ}
    (hr : (d.applyMessage n msg).2 = some h) : d.handle n msg = (d.applyMessage n msg).1.requote h := by
  unfold handle
  revert hr
  rcases d.applyMessage n msg with ⟨d', _ | x⟩
  · rintro ⟨⟩
  · rintro ⟨⟩
    rfl

/-- The whole loop. -/
theorem handleAll_handles (d : DutSession S) (n : ℕ) (msgs : List (List UInt8)) :
    ∃ new, Handles d (d.handleAll n msgs) msgs new := by
  induction msgs generalizing d n with
  | nil => exact ⟨[], Handles.refl d⟩
  | cons msg msgs ih =>
      obtain ⟨new, qs, h, -⟩ := handle_handles d n msg
      obtain ⟨new', h'⟩ := ih (d.handle n msg) (n + 1)
      exact ⟨_, h.trans h'⟩

theorem handleAll_append (d : DutSession S) (n : ℕ) (msgs msgs' : List (List UInt8)) :
    d.handleAll n (msgs ++ msgs') = (d.handleAll n msgs).handleAll (n + msgs.length) msgs' := by
  induction msgs generalizing d n with
  | nil => rfl
  | cons msg msgs ih =>
      rw [List.cons_append, handleAll, ih, handleAll, List.length_cons, Nat.add_right_comm, Nat.add_assoc]

/-- While the feed is invalid no message gets to the books, and no quote is made. -/
theorem handleAll_dead (d : DutSession S) (n : ℕ) (msgs : List (List UInt8))
    (hdead : ¬ (d.handleAll n msgs).feedValid) :
    (d.handleAll n msgs).log = d.log ∧ (d.handleAll n msgs).oms = d.oms := by
  induction msgs generalizing d n with
  | nil => exact ⟨rfl, rfl⟩
  | cons msg msgs ih =>
      obtain ⟨new, hrest⟩ := handleAll_handles (d.handle n msg) (n + 1) msgs
      have hd' : ¬ (d.handle n msg).feedValid := fun h => hdead (hrest.feedValid.mpr (.inl h))
      obtain ⟨h1, h2⟩ := ih (d.handle n msg) (n + 1) hdead
      have hsame : (d.handle n msg).log = d.log ∧ (d.handle n msg).oms = d.oms := by
        obtain ⟨new, hm, hnew⟩ := applyMessage_handles d n msg
        have homs := applyMessage_oms d n msg
        have hr := applyMessage_receives d n msg
        have hd : ¬ d.feedValid := by
          obtain ⟨new, qs, hh, -⟩ := handle_handles d n msg
          exact fun h => hd' (hh.feedValid.mpr (.inl h))
        unfold handle
        revert hr hm homs
        generalize d.applyMessage n msg = r at hnew ⊢
        intro hm homs hr
        cases hr with
        | event =>
            obtain hnil | ⟨hv, -⟩ := hnew
            · exact ⟨by rw [hm.log, hnil, List.append_nil], homs⟩
            · exact absurd hv hd
        | skipped => exact ⟨rfl, rfl⟩
        | applied _ _ ha => exact absurd ha.1 hd
      exact ⟨h1.trans hsame.1, h2.trans hsame.2⟩

/-! ### Packets -/

omit [Strategy S] in
/-- Before the messages: a gap voids the feed. -/
theorem begin_spec (d : DutSession S) (pkt : List UInt8) :
    Acts d (d.begin pkt) [] ∧ (d.begin pkt).oms = d.oms ∧
      ((d.begin pkt).feedValid ↔ d.feedValid ∧ d.verdict pkt ≠ .gap) ∧
      ((d.begin pkt).reconcileAll ↔ d.reconcileAll ∨ d.verdict pkt = .gap) := by
  unfold begin verdict
  simp only
  split_ifs with h
  · exact ⟨⟨(List.append_nil _).symm, rfl, BookTable.hotCount_clearAll _, fun _ _ => Moves.refl _ _⟩, rfl,
      by simp [invalidateFeed, h], by simp [invalidateFeed, h]⟩
  · exact ⟨⟨(List.append_nil _).symm, rfl, rfl, fun _ _ => Moves.refl _ _⟩, rfl, by simp [h], by simp [h]⟩

/-- What happens after the messages: if all symbols are to be quoted, those that may
not trade are pulled; otherwise nothing is quoted. -/
structure Finishes (d d' : DutSession S) (pkt : List UInt8) (new : List Event) : Prop
    extends Acts d d' new where
  quiet : ∀ e ∈ new, ¬ e.IsApplied
  feedValid : d'.feedValid = d.feedValid
  marketOpen : d'.marketOpen = d.marketOpen
  books : d'.books = d.books
  seq : d'.seq = d.seq
  cold : d'.cold = d.cold.map fun c => c.push pkt
  pulls : d.reconcileAll → ∀ h < d.books.hotCount, ¬ d.tradingAllowed h → Pulled d d' new h
  rests : ¬ d.reconcileAll → new = [] ∧ d'.oms = d.oms

theorem finish_finishes (d : DutSession S) (pkt : List UInt8) : ∃ new, Finishes d (d.finish pkt) pkt new := by
  unfold finish
  by_cases hr : d.reconcileAll
  · rw [if_pos hr]
    obtain ⟨new, hq, hpull⟩ := foldl_quote (List.range d.books.hotCount) { d with reconcileAll := false }
    exact ⟨new, ⟨hq.log, hq.cfg, hq.hotCount, hq.moves⟩, hq.quiet, hq.feedValid, hq.marketOpen, hq.books,
      hq.seq, congrArg (Option.map fun c => ColdShard.push c pkt) hq.cold,
      fun _ h hh hall => hpull h (List.mem_range.mpr hh) hall, fun hn => absurd hr hn⟩
  · rw [if_neg hr]
    exact ⟨[], ⟨(List.append_nil _).symm, rfl, rfl, fun _ _ => Moves.refl _ _⟩, by simp, rfl, rfl, rfl, rfl, rfl,
      fun h => absurd h hr, fun _ => ⟨rfl, rfl⟩⟩

/-- Is the packet taken in, neither too short nor dropped by the tracker? -/
def Accepts (d : DutSession S) (pkt : List UInt8) : Prop :=
  Mold.kHeaderSize ≤ pkt.length ∧ d.verdict pkt ≠ .stale

instance (d : DutSession S) (pkt : List UInt8) : Decidable (d.Accepts pkt) := by
  unfold Accepts; infer_instance

/-- The session before a message of the packet, after the messages `pre`. -/
def upTo (d : DutSession S) (pkt : List UInt8) (pre : List (List UInt8)) : DutSession S :=
  (d.begin pkt).handleAll (Mold.sequenceOf pkt) pre

/-- The session after the messages of an accepted packet. -/
def afterMessages (d : DutSession S) (pkt : List UInt8) : DutSession S :=
  (d.begin pkt).handleAll (Mold.sequenceOf pkt) (Mold.messages pkt)

theorem applyPacket_of_accepts {d : DutSession S} {pkt : List UInt8} (h : d.Accepts pkt) :
    d.applyPacket pkt = (d.afterMessages pkt).finish pkt := by
  unfold applyPacket afterMessages
  rw [if_neg (by have := h.1; omega), if_neg h.2]

/-- A packet that is not accepted has no effect on the orders, the books and the log. -/
theorem applyPacket_of_not_accepts {d : DutSession S} {pkt : List UInt8} (h : ¬ d.Accepts pkt) :
    d.applyPacket pkt = d ∨ d.verdict pkt = .stale ∧
      d.applyPacket pkt = { d with
        packets := d.packets + 1
        seq := (d.seq.onPacket (Mold.sequenceOf pkt) (Mold.countOf pkt)).2 } := by
  unfold applyPacket
  split_ifs with hlen hv
  · exact .inl rfl
  · refine .inr ⟨hv, ?_⟩
    unfold begin
    simp only
    rw [if_neg]
    exact fun hg => by unfold verdict at hv; rw [hv] at hg; cases hg
  · exact absurd ⟨Nat.le_of_not_lt hlen, hv⟩ h

/-- An accepted packet up to the end of its messages. -/
theorem afterMessages_spec (d : DutSession S) (pkt : List UInt8) :
    ∃ new, Acts d (d.afterMessages pkt) new ∧
      ((d.afterMessages pkt).feedValid ↔
        d.feedValid ∧ d.verdict pkt ≠ .gap ∨ ∃ msg ∈ Mold.messages pkt, Restarts msg) ∧
      ((d.afterMessages pkt).reconcileAll ↔
        (d.reconcileAll ∨ d.verdict pkt = .gap) ∨ ∃ msg ∈ Mold.messages pkt, Rouses msg) := by
  obtain ⟨hb, -, hvalid, hrec⟩ := begin_spec d pkt
  obtain ⟨new, h⟩ := handleAll_handles (d.begin pkt) (Mold.sequenceOf pkt) (Mold.messages pkt)
  refine ⟨[] ++ new, hb.trans h.toActs, ?_, ?_⟩
  · rw [afterMessages, h.feedValid, hvalid]
  · rw [afterMessages, h.reconcileAll, hrec]

/-- What a packet does to the orders and the log. -/
theorem applyPacket_acts (d : DutSession S) (pkt : List UInt8) : ∃ new, Acts d (d.applyPacket pkt) new := by
  by_cases h : d.Accepts pkt
  · obtain ⟨new, ha, -⟩ := afterMessages_spec d pkt
    obtain ⟨new', hf⟩ := finish_finishes (d.afterMessages pkt) pkt
    exact ⟨new ++ new', by rw [applyPacket_of_accepts h]; exact ha.trans hf.toActs⟩
  · obtain he | ⟨-, he⟩ := applyPacket_of_not_accepts h
    · exact ⟨[], by rw [he]; exact Acts.refl d⟩
    · exact ⟨[], by rw [he]; exact ⟨(List.append_nil _).symm, rfl, rfl, fun _ _ => Moves.refl _ _⟩⟩

/-- The events of a packet. -/
def events (d : DutSession S) (pkt : List UInt8) : List Event := (d.applyPacket pkt).log.drop d.log.length

theorem events_eq {d : DutSession S} {pkt : List UInt8} {new : List Event}
    (h : (d.applyPacket pkt).log = d.log ++ new) : d.events pkt = new := by
  rw [events, h, List.drop_left]

/-! ### Runs -/

/-- What holds of every session that a run reaches: the messages are routed to hot
symbols of the table, and only these have orders. -/
structure Sound (d : DutSession S) : Prop where
  bound : d.books.Bound
  idle : ∀ h, d.books.hotCount ≤ h → ∀ side, (d.oms.slots h side).state = .idle

namespace Sound

variable {d d' : DutSession S}

omit [Strategy S] in
theorem quotes {new : List Event} (hd : d.Sound) (hq : Quotes d d' new) {h : ℕ} (hh : h < d.books.hotCount)
    (hnew : ∀ e ∈ new, e.IsFor h) : d'.Sound where
  bound := by rw [hq.books]; exact hd.bound
  idle x hx side := by
    rw [hq.books] at hx
    have hne : x ≠ h := by omega
    rw [hq.slots_eq (requests_of_isFor hne hnew)]
    exact hd.idle x hx side

theorem quote (hd : d.Sound) {h : ℕ} (hh : h < d.books.hotCount) : (d.quote h).Sound := by
  obtain ⟨pre, ps, hq⟩ := quote_quoted d h
  exact hd.quotes hq.toQuotes hh hq.isFor

theorem requote (hd : d.Sound) {h : ℕ} (hh : h < d.books.hotCount) : (d.requote h).Sound := by
  obtain ⟨new, hq, hnew⟩ := requote_quotes d h
  exact hd.quotes hq hh hnew

omit [Strategy S] in
theorem clearAll (hd : d.Sound) (hbooks : d'.books = d.books.clearAll) (homs : d'.oms = d.oms) : d'.Sound where
  bound := by rw [hbooks]; exact hd.bound.clearAll
  idle h hh := by
    rw [hbooks, BookTable.hotCount_clearAll] at hh
    rw [homs]
    exact hd.idle h hh

omit [Strategy S] in
theorem applyMessage (hd : d.Sound) (n : ℕ) (msg : List UInt8) :
    (d.applyMessage n msg).1.Sound ∧
      ∀ h, (d.applyMessage n msg).2 = some h → h < (d.applyMessage n msg).1.books.hotCount := by
  have hr := applyMessage_receives d n msg
  revert hr
  generalize d.applyMessage n msg = r
  intro hr
  cases hr with
  | event code =>
      refine ⟨?_, by simp⟩
      cases code
      case startOfMessages => exact hd.clearAll rfl rfl
      all_goals exact ⟨hd.bound, hd.idle⟩
  | skipped => exact ⟨hd, by simp⟩
  | applied =>
      have hcount := BookTable.hotCount_apply d.books (Itch.decode msg)
      refine ⟨⟨hd.bound.apply _, fun h hh => hd.idle h (by rw [← hcount]; exact hh)⟩, fun h hh => ?_⟩
      exact lt_of_lt_of_eq (hd.bound.apply_hot hh) hcount.symm

theorem handle (hd : d.Sound) (n : ℕ) (msg : List UInt8) : (d.handle n msg).Sound := by
  have hm := hd.applyMessage n msg
  unfold DutSession.handle
  revert hm
  rcases d.applyMessage n msg with ⟨d', _ | h⟩
  · exact fun hm => hm.1
  · exact fun hm => hm.1.requote (hm.2 h rfl)

theorem handleAll (hd : d.Sound) (n : ℕ) (msgs : List (List UInt8)) : (d.handleAll n msgs).Sound := by
  induction msgs generalizing d n with
  | nil => exact hd
  | cons msg msgs ih => exact ih (hd.handle n msg) (n + 1)

theorem foldl_quote (hs : List ℕ) (hd : d.Sound) (hh : ∀ h ∈ hs, h < d.books.hotCount) :
    (hs.foldl DutSession.quote d).Sound := by
  induction hs generalizing d with
  | nil => exact hd
  | cons x hs ih =>
      obtain ⟨pre, ps, hq⟩ := quote_quoted d x
      refine ih (hd.quote (hh x (by simp))) fun h hm => ?_
      rw [hq.hotCount]
      exact hh h (by simp [hm])

theorem applyPacket (hd : d.Sound) (pkt : List UInt8) : (d.applyPacket pkt).Sound := by
  by_cases h : d.Accepts pkt
  · rw [applyPacket_of_accepts h]
    have hb : (d.begin pkt).Sound := by
      unfold DutSession.begin
      simp only
      split_ifs
      · exact hd.clearAll rfl rfl
      · exact ⟨hd.bound, hd.idle⟩
    have ha : (d.afterMessages pkt).Sound := hb.handleAll _ _
    unfold finish
    split_ifs
    · have hq : ({ d.afterMessages pkt with reconcileAll := false } : DutSession S).Sound := ⟨ha.bound, ha.idle⟩
      have := hq.foldl_quote (List.range (d.afterMessages pkt).books.hotCount) fun h hm => List.mem_range.mp hm
      exact ⟨this.bound, this.idle⟩
    · exact ⟨ha.bound, ha.idle⟩
  · obtain he | ⟨-, he⟩ := applyPacket_of_not_accepts h
    · rw [he]; exact hd
    · rw [he]; exact ⟨hd.bound, hd.idle⟩

omit [Strategy S] in
theorem applyAck (hd : d.Sound) (ouch : List UInt8) : (d.applyAck ouch).Sound where
  bound := hd.bound
  idle h hh side := by
    have hi := hd.idle h hh side
    exact (congrArg QuoteSlot.state (OrderManager.onAck_slots_of_idle ouch hi)).trans hi

/-- Warming the quote path changes the strategies and the log only. -/
theorem warm (hd : d.Sound) (h : ℕ) : (d.warm h).Sound where
  bound := hd.bound
  idle := hd.idle

theorem warmQuotePath (hd : d.Sound) : d.warmQuotePath.Sound := by
  have hfold : ∀ (hs : List ℕ) {e : DutSession S}, e.Sound → (hs.foldl DutSession.warm e).Sound := by
    intro hs
    induction hs with
    | nil => exact fun he => he
    | cons x hs ih => exact fun he => ih (he.warm x)
  have := hfold (List.range d.books.hotCount) hd
  exact ⟨this.bound, this.idle⟩

/-- Every step of a session keeps it sound. -/
theorem step (hd : d.Sound) (i : Input) : (d.step i).Sound := by
  cases i with
  | packet bytes => exact hd.applyPacket bytes
  | ack bytes => exact hd.applyAck bytes
  | coldFrame => exact ⟨hd.bound, hd.idle⟩
  | warmUp => exact hd.warmQuotePath
  | testOrder => exact ⟨hd.bound, hd.idle⟩

theorem run (hd : d.Sound) (ins : List Input) : (d.run ins).Sound := by
  induction ins generalizing d with
  | nil => exact hd
  | cons i ins ih => exact ih (hd.step i)

end Sound

/-- Warming the quote path has an effect on the strategies, the counters of the orders
and the log only, beside the mark to quote all symbols. -/
theorem warmQuotePath_eq (d : DutSession S) :
    ∃ strats oms log, d.warmQuotePath =
      { d with strats := strats, oms := oms, log := log, reconcileAll := !d.marketOpen } := by
  have hfold : ∀ (hs : List ℕ) (e : DutSession S), ∃ strats oms log,
      hs.foldl DutSession.warm e = { e with strats := strats, oms := oms, log := log } := by
    intro hs
    induction hs with
    | nil => exact fun e => ⟨e.strats, e.oms, e.log, rfl⟩
    | cons x hs ih =>
        intro e
        obtain ⟨strats, oms, log, heq⟩ := ih (e.warm x)
        exact ⟨strats, oms, log, by rw [List.foldl_cons, heq]; rfl⟩
  obtain ⟨strats, oms, log, heq⟩ := hfold (List.range d.books.hotCount) d
  refine ⟨strats, oms, log, ?_⟩
  unfold warmQuotePath
  simp only [heq]

omit [Strategy S] in
/-- A new session is sound. -/
theorem sound_new (cfg : DutConfig) (strat : S) (link : ℕ → Bool) : (new cfg strat link).Sound :=
  ⟨(BookTable.new_spec _).2, fun _ _ _ => rfl⟩

/-- `P` holds at every step of a run: of the session the step starts from, and the
input that it takes. -/
def EachStep (P : DutSession S → Input → Prop) (d : DutSession S) : List Input → Prop
  | [] => True
  | i :: ins => P d i ∧ EachStep P (d.step i) ins

/-- Two properties that are the same of sound sessions are the same of every step of a
run. -/
theorem eachStep_congr {P Q : DutSession S → Input → Prop} (h : ∀ d i, Sound d → (P d i ↔ Q d i))
    {d : DutSession S} (hd : d.Sound) (ins : List Input) : EachStep P d ins ↔ EachStep Q d ins := by
  induction ins generalizing d with
  | nil => exact Iff.rfl
  | cons i ins ih => exact and_congr (h d i hd) (ih (hd.step i))

/-! ### Inputs for examples -/

/-- A strategy that wants the targets of a list, one after the other, and then no
change. -/
structure Script where
  /-- The targets to come. -/
  rest : List QuoteTargets

instance : Strategy Script where
  onBook s _ _ :=
    match s.rest with
    | [] => (none, s)
    | t :: rest => (some t, ⟨rest⟩)
  forget s := s

/-- A session with one hot symbol, `A`, at locate `1`. -/
def oneSymbol (marketHoursOnly : Bool) (targets : List QuoteTargets) : DutSession Script :=
  new
    { symbols := [[65]]
      locates := [1]
      hotBandTicks := 4
      hotMapSlots := 16
      coldMapSlots := 16
      marketHoursOnly := marketHoursOnly } ⟨targets⟩ fun _ => true

/-- A quote to make. -/
def sampleBid : QuoteTargets := { quoteBid := true, bidPrice := 100, bidQty := 5 }

/-- A packet of the feed. -/
def packetOf (seq : ℕ) (msgs : List (List UInt8)) : Input := .packet (Mold.pack [] seq msgs)

/-- A system event with this code. -/
def systemEvent (code : UInt8) : List UInt8 := 83 :: List.replicate 10 0 ++ [code]

/-- A trading action for locate `1` with this state. -/
def tradingAction (state : UInt8) : List UInt8 :=
  [72, 0, 1] ++ List.replicate 16 0 ++ [state] ++ List.replicate 5 0

/-- A bid for ten shares at a price of `100`, for locate `1`. -/
def sampleAdd : List UInt8 :=
  [65, 0, 1] ++ List.replicate 8 0 ++ Mold.put 8 7 ++ [66] ++ Mold.put 4 10 ++ List.replicate 8 0 ++ Mold.put 4 100

/-- The bytes of an order's acceptance. -/
def acceptanceBytes (userRef qty : ℕ) : List UInt8 :=
  [65] ++ List.replicate 8 0 ++ Mold.put 4 userRef ++ [66] ++ Mold.put 4 qty ++ List.replicate 29 0 ++
    [76] ++ List.replicate 16 0

/-- The acceptance of an order. -/
def acceptance (userRef qty : ℕ) : Input := .ack (acceptanceBytes userRef qty)

end TickToTrade.Dut.DutSession
