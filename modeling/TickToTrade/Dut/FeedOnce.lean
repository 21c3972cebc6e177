import TickToTrade.Dut.SessionRuns

/-!
# Each message of the feed once

The packets of the feed are cut from one numbered stream. They may be lost, repeated
and reordered, and they may overlap. The tracker drops a packet that brings nothing
new, but takes one that reaches over the expected number for a packet in order, and
the session then applies all of it: the messages before the expected number a second
time (`overlap_applied_twice`). Without such a packet no message is applied twice, and
the messages are applied in the order of their numbers (`applied_once`).
-/

namespace TickToTrade.Dut

/-- The messages with the numbers that they have in the stream, from `n` on. -/
def numbered : ℕ → List (List UInt8) → List (ℕ × List UInt8)
  | _, [] => []
  | n, msg :: msgs => (n, msg) :: numbered (n + 1) msgs

theorem mem_numbered {msgs : List (List UInt8)} {n : ℕ} {p : ℕ × List UInt8} (h : p ∈ numbered n msgs) :
    n ≤ p.1 ∧ p.1 < n + msgs.length ∧ msgs[p.1 - n]? = some p.2 := by
  induction msgs generalizing n with
  | nil => cases h
  | cons msg msgs ih =>
      obtain rfl | h := List.mem_cons.mp h
      · simp
      · obtain ⟨h1, h2, h3⟩ := ih h
        refine ⟨by omega, by simp only [List.length_cons]; omega, ?_⟩
        rw [show p.1 - n = p.1 - (n + 1) + 1 by omega]
        exact h3

theorem mem_of_mem_numbered {msgs : List (List UInt8)} {n : ℕ} {p : ℕ × List UInt8} (h : p ∈ numbered n msgs) :
    p.2 ∈ msgs :=
  List.mem_of_getElem? (mem_numbered h).2.2

theorem exists_mem_numbered {msgs : List (List UInt8)} (n : ℕ) {msg : List UInt8} (h : msg ∈ msgs) :
    ∃ k, (k, msg) ∈ numbered n msgs := by
  induction msgs generalizing n with
  | nil => cases h
  | cons m msgs ih =>
      obtain rfl | h := List.mem_cons.mp h
      · exact ⟨n, List.mem_cons_self⟩
      · obtain ⟨k, hk⟩ := ih (n + 1) h
        exact ⟨k, List.mem_cons_of_mem _ hk⟩

theorem pairwise_numbered (n : ℕ) (msgs : List (List UInt8)) :
    (numbered n msgs).Pairwise (fun p q => p.1 < q.1) := by
  induction msgs generalizing n with
  | nil => exact List.Pairwise.nil
  | cons msg msgs ih => exact List.Pairwise.cons (fun p hp => (mem_numbered hp).1) (ih (n + 1))

/-- A history of applied messages: in the order of their numbers, each the message that
the stream has there, and none from `bound` on. -/
structure Once (stream : ℕ → List UInt8) (bound : ℕ) (l : List (ℕ × List UInt8)) : Prop where
  increasing : l.Pairwise (fun p q => p.1 < q.1)
  ofStream : ∀ p ∈ l, p.2 = stream p.1
  below : ∀ p ∈ l, p.1 < bound

namespace Once

variable {stream : ℕ → List UInt8} {bound bound' : ℕ} {l l' : List (ℕ × List UInt8)}

theorem sublist (h : Once stream bound l) (hs : l'.Sublist l) : Once stream bound l' :=
  ⟨h.increasing.sublist hs, fun p hp => h.ofStream p (hs.subset hp), fun p hp => h.below p (hs.subset hp)⟩

theorem mono (h : Once stream bound l) (hb : bound ≤ bound') : Once stream bound' l :=
  ⟨h.increasing, h.ofStream, fun p hp => lt_of_lt_of_le (h.below p hp) hb⟩

theorem nil : Once stream bound [] := ⟨List.Pairwise.nil, by simp, by simp⟩

/-- New messages from `n` on come after old ones below `n`. -/
theorem append {n : ℕ} (h : Once stream n l) {msgs : List (List UInt8)}
    (hmsgs : ∀ p ∈ numbered n msgs, p.2 = stream p.1) : Once stream (n + msgs.length) (l ++ numbered n msgs) where
  increasing := List.pairwise_append.mpr ⟨h.increasing, pairwise_numbered n msgs,
    fun p hp q hq => lt_of_lt_of_le (h.below p hp) (mem_numbered hq).1⟩
  ofStream p hp := (List.mem_append.mp hp).elim (h.ofStream p) (hmsgs p)
  below p hp := by
    obtain hp | hp := List.mem_append.mp hp
    · have := h.below p hp; omega
    · exact (mem_numbered hp).2.1

/-- No number comes twice. -/
theorem nodup (h : Once stream bound l) : (l.map Prod.fst).Nodup :=
  List.pairwise_map.mpr (h.increasing.imp fun hlt => ne_of_lt hlt)

end Once

/-! ### The cold shard -/

namespace ColdShard

/-- The messages of a queued frame. -/
def ofFrame : Option (List UInt8) → List (ℕ × List UInt8)
  | none => []
  | some pkt => numbered (Mold.sequenceOf pkt) (Mold.messages pkt)

/-- What the shard has applied and what it may still apply. -/
def history (c : ColdShard) : List (ℕ × List UInt8) := c.log ++ c.queue.flatMap ofFrame

theorem applyOne_log (c : ColdShard) (n : ℕ) (msg : List UInt8) :
    (c.applyOne n msg).queue = c.queue ∧ (c.applyOne n msg).log.Sublist (c.log ++ [(n, msg)]) := by
  have hskip : c.log.Sublist (c.log ++ [(n, msg)]) := List.sublist_append_left _ _
  unfold applyOne
  split
  · exact ⟨rfl, hskip⟩
  · split
    · split
      · exact ⟨rfl, hskip⟩
      · exact ⟨rfl, hskip⟩
    · exact ⟨rfl, hskip⟩
    · exact ⟨rfl, List.Sublist.refl _⟩

theorem applyAll_log (c : ColdShard) (n : ℕ) (msgs : List (List UInt8)) :
    (c.applyAll n msgs).queue = c.queue ∧ (c.applyAll n msgs).log.Sublist (c.log ++ numbered n msgs) := by
  induction msgs generalizing c n with
  | nil => exact ⟨rfl, by rw [numbered, List.append_nil]; exact List.Sublist.refl _⟩
  | cons msg msgs ih =>
      obtain ⟨hq, hl⟩ := applyOne_log c n msg
      obtain ⟨hq', hl'⟩ := ih (c.applyOne n msg) (n + 1)
      refine ⟨hq'.trans hq, hl'.trans ?_⟩
      rw [numbered, show c.log ++ (n, msg) :: numbered (n + 1) msgs =
        (c.log ++ [(n, msg)]) ++ numbered (n + 1) msgs by simp]
      exact hl.append_right _

theorem history_consume (c : ColdShard) : c.consume.history.Sublist c.history := by
  unfold consume history
  split
  next hq => exact List.Sublist.refl _
  next queue hq => rw [hq]; exact List.Sublist.refl _
  next pkt queue hq =>
    split_ifs
    · rw [hq]
      exact (List.sublist_append_right _ _).append_left _
    · unfold applyFrame
      split_ifs
      · rw [hq]
        exact (List.sublist_append_right _ _).append_left _
      · obtain ⟨hqueue, hlog⟩ := applyAll_log { c with queue := queue, packets := c.packets + 1 }
          (Mold.sequenceOf pkt) (Mold.messages pkt)
        rw [hqueue, hq, List.flatMap_cons, ← List.append_assoc]
        exact hlog.append_right _

theorem history_reset (c : ColdShard) : c.reset.history.Sublist c.history := by
  have hmark : ∀ c : ColdShard, ({ c with queue := c.queue ++ [none] } : ColdShard).history = c.history := by
    intro c
    simp [history, ofFrame]
  unfold reset
  simp only
  rw [hmark]
  split_ifs
  · exact List.Sublist.refl _
  · exact history_consume c

theorem history_push (c : ColdShard) (pkt : List UInt8) :
    (c.push pkt).history.Sublist (c.history ++ numbered (Mold.sequenceOf pkt) (Mold.messages pkt)) := by
  unfold push
  split_ifs
  · have h : ({ c with queue := c.queue ++ [some pkt] } : ColdShard).history =
        c.history ++ numbered (Mold.sequenceOf pkt) (Mold.messages pkt) := by
      simp [history, ofFrame, List.append_assoc]
    rw [h]
  · exact List.sublist_append_left _ _

end ColdShard

/-! ### The session -/

namespace DutSession

open Event

variable {S : Type}

/-- The messages that were applied, with their numbers. -/
def applied (log : List Event) : List (ℕ × List UInt8) :=
  log.filterMap fun
    | .applied n msg _ => some (n, msg)
    | _ => none

theorem applied_append (l l' : List Event) : applied (l ++ l') = applied l ++ applied l' :=
  List.filterMap_append

theorem applied_of_quiet {l : List Event} (h : ∀ e ∈ l, ¬ e.IsApplied) : applied l = [] := by
  refine List.filterMap_eq_nil_iff.mpr fun e he => ?_
  have := h e he
  cases e <;> simp_all [IsApplied]

/-- Is the packet cut from the stream: complete, numbered within 64 bits, and each
message the one that the stream has at its number? -/
def CutFrom (stream : ℕ → List UInt8) (pkt : List UInt8) : Prop :=
  Mold.kHeaderSize ≤ pkt.length ∧ (Mold.messages pkt).length = Mold.announced pkt ∧
    Mold.sequenceOf pkt + Mold.announced pkt < 2 ^ 64 ∧
    ∀ p ∈ numbered (Mold.sequenceOf pkt) (Mold.messages pkt), p.2 = stream p.1

instance (stream : ℕ → List UInt8) (pkt : List UInt8) : Decidable (CutFrom stream pkt) := by
  unfold CutFrom; infer_instance

/-- Would the packet be applied although it repeats messages? It reaches over the
expected number, and the feed is valid, or restarted by the packet, or a cold shard
takes it anyway. -/
def Repeats (d : DutSession S) (pkt : List UInt8) : Prop :=
  d.seq.Straddles (Mold.sequenceOf pkt) (Mold.countOf pkt) ∧
    (d.feedValid ∨ d.cold.isSome ∨ ∃ msg ∈ Mold.messages pkt, Restarts msg)

instance (d : DutSession S) (pkt : List UInt8) : Decidable (d.Repeats pkt) := by
  unfold Repeats; infer_instance

/-- No packet repeats messages. -/
def NoRepeat (d : DutSession S) (i : Input) : Prop := ∀ pkt, i = .packet pkt → ¬ d.Repeats pkt

/-- Every message of the stream was applied at most once, and in order: by the session,
and by its cold shard. -/
def AppliedOnce (stream : ℕ → List UInt8) (d : DutSession S) : Prop :=
  (∃ bound, Once stream bound (applied d.log)) ∧ ∀ c, d.cold = some c → ∃ bound, Once stream bound c.log

/-- The invariant: the messages applied so far, and those queued for the cold shard, are
all before the expected number. -/
structure Tracked (stream : ℕ → List UInt8) (d : DutSession S) : Prop where
  session : Once stream d.seq.expected (applied d.log)
  cold : ∀ c, d.cold = some c → Once stream d.seq.expected c.history
  fresh : d.seq.started = false → applied d.log = [] ∧ ∀ c, d.cold = some c → c.history = []

namespace Tracked

variable {stream : ℕ → List UInt8} {d d' : DutSession S}

/-- Steps that apply nothing keep the invariant. -/
theorem congr (h : Tracked stream d) (hlog : applied d'.log = applied d.log)
    (hcold : ∀ c', d'.cold = some c' → ∃ c, d.cold = some c ∧ c'.history.Sublist c.history)
    (hexp : d'.seq.expected = d.seq.expected) (hstart : d'.seq.started = d.seq.started) : Tracked stream d' where
  session := by rw [hlog, hexp]; exact h.session
  cold c' hc' := by
    obtain ⟨c, hc, hs⟩ := hcold c' hc'
    rw [hexp]
    exact (h.cold c hc).sublist hs
  fresh hst := by
    obtain ⟨hl, hc⟩ := h.fresh (by rw [← hstart]; exact hst)
    refine ⟨hlog.trans hl, fun c' hc' => ?_⟩
    obtain ⟨c, hc0, hs⟩ := hcold c' hc'
    rw [hc c hc0] at hs
    exact List.sublist_nil.mp hs

theorem appliedOnce (h : Tracked stream d) : AppliedOnce stream d :=
  ⟨⟨_, h.session⟩, fun c hc => ⟨_, (h.cold c hc).sublist (List.sublist_append_left _ _)⟩⟩

end Tracked

theorem tracked_new (stream : ℕ → List UInt8) (cfg : DutConfig) (strat : S) (link : ℕ → Bool) :
    Tracked stream (new cfg strat link) := by
  have hcold : ∀ c, (new cfg strat link).cold = some c → c.history = [] := by
    intro c hc
    unfold new at hc
    simp only at hc
    split_ifs at hc
    cases hc
    rfl
  exact ⟨Once.nil, fun c hc => by rw [hcold c hc]; exact Once.nil, fun _ => ⟨rfl, hcold⟩⟩

variable [Strategy S]

/-- The message loop applies messages of the packet in their order. -/
theorem applied_handleAll (d : DutSession S) (n : ℕ) (msgs : List (List UInt8)) :
    ∃ new, (d.handleAll n msgs).log = d.log ++ new ∧ (applied new).Sublist (numbered n msgs) := by
  induction msgs generalizing d n with
  | nil => exact ⟨[], (List.append_nil _).symm, List.Sublist.refl _⟩
  | cons msg msgs ih =>
      obtain ⟨new, qs, hh, hnew, hqs⟩ := handle_handles d n msg
      obtain ⟨new', hlog, hsub⟩ := ih (d.handle n msg) (n + 1)
      refine ⟨new ++ qs ++ new', by rw [handleAll, hlog, hh.log, List.append_assoc], ?_⟩
      rw [applied_append, applied_append, applied_of_quiet hqs, List.append_nil, numbered]
      obtain rfl | ⟨-, rfl⟩ := hnew
      · exact hsub.cons _
      · exact hsub.cons_cons _

omit [Strategy S] in
theorem seq_begin (d : DutSession S) (pkt : List UInt8) :
    (d.begin pkt).seq = (d.seq.onPacket (Mold.sequenceOf pkt) (Mold.countOf pkt)).2 := by
  unfold begin
  simp only
  split_ifs <;> rfl

omit [Strategy S] in
/-- A gap may make the cold shard wait for room in its queue. -/
theorem cold_begin (d : DutSession S) (pkt : List UInt8) {c' : ColdShard} (hc : (d.begin pkt).cold = some c') :
    ∃ c, d.cold = some c ∧ c'.history.Sublist c.history := by
  unfold begin at hc
  simp only at hc
  split_ifs at hc
  · obtain ⟨c, hc0, rfl⟩ := Option.map_eq_some_iff.mp hc
    exact ⟨c, hc0, ColdShard.history_reset c⟩
  · exact ⟨c', hc, List.Sublist.refl _⟩

/-- What an accepted packet adds to the histories: messages of its own, in order. -/
theorem histories_of_accepts {d : DutSession S} {pkt : List UInt8} (hacc : d.Accepts pkt) :
    (d.applyPacket pkt).seq = (d.seq.onPacket (Mold.sequenceOf pkt) (Mold.countOf pkt)).2 ∧
      (∃ new, applied (d.applyPacket pkt).log = applied d.log ++ new ∧
        new.Sublist (numbered (Mold.sequenceOf pkt) (Mold.messages pkt)) ∧
        (¬ (d.afterMessages pkt).feedValid → new = [])) ∧
      ∀ c', (d.applyPacket pkt).cold = some c' → ∃ c, d.cold = some c ∧
        c'.history.Sublist (c.history ++ numbered (Mold.sequenceOf pkt) (Mold.messages pkt)) := by
  obtain ⟨hbegin, -⟩ := begin_spec d pkt
  obtain ⟨new, hlog, hsub⟩ := applied_handleAll (d.begin pkt) (Mold.sequenceOf pkt) (Mold.messages pkt)
  obtain ⟨_, hh⟩ := handleAll_handles (d.begin pkt) (Mold.sequenceOf pkt) (Mold.messages pkt)
  obtain ⟨end_, hf⟩ := finish_finishes (d.afterMessages pkt) pkt
  rw [applyPacket_of_accepts hacc]
  refine ⟨by rw [hf.seq, afterMessages, hh.seq, seq_begin], ⟨applied new, ?_, hsub, fun hdead => ?_⟩, ?_⟩
  · rw [hf.log, afterMessages, hlog, hbegin.log, List.append_nil, applied_append, applied_append,
      applied_of_quiet hf.quiet, List.append_nil]
  · obtain ⟨hsame, -⟩ := handleAll_dead (d.begin pkt) _ _ hdead
    have hnil : new = [] := by simpa [hsame] using hlog
    rw [hnil]
    rfl
  · intro c' hc'
    rw [hf.cold] at hc'
    obtain ⟨c, hc, rfl⟩ := Option.map_eq_some_iff.mp hc'
    rw [afterMessages, hh.cold] at hc
    obtain ⟨c0, hc0, hs⟩ := cold_begin d pkt hc
    exact ⟨c0, hc0, (ColdShard.history_push c pkt).trans (hs.append_right _)⟩

/-- A packet that repeats nothing keeps the invariant. -/
theorem Tracked.applyPacket {stream : ℕ → List UInt8} {d : DutSession S} (h : Tracked stream d)
    {pkt : List UInt8} (hcut : CutFrom stream pkt) (hno : ¬ d.Repeats pkt) : Tracked stream (d.applyPacket pkt) := by
  obtain ⟨hlen, hcount, hwrap, hstream⟩ := hcut
  have hadv := SequenceTracker.advance_countOf pkt
  rw [← hadv] at hwrap
  by_cases hacc : d.Accepts pkt
  · obtain ⟨hseq, ⟨new, hlog, hsub, hdead⟩, hcold⟩ := histories_of_accepts hacc
    obtain ⟨hexp, hstarted⟩ := SequenceTracker.expected_onPacket hwrap hacc.2
    rw [← hseq] at hexp hstarted
    have hfresh : (d.applyPacket pkt).seq.started = false →
        applied (d.applyPacket pkt).log = [] ∧ ∀ c, (d.applyPacket pkt).cold = some c → c.history = [] :=
      fun hst => by rw [hstarted] at hst; cases hst
    have hbound : (d.applyPacket pkt).seq.expected = Mold.sequenceOf pkt + (Mold.messages pkt).length := by
      rw [hexp, hadv, hcount]
    by_cases hstr : d.seq.Straddles (Mold.sequenceOf pkt) (Mold.countOf pkt)
    · -- the packet is not applied
      have hcase : ¬ d.feedValid ∧ d.cold = none ∧ ¬ ∃ msg ∈ Mold.messages pkt, Restarts msg := by
        refine ⟨fun hv => hno ⟨hstr, .inl hv⟩, ?_, fun hr => hno ⟨hstr, .inr (.inr hr)⟩⟩
        by_contra hc
        exact hno ⟨hstr, .inr (.inl (Option.isSome_iff_ne_none.mpr hc))⟩
      obtain ⟨_, -, hvalid, -⟩ := afterMessages_spec d pkt
      have hinvalid : ¬ (d.afterMessages pkt).feedValid := by
        rw [hvalid]
        rintro (⟨hv, -⟩ | hr)
        · exact hcase.1 hv
        · exact hcase.2.2 hr
      refine ⟨?_, fun c hc => ?_, hfresh⟩
      · rw [hlog, hdead hinvalid, List.append_nil]
        have := hstr.2.2
        exact h.session.mono (by omega)
      · obtain ⟨c0, hc0, -⟩ := hcold c hc
        rw [hcase.2.1] at hc0
        cases hc0
    · have hbefore : ∀ l, Once stream d.seq.expected l → (d.seq.started = false → l = []) →
          Once stream (Mold.sequenceOf pkt) l := by
        intro l hl hnil
        cases hst : d.seq.started with
        | false => rw [hnil hst]; exact Once.nil
        | true => exact hl.mono (SequenceTracker.expected_le_of_not_straddles hwrap hacc.2 hstr hst)
      refine ⟨?_, fun c hc => ?_, hfresh⟩
      · rw [hlog, hbound]
        exact ((hbefore _ h.session fun hst => (h.fresh hst).1).append hstream).sublist (hsub.append_left _)
      · obtain ⟨c0, hc0, hs⟩ := hcold c hc
        rw [hbound]
        exact ((hbefore _ (h.cold c0 hc0) fun hst => (h.fresh hst).2 c0 hc0).append hstream).sublist hs
  · obtain he | ⟨hstale, he⟩ := applyPacket_of_not_accepts hacc
    · rw [he]; exact h
    · obtain ⟨hexp, hst⟩ := SequenceTracker.expected_onPacket_of_stale hstale
      rw [he]
      exact h.congr rfl (fun c hc => ⟨c, hc, List.Sublist.refl _⟩) hexp hst

omit [Strategy S] in
theorem Tracked.applyAck {stream : ℕ → List UInt8} {d : DutSession S} (h : Tracked stream d)
    (ouch : List UInt8) : Tracked stream (d.applyAck ouch) :=
  h.congr rfl (fun c hc => ⟨c, hc, List.Sublist.refl _⟩) rfl rfl

theorem Tracked.warmQuotePath {stream : ℕ → List UInt8} {d : DutSession S} (h : Tracked stream d) :
    Tracked stream d.warmQuotePath := by
  have hfold : ∀ (hs : List ℕ) {e : DutSession S}, Tracked stream e → Tracked stream (hs.foldl warm e) := by
    intro hs
    induction hs with
    | nil => exact fun he => he
    | cons x hs ih =>
        refine fun he => ih (he.congr ?_ (fun c hc => ⟨c, hc, List.Sublist.refl _⟩) rfl rfl)
        exact (applied_append _ [.forgot x]).trans (List.append_nil _)
  exact (hfold (List.range d.books.hotCount) h).congr rfl (fun c hc => ⟨c, hc, List.Sublist.refl _⟩) rfl rfl

/-- Every step that repeats nothing keeps the invariant. -/
theorem Tracked.step {stream : ℕ → List UInt8} {d : DutSession S} (h : Tracked stream d) (i : Input)
    (hcut : ∀ pkt, i = .packet pkt → CutFrom stream pkt) (hno : d.NoRepeat i) : Tracked stream (d.step i) := by
  cases i with
  | packet bytes => exact h.applyPacket (hcut bytes rfl) (hno bytes rfl)
  | ack bytes => exact h.applyAck bytes
  | coldFrame =>
      refine h.congr rfl (fun c' hc' => ?_) rfl rfl
      obtain ⟨c, hc, rfl⟩ := Option.map_eq_some_iff.mp hc'
      exact ⟨c, hc, ColdShard.history_consume c⟩
  | warmUp => exact h.warmQuotePath
  | testOrder =>
      refine h.congr ?_ (fun c hc => ⟨c, hc, List.Sublist.refl _⟩) rfl rfl
      exact (applied_append _ [.produced _ _ _]).trans (List.append_nil _)

theorem Tracked.run {stream : ℕ → List UInt8} {d : DutSession S} (h : Tracked stream d) (ins : List Input)
    (hcut : ∀ pkt, .packet pkt ∈ ins → CutFrom stream pkt) (hno : EachStep NoRepeat d ins) :
    Tracked stream (d.run ins) := by
  induction ins generalizing d with
  | nil => exact h
  | cons i ins ih =>
      refine ih (h.step i (fun pkt hi => hcut pkt (by simp [hi])) hno.1) (fun pkt hm => hcut pkt ?_) hno.2
      exact List.mem_cons_of_mem _ hm

/-- **Each message of the feed is applied at most once, in the order of the stream**: in
every run of a session over packets cut from one stream, in any order and with any
losses and repetitions, as long as no packet repeats a part of what came before and is
applied for the rest. -/
theorem applied_once (cfg : DutConfig) (strat : S) (link : ℕ → Bool) (stream : ℕ → List UInt8)
    (ins : List Input) (hcut : ∀ pkt, .packet pkt ∈ ins → CutFrom stream pkt)
    (hno : EachStep NoRepeat (new cfg strat link) ins) :
    AppliedOnce stream ((new cfg strat link).run ins) :=
  ((tracked_new stream cfg strat link).run ins hcut hno).appliedOnce

/-- A stream: trading actions, and a bid as its second message. -/
def sampleStream (n : ℕ) : List UInt8 := if n = 2 then sampleAdd else tradingAction 84

/-- Two packets that follow each other, and the second one again. -/
theorem applied_once_sample :
    AppliedOnce sampleStream ((oneSymbol false []).run
      [packetOf 1 [tradingAction 84, sampleAdd], packetOf 3 [tradingAction 84], packetOf 3 [tradingAction 84]]) := by
  refine applied_once _ _ _ sampleStream _ (fun pkt hm => ?_) ⟨?_, ?_, ?_, trivial⟩
  · simp only [packetOf, List.mem_cons, Input.packet.injEq, List.not_mem_nil, or_false] at hm
    obtain rfl | rfl | rfl := hm <;> decide
  all_goals
    rintro _ ⟨⟩
    decide

/-- The second packet overlaps the first one in the bid, which is applied twice: the
book then shows twice its shares. -/
theorem overlap_applied_twice :
    let ins := [packetOf 1 [tradingAction 84, sampleAdd], packetOf 2 [sampleAdd, tradingAction 84]]
    (∀ pkt, .packet pkt ∈ ins → CutFrom sampleStream pkt) ∧
      ¬ AppliedOnce sampleStream ((oneSymbol false []).run ins) ∧
      (((oneSymbol false []).run ins).books.hotBook 0).sizeAt .buy 100 = 20 := by
  refine ⟨fun pkt hm => ?_, fun h => ?_, by decide +kernel⟩
  · simp only [packetOf, List.mem_cons, Input.packet.injEq, List.not_mem_nil, or_false] at hm
    obtain rfl | rfl := hm <;> decide
  · obtain ⟨⟨bound, hl⟩, -⟩ := h
    exact absurd hl.nodup (by decide +kernel)

end DutSession

end TickToTrade.Dut
