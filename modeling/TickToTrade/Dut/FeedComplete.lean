import TickToTrade.Dut.FeedOnce

/-!
# No message of the feed is lost in silence

The tracker moves the expected number by the count in a packet's header before the
message loop runs, and the loop stops at the first message that is cut off. The
messages behind it then count as received, and the feed stays valid
(`cutOff_unnoticed`). Where every packet that leaves the feed valid has all of the
messages that it announces, nothing is missing: as long as the feed is valid, the
message loop was given every message from the last restart up to the expected number
(`no_silent_loss`).
-/

namespace TickToTrade.Dut.DutSession

variable {S : Type}

/-- From the last restart of the feed on: the messages that the loop was given, or all of
them if there was no restart. -/
def sinceRestart : List (ℕ × List UInt8) → List (ℕ × List UInt8)
  | [] => []
  | p :: l => if ∃ q ∈ l, Restarts q.2 then sinceRestart l else p :: l

/-- Does the list have a message for each number from `first` up to `expected`? The
numbers are 64-bit words and start again at zero after the last one. -/
def Covers (l : List (ℕ × List UInt8)) (first expected : ℕ) : Prop :=
  ∀ k < (expected + 2 ^ 64 - first % 2 ^ 64) % 2 ^ 64, ∃ q ∈ l, q.1 % 2 ^ 64 = (first + k) % 2 ^ 64

/-- With these messages given to the loop: while the feed is valid, none is missing since
its last restart. -/
def NoneMissing (l : List (ℕ × List UInt8)) (d : DutSession S) : Prop :=
  d.feedValid → ∀ p ∈ (sinceRestart l).head?, Covers (sinceRestart l) p.1 d.seq.expected

/-- Would the packet lose messages without a notice? It is taken in with fewer messages
than it announces, and the feed stays valid or is restarted by the packet. -/
def Loses (d : DutSession S) (pkt : List UInt8) : Prop :=
  d.Accepts pkt ∧ (Mold.messages pkt).length < Mold.announced pkt ∧
    (d.feedValid ∧ d.verdict pkt ≠ .gap ∨ ∃ msg ∈ Mold.messages pkt, Restarts msg)

instance (d : DutSession S) (pkt : List UInt8) : Decidable (d.Loses pkt) := by unfold Loses; infer_instance

/-- No packet loses messages. -/
def NoLoss (d : DutSession S) (i : Input) : Prop := ∀ pkt, i = .packet pkt → ¬ d.Loses pkt

/-- The messages that a step gives to the message loop, with their numbers. -/
def given (d : DutSession S) : Input → List (ℕ × List UInt8)
  | .packet pkt => if d.Accepts pkt then numbered (Mold.sequenceOf pkt) (Mold.messages pkt) else []
  | .ack _ | .coldFrame | .warmUp | .testOrder => []

/-- The messages that a run gives to the message loop. -/
def givenAll [Strategy S] (d : DutSession S) : List Input → List (ℕ × List UInt8)
  | [] => []
  | i :: ins => d.given i ++ (d.step i).givenAll ins

/-! ### Since the last restart -/

theorem sinceRestart_append_of_none {l l' : List (ℕ × List UInt8)} (h : ¬ ∃ q ∈ l', Restarts q.2) :
    sinceRestart (l ++ l') = sinceRestart l ++ l' := by
  induction l with
  | nil =>
      cases l' with
      | nil => rfl
      | cons p l' =>
          have hno : ¬ ∃ q ∈ l', Restarts q.2 := fun ⟨q, hq, hr⟩ => h ⟨q, List.mem_cons_of_mem _ hq, hr⟩
          simp only [List.nil_append, sinceRestart, if_neg hno]
  | cons p l ih =>
      rw [List.cons_append, sinceRestart, sinceRestart, ih]
      have hiff : (∃ q ∈ l ++ l', Restarts q.2) ↔ ∃ q ∈ l, Restarts q.2 := by
        simp only [List.mem_append, or_and_right, exists_or]
        exact or_iff_left h
      simp only [hiff]
      split_ifs <;> rfl

theorem sinceRestart_append_of_some {l l' : List (ℕ × List UInt8)} (h : ∃ q ∈ l', Restarts q.2) :
    sinceRestart (l ++ l') = sinceRestart l' := by
  induction l with
  | nil => rfl
  | cons p l ih =>
      obtain ⟨q, hq, hr⟩ := h
      rw [List.cons_append, sinceRestart, if_pos ⟨q, List.mem_append_right _ hq, hr⟩, ih]

/-- Of the messages of a packet, those from some message on. -/
theorem sinceRestart_numbered (n : ℕ) (msgs : List (List UInt8)) :
    ∃ j ≤ msgs.length, sinceRestart (numbered n msgs) = numbered (n + j) (msgs.drop j) := by
  induction msgs generalizing n with
  | nil => exact ⟨0, Nat.le_refl 0, rfl⟩
  | cons msg msgs ih =>
      rw [numbered, sinceRestart]
      split_ifs
      · obtain ⟨j, hj, heq⟩ := ih (n + 1)
        refine ⟨j + 1, Nat.succ_le_succ hj, ?_⟩
        rw [heq, List.drop_succ_cons, Nat.add_assoc, Nat.add_comm 1 j]
      · exact ⟨0, Nat.zero_le _, rfl⟩

/-! ### Covering -/

/-- The messages of a packet have the numbers that follow each other. -/
theorem exists_numbered (n : ℕ) (msgs : List (List UInt8)) {k : ℕ} (hk : k < msgs.length) :
    ∃ q ∈ numbered n msgs, q.1 = n + k := by
  induction msgs generalizing n k with
  | nil => exact absurd hk (Nat.not_lt_zero k)
  | cons msg msgs ih =>
      cases k with
      | zero => exact ⟨(n, msg), List.mem_cons_self, rfl⟩
      | succ k =>
          obtain ⟨q, hq, heq⟩ := ih (n + 1) (Nat.lt_of_succ_lt_succ hk)
          exact ⟨q, List.mem_cons_of_mem _ hq, by omega⟩

theorem covers_numbered (n : ℕ) (msgs : List (List UInt8)) :
    Covers (numbered n msgs) n ((n + msgs.length) % 2 ^ 64) := by
  intro k hk
  obtain ⟨q, hq, heq⟩ := exists_numbered n msgs (k := k) (by omega)
  exact ⟨q, hq, by rw [heq]⟩

/-- Messages that go on from the expected number cover what comes after it. -/
theorem Covers.append {l l' : List (ℕ × List UInt8)} {first expected c : ℕ} (h : Covers l first expected)
    (hnew : ∀ m < c, ∃ q ∈ l', q.1 % 2 ^ 64 = (expected + m) % 2 ^ 64) :
    Covers (l ++ l') first ((expected + c) % 2 ^ 64) := by
  intro k hk
  by_cases hold : k < (expected + 2 ^ 64 - first % 2 ^ 64) % 2 ^ 64
  · obtain ⟨q, hq, heq⟩ := h k hold
    exact ⟨q, List.mem_append_left _ hq, heq⟩
  · obtain ⟨q, hq, heq⟩ := hnew (k - (expected + 2 ^ 64 - first % 2 ^ 64) % 2 ^ 64) (by omega)
    exact ⟨q, List.mem_append_right _ hq, by omega⟩

/-! ### The invariant -/

/-- None of the messages given to the loop is missing; before the first packet there are
none. -/
structure Complete (l : List (ℕ × List UInt8)) (d : DutSession S) : Prop where
  none : NoneMissing l d
  fresh : d.seq.started = false → l = []
  word : d.seq.expected < 2 ^ 64

theorem Complete.congr {l : List (ℕ × List UInt8)} {d d' : DutSession S} (h : Complete l d)
    (hvalid : d'.feedValid = d.feedValid) (hexp : d'.seq.expected = d.seq.expected)
    (hstart : d'.seq.started = d.seq.started) : Complete l d' where
  none hv p hp := by rw [hexp]; exact h.none (by rw [← hvalid]; exact hv) p hp
  fresh hs := h.fresh (by rw [← hstart]; exact hs)
  word := by rw [hexp]; exact h.word

/-- What an accepted packet does to the numbers, if it holds what it announces. -/
theorem Complete.extend {l : List (ℕ × List UInt8)} {d : DutSession S} (h : Complete l d) {pkt : List UInt8}
    (hcount : (Mold.messages pkt).length = Mold.announced pkt) (hv : d.feedValid)
    (hr : d.verdict pkt = .inOrder) (p : ℕ × List UInt8)
    (hp : p ∈ (sinceRestart l ++ numbered (Mold.sequenceOf pkt) (Mold.messages pkt)).head?) :
    Covers (sinceRestart l ++ numbered (Mold.sequenceOf pkt) (Mold.messages pkt)) p.1
      (d.seq.onPacket (Mold.sequenceOf pkt) (Mold.countOf pkt)).2.expected := by
  have hword := h.word
  have hadv := SequenceTracker.advance_countOf pkt
  unfold verdict at hr
  unfold SequenceTracker.onPacket at hr ⊢
  simp only [hadv, ← hcount] at hr ⊢
  have hfirst : sinceRestart l = [] → Covers (sinceRestart l ++
      numbered (Mold.sequenceOf pkt) (Mold.messages pkt)) p.1
      ((Mold.sequenceOf pkt + (Mold.messages pkt).length) % 2 ^ 64) := by
    intro hnil
    rw [hnil, List.nil_append] at hp ⊢
    cases hm : Mold.messages pkt with
    | nil => rw [hm] at hp; cases hp
    | cons msg msgs =>
        rw [hm] at hp
        obtain rfl : (Mold.sequenceOf pkt, msg) = p := by simpa [numbered] using hp
        exact covers_numbered _ (msg :: msgs)
  split_ifs at hr ⊢ with hs heq hgt hstr
  · exact hfirst (by rw [h.fresh (by simpa using hs)]; rfl)
  · -- the packet starts at the expected number
    cases hold : sinceRestart l with
    | nil => rw [← hold, ← heq]; exact hfirst hold
    | cons p' l' =>
        rw [hold] at hp
        obtain rfl : p' = p := by simpa using hp
        rw [← hold]
        refine (h.none hv p' (by rw [hold]; rfl)).append fun m hm => ?_
        obtain ⟨q, hq, hnum⟩ := exists_numbered (Mold.sequenceOf pkt) _ hm
        exact ⟨q, hq, by rw [hnum, heq]⟩
  · -- the packet reaches back, and over the expected number
    cases hold : sinceRestart l with
    | nil => rw [← hold]; exact hfirst hold
    | cons p' l' =>
        rw [hold] at hp
        obtain rfl : p' = p := by simpa using hp
        rw [← hold]
        have hlt := hstr.2
        have hle : (Mold.messages pkt).length < 2 ^ 16 := by
          rw [hcount]
          exact Mold.announced_lt pkt
        have hsum : (d.seq.expected + (Mold.sequenceOf pkt + (Mold.messages pkt).length - d.seq.expected)) % 2 ^ 64 =
            (Mold.sequenceOf pkt + (Mold.messages pkt).length) % 2 ^ 64 := by omega
        rw [← hsum]
        refine (h.none hv p' (by rw [hold]; rfl)).append fun m hm => ?_
        obtain ⟨q, hq, hnum⟩ := exists_numbered (Mold.sequenceOf pkt) (Mold.messages pkt)
          (k := d.seq.expected + m - Mold.sequenceOf pkt) (by omega)
        exact ⟨q, hq, by rw [hnum]; omega⟩

variable [Strategy S]

/-- A packet that loses nothing keeps the invariant. -/
theorem Complete.applyPacket {l : List (ℕ × List UInt8)} {d : DutSession S} (h : Complete l d) {pkt : List UInt8}
    (hno : ¬ d.Loses pkt) : Complete (l ++ d.given (.packet pkt)) (d.applyPacket pkt) := by
  simp only [given]
  by_cases hacc : d.Accepts pkt
  · obtain ⟨hseq, -, -⟩ := histories_of_accepts hacc
    obtain ⟨_, -, hvalid, -⟩ := afterMessages_spec d pkt
    obtain ⟨_, hf⟩ := finish_finishes (d.afterMessages pkt) pkt
    have hvalid' : (d.applyPacket pkt).feedValid ↔
        d.feedValid ∧ d.verdict pkt ≠ .gap ∨ ∃ msg ∈ Mold.messages pkt, Restarts msg := by
      rw [applyPacket_of_accepts hacc, hf.feedValid, hvalid]
    rw [if_pos hacc]
    refine ⟨fun hv p hp => ?_, fun hs => ?_, ?_⟩
    · have hcount : (Mold.messages pkt).length = Mold.announced pkt :=
        Nat.le_antisymm (Mold.length_messages_le pkt) <|
          Nat.le_of_not_lt fun hlt => hno ⟨hacc, hlt, hvalid'.mp hv⟩
      rw [hseq]
      by_cases hre : ∃ msg ∈ Mold.messages pkt, Restarts msg
      · -- the history starts afresh within the packet
        have hre' : ∃ q ∈ numbered (Mold.sequenceOf pkt) (Mold.messages pkt), Restarts q.2 := by
          obtain ⟨msg, hm, hr⟩ := hre
          obtain ⟨n, hn⟩ := exists_mem_numbered (Mold.sequenceOf pkt) hm
          exact ⟨_, hn, hr⟩
        rw [sinceRestart_append_of_some hre'] at hp ⊢
        obtain ⟨j, hj, heq⟩ := sinceRestart_numbered (Mold.sequenceOf pkt) (Mold.messages pkt)
        rw [heq] at hp ⊢
        have hexp := SequenceTracker.expected_mod_onPacket hacc.2
        rw [SequenceTracker.advance_countOf, ← hcount] at hexp
        cases hm : (Mold.messages pkt).drop j with
        | nil => rw [hm] at hp; cases hp
        | cons msg msgs =>
            have hlen := congrArg List.length hm
            rw [List.length_drop] at hlen
            have := covers_numbered (Mold.sequenceOf pkt + j) ((Mold.messages pkt).drop j)
            rw [List.length_drop, Nat.add_assoc, Nat.add_sub_cancel' hj, ← hexp] at this
            rw [hm] at hp this
            obtain rfl : (Mold.sequenceOf pkt + j, msg) = p := by simpa [numbered] using hp
            exact this
      · have hre' : ¬ ∃ q ∈ numbered (Mold.sequenceOf pkt) (Mold.messages pkt), Restarts q.2 := by
          rintro ⟨q, hq, hr⟩
          exact hre ⟨q.2, mem_of_mem_numbered hq, hr⟩
        obtain ⟨hv', hgap⟩ := (hvalid'.mp hv).resolve_right hre
        rw [sinceRestart_append_of_none hre'] at hp ⊢
        refine h.extend hcount hv' ?_ p hp
        have hstale := hacc.2
        cases hr : d.verdict pkt
        · rfl
        · exact absurd hr hgap
        · exact absurd hr hstale
    · rw [hseq] at hs
      exact absurd hs (by rw [SequenceTracker.started_onPacket]; decide)
    · rw [hseq]
      exact SequenceTracker.expected_onPacket_lt h.word _ _
  · rw [if_neg hacc, List.append_nil]
    obtain he | ⟨hstale, he⟩ := applyPacket_of_not_accepts hacc
    · rw [he]; exact h
    · obtain ⟨hexp, hst⟩ := SequenceTracker.expected_onPacket_of_stale hstale
      rw [he]
      exact h.congr rfl hexp hst

/-- Every step that loses nothing keeps the invariant. -/
theorem Complete.step {l : List (ℕ × List UInt8)} {d : DutSession S} (h : Complete l d) {i : Input}
    (hno : d.NoLoss i) : Complete (l ++ d.given i) (d.step i) := by
  cases i with
  | packet bytes => exact h.applyPacket (hno bytes rfl)
  | ack bytes => rw [given, List.append_nil]; exact h.congr rfl rfl rfl
  | coldFrame => rw [given, List.append_nil]; exact h.congr rfl rfl rfl
  | warmUp =>
      obtain ⟨strats, oms, log, heq⟩ := warmQuotePath_eq d
      rw [given, List.append_nil, DutSession.step, heq]
      exact h.congr rfl rfl rfl
  | testOrder => rw [given, List.append_nil]; exact h.congr rfl rfl rfl

theorem Complete.run {l : List (ℕ × List UInt8)} {d : DutSession S} (h : Complete l d) {ins : List Input}
    (hno : EachStep NoLoss d ins) : Complete (l ++ d.givenAll ins) (d.run ins) := by
  induction ins generalizing d l with
  | nil => rw [givenAll, List.append_nil]; exact h
  | cons i ins ih =>
      rw [givenAll, ← List.append_assoc]
      exact ih (h.step hno.1) hno.2

/-- **No silent loss**: in every run over any packets, as long as no packet is cut off
while it leaves the feed valid, a valid feed means that the message loop was given every
message from the last restart up to the expected number. -/
theorem no_silent_loss (cfg : DutConfig) (strat : S) (link : ℕ → Bool) (ins : List Input)
    (hno : EachStep NoLoss (new cfg strat link) ins) :
    NoneMissing ((new cfg strat link).givenAll ins) ((new cfg strat link).run ins) := by
  have h : Complete [] (new cfg strat link) := ⟨fun _ p hp => (nomatch hp), fun _ => rfl, Nat.two_pow_pos 64⟩
  exact (h.run hno).none

/-- A restart and a bid, and then a packet that goes on. -/
theorem no_silent_loss_sample :
    NoneMissing
      ((oneSymbol false []).givenAll [packetOf 1 [systemEvent 79, sampleAdd], packetOf 3 [tradingAction 84]])
      ((oneSymbol false []).run [packetOf 1 [systemEvent 79, sampleAdd], packetOf 3 [tradingAction 84]]) := by
  refine no_silent_loss _ _ _ _ ⟨?_, ?_, trivial⟩
  all_goals
    rintro _ ⟨⟩
    decide

/-- A packet that announces two messages and holds only one, a restart. -/
def cutOff : List UInt8 := Mold.sessionField [] ++ Mold.put 8 1 ++ Mold.put 2 2 ++ Mold.frame (systemEvent 79)

/-- The second message is cut off, and the next packet goes on behind it: the feed is
valid, and message `2` was never given to the loop. -/
theorem cutOff_unnoticed :
    let ins := [.packet cutOff, packetOf 3 [tradingAction 84]]
    ((oneSymbol false []).run ins).feedValid ∧ ((oneSymbol false []).run ins).seq.expected = 4 ∧
      (((oneSymbol false []).givenAll ins).map Prod.fst) = [1, 3] ∧
      ¬ NoneMissing ((oneSymbol false []).givenAll ins) ((oneSymbol false []).run ins) := by
  intro ins
  have hvalid : ((oneSymbol false []).run ins).feedValid := by decide +kernel
  have hexp : ((oneSymbol false []).run ins).seq.expected = 4 := by decide +kernel
  refine ⟨hvalid, hexp, by decide +kernel, fun h => ?_⟩
  have hcov := h hvalid (1, systemEvent 79) (by decide +kernel)
  rw [hexp] at hcov
  exact absurd (hcov 1 (by decide)) (by decide +kernel)

end TickToTrade.Dut.DutSession
