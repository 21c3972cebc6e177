import TickToTrade.Protocol.MoldUdp64

/-!
# The sequence tracker

The tracker follows the packets of the feed by the sequence numbers of their headers.
It decides for a whole packet at a time: the packet is in order, or comes after a
gap, or brings nothing new. All its numbers are 64-bit words.
-/

namespace TickToTrade.Dut

/-- `SequenceTracker`. -/
structure SequenceTracker where
  /-- The number of the next message. -/
  expected : ℕ := 0
  /-- The gaps seen. -/
  gaps : ℕ := 0
  /-- The messages lost in the gaps. -/
  missed : ℕ := 0
  /-- The packets that brought nothing new. -/
  stale : ℕ := 0
  /-- Has a packet been seen? -/
  started : Bool := false

namespace SequenceTracker

/-- What the tracker says of a packet. -/
inductive Result where
  | inOrder
  | gap
  | stale
deriving DecidableEq, Repr

/-- By how much a packet with this count moves the expected number. -/
def advance (count : ℕ) : ℕ :=
  if count ≠ Mold.kHeartbeat ∧ count ≠ Mold.kEndOfSession then count else 0

/-- Take in the header of a packet. -/
def onPacket (t : SequenceTracker) (seq count : ℕ) : Result × SequenceTracker :=
  let carries := count ≠ Mold.kHeartbeat ∧ count ≠ Mold.kEndOfSession
  let next := (seq + advance count) % 2 ^ 64
  if !t.started then (.inOrder, { t with started := true, expected := next })
  else if seq = t.expected then
    (.inOrder, { t with expected := (t.expected + advance count) % 2 ^ 64 })
  else if seq > t.expected then
    (.gap, { t with
      gaps := (t.gaps + 1) % 2 ^ 64
      missed := (t.missed + (seq - t.expected)) % 2 ^ 64
      expected := next })
  else if carries ∧ next > t.expected then (.inOrder, { t with expected := next })
  else (.stale, { t with stale := (t.stale + 1) % 2 ^ 64 })

/-- Does a packet reach back behind the expected number and beyond it? The tracker
takes such a packet for one in order. -/
def Straddles (t : SequenceTracker) (seq count : ℕ) : Prop :=
  t.started ∧ seq < t.expected ∧ t.expected < seq + advance count

instance (t : SequenceTracker) (seq count : ℕ) : Decidable (t.Straddles seq count) := by
  unfold Straddles; infer_instance

theorem advance_countOf (pkt : List UInt8) : advance (Mold.countOf pkt) = Mold.announced pkt := by
  unfold advance Mold.announced
  split_ifs <;> simp_all

variable {t : SequenceTracker} {seq count : ℕ}

/-- After a packet that does not wrap around, and that the tracker does not drop, the
numbers of its messages are used up. -/
theorem expected_onPacket (hw : seq + advance count < 2 ^ 64) (hr : (t.onPacket seq count).1 ≠ .stale) :
    (t.onPacket seq count).2.expected = seq + advance count ∧ (t.onPacket seq count).2.started := by
  unfold onPacket at hr ⊢
  simp only at hr ⊢
  split_ifs at hr ⊢ with h1 h2 h3 h4
  · exact ⟨Nat.mod_eq_of_lt hw, rfl⟩
  · exact ⟨by rw [← h2]; exact Nat.mod_eq_of_lt hw, by simpa using h1⟩
  · exact ⟨Nat.mod_eq_of_lt hw, by simpa using h1⟩
  · exact ⟨Nat.mod_eq_of_lt hw, by simpa using h1⟩
  · exact absurd rfl hr

/-- The same with the wrap-around. -/
theorem expected_mod_onPacket (hr : (t.onPacket seq count).1 ≠ .stale) :
    (t.onPacket seq count).2.expected = (seq + advance count) % 2 ^ 64 := by
  unfold onPacket at hr ⊢
  simp only at hr ⊢
  split_ifs at hr ⊢ with h1 h2 h3 h4
  · rfl
  · rw [h2]
  · rfl
  · rfl
  · exact absurd rfl hr

/-- After any packet the tracker has started. -/
theorem started_onPacket (t : SequenceTracker) (seq count : ℕ) : (t.onPacket seq count).2.started = true := by
  unfold onPacket
  simp only
  split_ifs with h1
  · rfl
  all_goals simpa using h1

theorem expected_onPacket_lt (h : t.expected < 2 ^ 64) (seq count : ℕ) :
    (t.onPacket seq count).2.expected < 2 ^ 64 := by
  unfold onPacket
  simp only
  split_ifs
  all_goals first | exact Nat.mod_lt _ (by decide) | exact h

/-- A dropped packet leaves the expected number. -/
theorem expected_onPacket_of_stale (hr : (t.onPacket seq count).1 = .stale) :
    (t.onPacket seq count).2.expected = t.expected ∧ (t.onPacket seq count).2.started = t.started := by
  unfold onPacket at hr ⊢
  simp only at hr ⊢
  split_ifs at hr ⊢ with h1 h2 h3 h4
  exact ⟨rfl, rfl⟩

/-- Only a packet that straddles the expected number brings back old messages: any
other one that is not dropped starts at the expected number or later. -/
theorem expected_le_of_not_straddles (hw : seq + advance count < 2 ^ 64)
    (hr : (t.onPacket seq count).1 ≠ .stale) (hs : ¬ t.Straddles seq count) (ht : t.started) :
    t.expected ≤ seq := by
  by_contra hlt
  unfold onPacket at hr
  simp only at hr
  rw [if_neg (by simp [ht]), if_neg (by omega), if_neg (by omega), Nat.mod_eq_of_lt hw] at hr
  split_ifs at hr with h
  · exact hs ⟨ht, by omega, h.2⟩
  · exact hr rfl

end SequenceTracker

end TickToTrade.Dut
