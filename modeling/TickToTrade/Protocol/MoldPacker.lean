import TickToTrade.Protocol.MoldUdp64

/-!
# Writing MoldUDP64 packets

A `Packer` writes messages into a buffer until one does not fit, and then the header in
front of them. The sequence number of the header is the one that the packer had when the
buffer was new. `Packed` says which messages a packer holds; a finished packet is read
back as these.
-/

namespace TickToTrade.Mold

/-- `forEachMessage`: the messages of a packet with their sequence numbers, 64-bit words. -/
def forEachMessage (pkt : List UInt8) : List (ℕ × List UInt8) :=
  if pkt.length < kHeaderSize then []
  else (messages pkt).mapIdx fun i msg => ((sequenceOf pkt + i) % 2 ^ 64, msg)

/-- Messages with the numbers that they have from `first` on, 64-bit words. -/
def inSequence (first : ℕ) (msgs : List (List UInt8)) : List (ℕ × List UInt8) :=
  msgs.mapIdx fun i msg => ((first + i) % 2 ^ 64, msg)

theorem inSequence_append (first : ℕ) (msgs msgs' : List (List UInt8)) :
    inSequence first (msgs ++ msgs') = inSequence first msgs ++ inSequence (first + msgs.length) msgs' := by
  unfold inSequence
  rw [List.mapIdx_append]
  simp only [Nat.add_assoc, Nat.add_comm msgs.length]

/-- Only the 64-bit word of the first number matters. -/
theorem inSequence_mod (first : ℕ) (msgs : List (List UInt8)) :
    inSequence (first % 2 ^ 64) msgs = inSequence first msgs := by
  unfold inSequence
  simp only [Nat.mod_add_mod]

/-- `Packer`. The buffer is the part of it between the header and `len`. -/
structure Packer where
  session : List UInt8
  /-- The number of the next message, a 64-bit word. -/
  seq : ℕ
  /-- The number of the first message in the buffer. -/
  firstSeq : ℕ := 0
  cap : ℕ := 0
  len : ℕ := 0
  /-- A 16-bit word. -/
  count : ℕ := 0
  body : List UInt8 := []

namespace Packer

/-- The constructor. -/
def new (session : List UInt8) (firstSeq : ℕ) : Packer where
  session := session
  seq := firstSeq

def reset (p : Packer) (cap : ℕ) : Packer :=
  { p with cap := cap, len := kHeaderSize, count := 0, firstSeq := p.seq, body := [] }

def append (p : Packer) (msg : List UInt8) : Bool × Packer :=
  let need := 2 + msg.length
  if p.len + need > p.cap ∨ p.count ≥ kEndOfSession - 1 then (false, p)
  else
    (true, { p with
      body := p.body ++ frame msg
      len := p.len + need
      count := (p.count + 1) % 2 ^ 16
      seq := (p.seq + 1) % 2 ^ 64 })

/-- The packet: `writeHeader` in front of the buffer. -/
def finalize (p : Packer) : List UInt8 := sessionField p.session ++ put 8 p.firstSeq ++ put 2 p.count ++ p.body

/-- The packer holds these messages. -/
structure Packed (p : Packer) (msgs : List (List UInt8)) : Prop where
  body : p.body = msgs.flatMap frame
  len : p.len = kHeaderSize + p.body.length
  count : p.count = msgs.length
  seq : p.seq = (p.firstSeq + msgs.length) % 2 ^ 64
  fits : p.len ≤ p.cap
  below : msgs.length < kEndOfSession
  short : ∀ msg ∈ msgs, msg.length < 2 ^ 16

theorem length_frame (msg : List UInt8) : (frame msg).length = 2 + msg.length := by
  rw [frame, List.length_append, length_put]

theorem packed_reset {p : Packer} (hseq : p.seq < 2 ^ 64) {cap : ℕ} (hcap : kHeaderSize ≤ cap) :
    (p.reset cap).Packed [] where
  body := rfl
  len := rfl
  count := rfl
  seq := (Nat.mod_eq_of_lt hseq).symm
  fits := hcap
  below := by decide
  short _ h := absurd h List.not_mem_nil

/-- A message fits, or the packer is full and stays as it is. -/
theorem append_cases (p : Packer) (msg : List UInt8) :
    (p.append msg).1 = true ∧ p.len + (2 + msg.length) ≤ p.cap ∧ p.count < kEndOfSession - 1 ∨
      p.append msg = (false, p) := by
  unfold append
  simp only
  split_ifs with hfull
  · exact .inr rfl
  · exact .inl ⟨rfl, by omega, by omega⟩

namespace Packed

variable {p : Packer} {msgs : List (List UInt8)} {msg : List UInt8}

/-- A message that fits joins the buffer. -/
theorem append (h : p.Packed msgs) (hshort : msg.length < 2 ^ 16)
    (hfits : p.len + (2 + msg.length) ≤ p.cap) (hcount : p.count < kEndOfSession - 1) :
    (p.append msg).1 = true ∧ (p.append msg).2.Packed (msgs ++ [msg]) ∧
      (p.append msg).2.firstSeq = p.firstSeq ∧ (p.append msg).2.cap = p.cap ∧ (p.append msg).2.session = p.session := by
  have hroom : ¬ (p.len + (2 + msg.length) > p.cap ∨ p.count ≥ kEndOfSession - 1) := by omega
  have hcount' := h.count
  have hlt : msgs.length + 1 < 2 ^ 16 := by
    have : kEndOfSession - 1 < 2 ^ 16 - 1 := by decide
    omega
  unfold Packer.append
  simp only [if_neg hroom]
  refine ⟨trivial, ⟨?_, ?_, ?_, ?_, hfits, ?_, ?_⟩, trivial, trivial, trivial⟩
  · rw [h.body, List.flatMap_append, List.flatMap_singleton]
  · rw [h.len, List.length_append, length_frame, Nat.add_assoc]
  · rw [h.count, List.length_append, List.length_singleton, Nat.mod_eq_of_lt hlt]
  · rw [h.seq, List.length_append, List.length_singleton, Nat.mod_add_mod, Nat.add_assoc]
  · rw [List.length_append, List.length_singleton]
    omega
  · intro m hm
    obtain hm | hm := List.mem_append.mp hm
    · exact h.short m hm
    · rw [List.mem_singleton.mp hm]
      exact hshort

theorem finalize_eq (h : p.Packed msgs) : p.finalize = pack p.session p.firstSeq msgs := by
  rw [finalize, pack, h.body, h.count]

theorem length_finalize (h : p.Packed msgs) : p.finalize.length = p.len := by
  rw [h.len, finalize]
  simp only [List.length_append, length_sessionField, length_put]
  rfl

/-- **A finished packet is read back** as the messages that it holds, numbered on from
its first. -/
theorem forEachMessage_finalize (h : p.Packed msgs) : forEachMessage p.finalize = inSequence p.firstSeq msgs := by
  have hlong : ¬ p.finalize.length < kHeaderSize := by
    rw [h.length_finalize, h.len]
    omega
  rw [forEachMessage, if_neg hlong, h.finalize_eq, messages_pack _ _ h.below h.short, sequenceOf_pack]
  exact inSequence_mod p.firstSeq msgs

theorem countOf_finalize (h : p.Packed msgs) : countOf p.finalize = msgs.length := by
  rw [h.finalize_eq, countOf_pack]
  exact Nat.mod_eq_of_lt (Nat.lt_trans h.below (by decide))

theorem sequenceOf_finalize (h : p.Packed msgs) : sequenceOf p.finalize = p.firstSeq % 2 ^ 64 := by
  rw [h.finalize_eq, sequenceOf_pack]

end Packed

end Packer

end TickToTrade.Mold
