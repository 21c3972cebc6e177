import TickToTrade.Protocol.Itch50

/-!
# MoldUDP64 packets

A packet of the feed is a header of 20 bytes, with the sequence number of its first
message and the number of its messages, and then each message behind its length.
Two counts are not numbers of messages: a heartbeat and the end of the session
carry none.
-/

namespace TickToTrade.Mold

open Itch (byteAt beAt)

/-- The length of the header. -/
def kHeaderSize : ℕ := 20

/-- The offset of the sequence number. -/
def kSequenceOffset : ℕ := 10

/-- The offset of the message count. -/
def kCountOffset : ℕ := 18

/-- The bytes of a message's length. -/
def kLengthPrefix : ℕ := 2

/-- The count of a heartbeat. -/
def kHeartbeat : ℕ := 0

/-- The count of the end of the session. -/
def kEndOfSession : ℕ := 0xFFFF

/-- The sequence number of a packet's first message. -/
def sequenceOf (pkt : List UInt8) : ℕ := beAt pkt kSequenceOffset 8

/-- The message count in a packet's header. -/
def countOf (pkt : List UInt8) : ℕ := beAt pkt kCountOffset 2

/-- The message at an offset and the offset after it, if all of it is there. -/
def nextMessage (pkt : List UInt8) (off : ℕ) : Option (List UInt8 × ℕ) :=
  if off + kLengthPrefix > pkt.length then none
  else
    let mlen := beAt pkt off 2
    if off + kLengthPrefix + mlen > pkt.length then none
    else some ((pkt.drop (off + kLengthPrefix)).take mlen, off + kLengthPrefix + mlen)

/-- The messages that a loop over `nextMessage` reads: at most `count`, and none
after the first that is cut off. -/
def messagesFrom (pkt : List UInt8) : ℕ → ℕ → List (List UInt8)
  | 0, _ => []
  | count + 1, off =>
      match nextMessage pkt off with
      | none => []
      | some (msg, off) => msg :: messagesFrom pkt count off

/-- The number of messages that a packet announces. -/
def announced (pkt : List UInt8) : ℕ :=
  if countOf pkt = kHeartbeat ∨ countOf pkt = kEndOfSession then 0 else countOf pkt

/-- The messages of a packet. -/
def messages (pkt : List UInt8) : List (List UInt8) := messagesFrom pkt (announced pkt) kHeaderSize

theorem length_messagesFrom_le (pkt : List UInt8) (count off : ℕ) :
    (messagesFrom pkt count off).length ≤ count := by
  induction count generalizing off with
  | zero => exact Nat.le_refl 0
  | succ count ih =>
      rw [messagesFrom]
      cases h : nextMessage pkt off with
      | none => exact Nat.zero_le _
      | some next => exact Nat.succ_le_succ (ih next.2)

/-- A packet holds no more messages than it announces. -/
theorem length_messages_le (pkt : List UInt8) : (messages pkt).length ≤ announced pkt :=
  length_messagesFrom_le pkt _ _

theorem beAt_lt (msg : List UInt8) (off n : ℕ) : beAt msg off n < 256 ^ n := by
  induction n with
  | zero => exact Nat.one_pos
  | succ n ih =>
      have hbyte : byteAt msg (off + n) < 256 := by
        unfold byteAt
        exact UInt8.toNat_lt _
      rw [beAt, Nat.pow_succ]
      omega

theorem announced_lt (pkt : List UInt8) : announced pkt < 2 ^ 16 := by
  have h := beAt_lt pkt kCountOffset 2
  unfold announced countOf
  split_ifs
  · decide
  · exact h

/-! ### Writing packets -/

/-- The last `n` bytes of a number, the big end first. -/
def put : ℕ → ℕ → List UInt8
  | 0, _ => []
  | n + 1, v => put n (v / 256) ++ [UInt8.ofNat (v % 256)]

/-- A message behind its length, as `Packer::append` writes it. -/
def frame (msg : List UInt8) : List UInt8 := put 2 msg.length ++ msg

/-- The name of a session, padded to its field. -/
def sessionField (session : List UInt8) : List UInt8 := (session ++ List.replicate 10 32).take 10

/-- The packet that a `Packer` makes of these messages. -/
def pack (session : List UInt8) (seq : ℕ) (msgs : List (List UInt8)) : List UInt8 :=
  sessionField session ++ put 8 seq ++ put 2 msgs.length ++ msgs.flatMap frame

@[simp] theorem length_put (n v : ℕ) : (put n v).length = n := by
  induction n generalizing v with
  | zero => rfl
  | succ n ih => simp [put, ih]

@[simp] theorem length_sessionField (session : List UInt8) : (sessionField session).length = 10 := by
  simp [sessionField]

theorem byteAt_append (l l' : List UInt8) (i : ℕ) : byteAt (l ++ l') (l.length + i) = byteAt l' i := by
  simp [byteAt, List.getElem?_append_right]

theorem beAt_append (l l' : List UInt8) (off n : ℕ) : beAt (l ++ l') (l.length + off) n = beAt l' off n := by
  induction n with
  | zero => rfl
  | succ n ih => rw [beAt, beAt, ih, Nat.add_assoc, byteAt_append]

theorem beAt_append_left {l : List UInt8} (l' : List UInt8) {n : ℕ} (h : n ≤ l.length) :
    beAt (l ++ l') 0 n = beAt l 0 n := by
  induction n with
  | zero => rfl
  | succ n ih =>
      rw [beAt, beAt, ih (by omega)]
      simp [byteAt, List.getElem?_append_left (Nat.lt_of_lt_of_le (Nat.lt_succ_self n) h)]

/-- What was put is read back. -/
theorem beAt_put (n v : ℕ) (l : List UInt8) : beAt (put n v ++ l) 0 n = v % 256 ^ n := by
  rw [beAt_append_left l (Nat.le_of_eq (length_put n v).symm)]
  induction n generalizing v with
  | zero => simp [beAt, Nat.mod_one]
  | succ n ih =>
      have hlast : byteAt (put n (v / 256) ++ [UInt8.ofNat (v % 256)]) (0 + n) = v % 256 := by
        have h := byteAt_append (put n (v / 256)) [UInt8.ofNat (v % 256)] 0
        rw [length_put, Nat.add_zero] at h
        rw [Nat.zero_add, h]
        simp [byteAt]
      rw [beAt, put, hlast, beAt_append_left _ (Nat.le_of_eq (length_put n _).symm), ih, Nat.pow_succ',
        Nat.mod_mul]
      omega

theorem sequenceOf_pack (session : List UInt8) (seq : ℕ) (msgs : List (List UInt8)) :
    sequenceOf (pack session seq msgs) = seq % 2 ^ 64 := by
  have h := beAt_append (sessionField session) (put 8 seq ++ (put 2 msgs.length ++ msgs.flatMap frame)) 0 8
  rw [length_sessionField, beAt_put] at h
  rw [sequenceOf, pack, List.append_assoc, List.append_assoc]
  exact h

theorem countOf_pack (session : List UInt8) (seq : ℕ) (msgs : List (List UInt8)) :
    countOf (pack session seq msgs) = msgs.length % 2 ^ 16 := by
  have h := beAt_append (sessionField session ++ put 8 seq) (put 2 msgs.length ++ msgs.flatMap frame) 0 2
  rw [List.length_append, length_sessionField, length_put, beAt_put] at h
  rw [countOf, pack, List.append_assoc]
  exact h

/-- Behind any bytes, a framed message is the next one. -/
theorem nextMessage_frame {msg : List UInt8} (h : msg.length < 2 ^ 16) (pre post : List UInt8) :
    nextMessage (pre ++ (frame msg ++ post)) pre.length = some (msg, pre.length + 2 + msg.length) := by
  have hlen : beAt (pre ++ (frame msg ++ post)) pre.length 2 = msg.length := by
    have h' := beAt_append pre (frame msg ++ post) 0 2
    rw [Nat.add_zero, frame, List.append_assoc, beAt_put] at h'
    rw [frame, List.append_assoc, h']
    exact Nat.mod_eq_of_lt h
  have hlong : (pre ++ (frame msg ++ post)).length = pre.length + (2 + msg.length + post.length) := by
    simp only [frame, List.length_append, length_put]
  unfold nextMessage
  simp only [hlen, hlong, kLengthPrefix]
  rw [if_neg (by omega), if_neg (by omega)]
  have hdrop : (pre ++ (frame msg ++ post)).drop (pre.length + 2) = msg ++ post := by
    rw [frame, List.append_assoc, ← List.append_assoc]
    exact List.drop_left' (by simp)
  rw [hdrop, List.take_left]

theorem messagesFrom_frames (msgs : List (List UInt8)) (h : ∀ msg ∈ msgs, msg.length < 2 ^ 16)
    (pre : List UInt8) : messagesFrom (pre ++ msgs.flatMap frame) msgs.length pre.length = msgs := by
  induction msgs generalizing pre with
  | nil => rfl
  | cons msg msgs ih =>
      have hnext := nextMessage_frame (h msg (by simp)) pre (msgs.flatMap frame)
      have hrest := ih (fun m hm => h m (by simp [hm])) (pre ++ frame msg)
      rw [List.append_assoc] at hrest
      rw [List.flatMap_cons, List.length_cons, messagesFrom, hnext]
      simp only
      rw [show pre.length + 2 + msg.length = (pre ++ frame msg).length by simp [frame]; omega, hrest]

/-- **A packet is read back as the messages it was made of**, as long as their number
is not taken for the end of the session and each fits its length. -/
theorem messages_pack (session : List UInt8) (seq : ℕ) {msgs : List (List UInt8)}
    (hcount : msgs.length < kEndOfSession) (hlen : ∀ msg ∈ msgs, msg.length < 2 ^ 16) :
    messages (pack session seq msgs) = msgs := by
  have hc : countOf (pack session seq msgs) = msgs.length := by
    rw [countOf_pack]
    exact Nat.mod_eq_of_lt (Nat.lt_trans hcount (by decide))
  have hannounced : announced (pack session seq msgs) = msgs.length := by
    rw [announced, hc]
    split_ifs with h
    · obtain h | h := h
      · exact h.symm
      · omega
    · rfl
  have h := messagesFrom_frames msgs hlen (sessionField session ++ put 8 seq ++ put 2 msgs.length)
  rw [messages, hannounced, pack]
  rw [show (sessionField session ++ put 8 seq ++ put 2 msgs.length).length = kHeaderSize by simp; rfl] at h
  exact h

end TickToTrade.Mold
