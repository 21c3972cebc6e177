import TickToTrade.Protocol.Itch50

/-!
# Files of ITCH messages

A file holds messages one behind the other, each behind its length of two bytes; a length
of zero is skipped, and a message that is cut off ends the file. A file that is not
compressed is mapped. Otherwise zlib reads it into a buffer, in pieces whose sizes nobody
promises (`Gz`). Both readers find the same messages (`messagesOf`) if the buffer has room for
each of them behind its length.

The bytes of the buffer before `m_pos`, which nothing reads again, are left out.
-/

namespace TickToTrade.Replay

/-- The length in front of a message. -/
def lengthOf (a b : UInt8) : ℕ := a.toNat * 256 + b.toNat

theorem lengthOf_lt (a b : UInt8) : lengthOf a b < 2 ^ 16 := by
  have ha := UInt8.toNat_lt a
  have hb := UInt8.toNat_lt b
  unfold lengthOf
  omega

/-! ### A mapped file -/

/-- `nextMapped`, from the rest of the mapping on: the next message and the rest after it. -/
def nextMapped : List UInt8 → Option (List UInt8) × List UInt8
  | a :: b :: rest =>
      if lengthOf a b = 0 then nextMapped rest
      else if rest.length < lengthOf a b then (none, a :: b :: rest)
      else (some (rest.take (lengthOf a b)), rest.drop (lengthOf a b))
  | rest => (none, rest)

/-- Reading a message shortens the rest. -/
theorem length_nextMapped {bytes rest msg : List UInt8} (h : nextMapped bytes = (some msg, rest)) :
    rest.length < bytes.length := by
  induction bytes using nextMapped.induct with
  | case1 a b tail hzero ih =>
      rw [nextMapped, if_pos hzero] at h
      have := ih h
      simp only [List.length_cons]
      omega
  | case2 a b tail hzero hshort =>
      rw [nextMapped, if_neg hzero, if_pos hshort] at h
      cases h
  | case3 a b tail hzero hshort =>
      rw [nextMapped, if_neg hzero, if_neg hshort] at h
      cases h
      simp only [List.length_drop, List.length_cons]
      omega
  | case4 bytes hbytes =>
      rw [nextMapped.eq_2 bytes hbytes] at h
      cases h

/-- Read at most so many messages. -/
def readMapped : ℕ → List UInt8 → List (List UInt8)
  | 0, _ => []
  | n + 1, bytes =>
      match nextMapped bytes with
      | (some msg, rest) => msg :: readMapped n rest
      | (none, _) => []

/-- The messages of a file. -/
def messagesOf (bytes : List UInt8) : List (List UInt8) := readMapped bytes.length bytes

theorem readMapped_eq {n m : ℕ} {bytes : List UInt8} (hn : bytes.length ≤ n) (hm : bytes.length ≤ m) :
    readMapped n bytes = readMapped m bytes := by
  induction n generalizing m bytes with
  | zero =>
      obtain rfl := List.length_eq_zero_iff.mp (Nat.le_zero.mp hn)
      cases m <;> rfl
  | succ n ih =>
      cases m with
      | zero =>
          obtain rfl := List.length_eq_zero_iff.mp (Nat.le_zero.mp hm)
          rfl
      | succ m =>
          rw [readMapped, readMapped]
          cases h : nextMapped bytes with
          | mk msg rest =>
              cases msg with
              | none => rfl
              | some msg =>
                  have hlt := length_nextMapped h
                  simp only
                  rw [ih (show rest.length ≤ n by omega) (show rest.length ≤ m by omega)]

theorem messagesOf_of_none {bytes rest : List UInt8} (h : nextMapped bytes = (none, rest)) : messagesOf bytes = [] := by
  unfold messagesOf
  cases bytes with
  | nil => rfl
  | cons a tail => rw [List.length_cons, readMapped, h]

theorem messagesOf_of_some {bytes msg rest : List UInt8} (h : nextMapped bytes = (some msg, rest)) :
    messagesOf bytes = msg :: messagesOf rest := by
  have hlt := length_nextMapped h
  unfold messagesOf
  rw [readMapped_eq (Nat.le_refl _) (show bytes.length ≤ rest.length + (bytes.length - rest.length - 1) + 1 by omega),
    readMapped, h]
  simp only
  rw [readMapped_eq (show rest.length ≤ _ by omega) (Nat.le_refl _)]

/-- At the end of a file the reader stays where it is. -/
theorem messagesOf_rest {bytes rest : List UInt8} (h : nextMapped bytes = (none, rest)) : messagesOf rest = [] := by
  induction bytes using nextMapped.induct with
  | case1 a b tail hzero ih =>
      rw [nextMapped, if_pos hzero] at h
      exact ih h
  | case2 a b tail hzero hshort =>
      have hnone := h
      rw [nextMapped, if_neg hzero, if_pos hshort] at h
      cases h
      exact messagesOf_of_none hnone
  | case3 a b tail hzero hshort =>
      rw [nextMapped, if_neg hzero, if_neg hshort] at h
      cases h
  | case4 bytes hbytes =>
      rw [nextMapped.eq_2 bytes hbytes] at h
      cases h
      exact messagesOf_of_none (nextMapped.eq_2 _ hbytes)

/-- A file without a next message has none. -/
theorem nextMapped_of_nil {bytes : List UInt8} (h : messagesOf bytes = []) :
    ∃ rest, nextMapped bytes = (none, rest) := by
  cases hn : nextMapped bytes with
  | mk msg rest =>
      cases msg with
      | none => exact ⟨rest, rfl⟩
      | some msg =>
          rw [messagesOf_of_some hn] at h
          cases h

/-- The first message of a file is the next one. -/
theorem nextMapped_of_cons {bytes msg : List UInt8} {msgs : List (List UInt8)} (h : messagesOf bytes = msg :: msgs) :
    ∃ rest, nextMapped bytes = (some msg, rest) ∧ messagesOf rest = msgs := by
  cases hn : nextMapped bytes with
  | mk msg' rest =>
      cases msg' with
      | none =>
          rw [messagesOf_of_none hn] at h
          cases h
      | some msg' =>
          rw [messagesOf_of_some hn] at h
          cases h
          exact ⟨rest, rfl, rfl⟩

theorem length_of_nextMapped {bytes rest msg : List UInt8} (h : nextMapped bytes = (some msg, rest)) :
    0 < msg.length ∧ msg.length < 2 ^ 16 := by
  induction bytes using nextMapped.induct with
  | case1 a b tail hzero ih =>
      rw [nextMapped, if_pos hzero] at h
      exact ih h
  | case2 a b tail hzero hshort =>
      rw [nextMapped, if_neg hzero, if_pos hshort] at h
      cases h
  | case3 a b tail hzero hshort =>
      rw [nextMapped, if_neg hzero, if_neg hshort] at h
      cases h
      have := lengthOf_lt a b
      rw [List.length_take]
      omega
  | case4 bytes hbytes =>
      rw [nextMapped.eq_2 bytes hbytes] at h
      cases h

/-- The messages of a file are neither empty nor longer than their length says. -/
theorem length_of_mem_messagesOf {bytes msg : List UInt8} (h : msg ∈ messagesOf bytes) :
    0 < msg.length ∧ msg.length < 2 ^ 16 := by
  generalize hmsgs : messagesOf bytes = msgs at h
  induction msgs generalizing bytes with
  | nil => cases h
  | cons m msgs ih =>
      obtain ⟨rest, hn, hrest⟩ := nextMapped_of_cons hmsgs
      obtain rfl | h := List.mem_cons.mp h
      · exact length_of_nextMapped hn
      · exact ih hrest h

/-- What is left of a file is not longer than the file. -/
theorem length_nextMapped_le {bytes rest : List UInt8} {msg : Option (List UInt8)} (h : nextMapped bytes = (msg, rest)) :
    rest.length ≤ bytes.length := by
  induction bytes using nextMapped.induct with
  | case1 a b tail hzero ih =>
      rw [nextMapped, if_pos hzero] at h
      have := ih h
      simp only [List.length_cons]
      omega
  | case2 a b tail hzero hshort =>
      rw [nextMapped, if_neg hzero, if_pos hshort] at h
      cases h
      exact Nat.le_refl _
  | case3 a b tail hzero hshort =>
      rw [nextMapped, if_neg hzero, if_neg hshort] at h
      cases h
      simp only [List.length_drop, List.length_cons]
      omega
  | case4 bytes hbytes =>
      rw [nextMapped.eq_2 bytes hbytes] at h
      cases h
      exact Nat.le_refl _

theorem nextMapped_of_short {bytes : List UInt8} (h : bytes.length < 2) : nextMapped bytes = (none, bytes) := by
  match bytes with
  | [] => rfl
  | [_] => rfl
  | _ :: _ :: _ =>
      simp only [List.length_cons] at h
      omega

/-! ### A file that zlib reads -/

/-- A file as zlib shows it, from its start or after `gzrewind`: the bytes, and how many
of them each call of `gzread` gives, by the number of the call, the bytes left and the bytes
asked for. It gives some as long as there are any. -/
structure Gz where
  data : List UInt8
  read : ℕ → ℕ → ℕ → ℕ
  read_le : ∀ i left room, read i left room ≤ min left room
  read_pos : ∀ i left room, 0 < left → 0 < room → 0 < read i left room

/-- What zlib shows if it gives all that it is asked for. -/
def Gz.eager (data : List UInt8) : Gz where
  data := data
  read _ left room := min left room
  read_le _ _ _ := Nat.le_refl _
  read_pos _ _ _ := by omega

/-- `ItchFileReader` of a file that is not mapped: the bytes of the buffer from `m_pos` to
`m_len`, the bytes that zlib has not given yet, and the number of calls of `gzread`. -/
structure GzReader where
  file : Gz
  /-- The size of `m_buf`. -/
  size : ℕ
  buf : List UInt8 := []
  left : List UInt8
  reads : ℕ := 0
  messages : ℕ := 0
  bytes : ℕ := 0
  eof : Bool := false
  truncated : Bool := false

namespace GzReader

/-- The constructor, with the size of the buffer. -/
def ofBuffer (file : Gz) (bufferBytes : ℕ) : GzReader where
  file := file
  size := if bufferBytes < 65536 then 65536 else bufferBytes
  left := file.data

/-- The constructor with its default for the size of the buffer. -/
def new (file : Gz) : GzReader := ofBuffer file (2 ^ 22)

def reset (r : GzReader) : GzReader :=
  { r with buf := [], left := r.file.data, messages := 0, bytes := 0, eof := false, truncated := false }

/-- The loop of `fill`, of at most so many calls of `gzread`. The room goes through an `unsigned`. -/
def fillLoop (need : ℕ) : ℕ → GzReader → GzReader
  | 0, r => r
  | fuel + 1, r =>
      if r.buf.length < need then
        let n := r.file.read r.reads r.left.length ((r.size - r.buf.length) % 2 ^ 32)
        let r := { r with reads := r.reads + 1 }
        if n = 0 then { r with eof := true, truncated := decide (0 < r.buf.length) }
        else fillLoop need fuel { r with buf := r.buf ++ r.left.take n, left := r.left.drop n }
      else r

/-- `fill`. Each call of `gzread` but the last gives a byte and more. -/
def fill (r : GzReader) (need : ℕ) : Bool × GzReader :=
  if r.buf.length ≥ need then (true, r)
  else if r.eof then (false, r)
  else
    let r := fillLoop need need r
    (r.buf.length ≥ need, r)

/-- `next`, which calls itself for each length of zero. -/
def nextLoop : ℕ → GzReader → Option (List UInt8) × GzReader
  | 0, r => (none, r)
  | fuel + 1, r =>
      let (full, r) := r.fill 2
      if !full then (none, r)
      else
        let len := lengthOf (r.buf.getD 0 0) (r.buf.getD 1 0)
        if len = 0 then nextLoop fuel { r with buf := r.buf.drop 2, bytes := r.bytes + 2 }
        else
          let (full, r) := r.fill (2 + len)
          if !full then (none, { r with truncated := true })
          else
            (some ((r.buf.drop 2).take len),
              { r with buf := r.buf.drop (2 + len), bytes := r.bytes + (2 + len), messages := r.messages + 1 })

/-- `next`. Every length of zero uses up two bytes. -/
def next (r : GzReader) : Option (List UInt8) × GzReader := nextLoop (r.buf.length + r.left.length + 1) r

/-- The bytes still to read. -/
def rest (r : GzReader) : List UInt8 := r.buf ++ r.left

/-- What a call of `gzread` can be asked for at most. -/
def cap (r : GzReader) : ℕ := r.size % 2 ^ 32

variable {file : Gz} {r r' : GzReader} {need : ℕ} {ok : Bool}

theorem exists_two {l : List UInt8} (h : 2 ≤ l.length) : ∃ a b tail, l = a :: b :: tail := by
  obtain _ | ⟨a, _ | ⟨b, tail⟩⟩ := l
  · simp at h
  · simp at h
  · exact ⟨a, b, tail, rfl⟩

/-- What a call of `fill` does that does not start at the end of the file. -/
structure Filled (r : GzReader) (need : ℕ) (ok : Bool) (r' : GzReader) : Prop where
  file : r'.file = r.file
  size : r'.size = r.size
  messages : r'.messages = r.messages
  bytes : r'.bytes = r.bytes
  rest : r'.rest = r.rest
  fits : r'.buf.length ≤ r'.cap
  enough : ok = decide (need ≤ r'.buf.length)
  more : ok = true → r'.eof = false ∧ r'.truncated = r.truncated
  ended : ok = false → r'.eof = true ∧ r'.truncated = decide (0 < r'.buf.length) ∧ (r'.left = [] ∨ r'.buf.length = r'.cap)

/-- **The loop of `fill`** moves bytes into the buffer until there are enough, or none, or no room. -/
theorem filled_fillLoop (fuel : ℕ) (hfits : r.buf.length ≤ r.cap) (hfuel : need ≤ r.buf.length + fuel) (heof : r.eof = false) :
    Filled r need (decide (need ≤ (fillLoop need fuel r).buf.length)) (fillLoop need fuel r) := by
  induction fuel generalizing r with
  | zero =>
      have hneed : need ≤ r.buf.length := hfuel
      exact ⟨rfl, rfl, rfl, rfl, rfl, hfits, rfl, fun _ => ⟨heof, rfl⟩, fun h => absurd hneed (of_decide_eq_false h)⟩
  | succ fuel ih =>
      unfold fillLoop
      simp only
      by_cases hmore : r.buf.length < need
      · rw [if_pos hmore]
        have hroom : (r.size - r.buf.length) % 2 ^ 32 = r.cap - r.buf.length := by
          unfold cap at hfits ⊢
          omega
        rw [hroom]
        have hle := r.file.read_le r.reads r.left.length (r.cap - r.buf.length)
        have hpos := r.file.read_pos r.reads r.left.length (r.cap - r.buf.length)
        generalize r.file.read r.reads r.left.length (r.cap - r.buf.length) = n at hle hpos ⊢
        split_ifs with hn
        · refine ⟨rfl, rfl, rfl, rfl, rfl, hfits, rfl, fun h => ?_, fun _ => ⟨rfl, rfl, ?_⟩⟩
          · have hneed : need ≤ r.buf.length := of_decide_eq_true h
            omega
          · by_cases hleft : r.left = []
            · exact .inl hleft
            · have hlen := List.length_pos_iff.mpr hleft
              have hfull : r.buf.length = r.cap := by omega
              exact .inr hfull
        · have hlen : (r.buf ++ r.left.take n).length = r.buf.length + n := by
            rw [List.length_append, List.length_take]
            omega
          have hstep := ih (r := { r with reads := r.reads + 1, buf := r.buf ++ r.left.take n, left := r.left.drop n })
            (by
              change (r.buf ++ r.left.take n).length ≤ r.cap
              omega)
            (by simp only [hlen]; omega) heof
          refine ⟨hstep.file, hstep.size, hstep.messages, hstep.bytes, hstep.rest.trans ?_, hstep.fits, rfl, hstep.more, hstep.ended⟩
          simp only [rest, List.append_assoc, List.take_append_drop]
      · rw [if_neg hmore]
        have hneed : need ≤ r.buf.length := Nat.le_of_not_lt hmore
        exact ⟨rfl, rfl, rfl, rfl, rfl, hfits, rfl, fun _ => ⟨heof, rfl⟩, fun h => absurd hneed (of_decide_eq_false h)⟩

theorem filled_fill (need : ℕ) (hfits : r.buf.length ≤ r.cap) (heof : r.eof = false) : Filled r need (r.fill need).1 (r.fill need).2 := by
  unfold fill
  by_cases hneed : r.buf.length ≥ need
  · rw [if_pos hneed]
    exact ⟨rfl, rfl, rfl, rfl, rfl, hfits, (decide_eq_true hneed).symm, fun _ => ⟨heof, rfl⟩, nofun⟩
  · rw [if_neg hneed, if_neg (by simp [heof])]
    exact filled_fillLoop need hfits (Nat.le_add_left ..) heof

theorem Filled.cap (h : Filled r need ok r') : r'.cap = r.cap := congrArg (· % 2 ^ 32) h.size

/-- **`fill`** answers whether there are enough bytes left, if it has room for them. -/
theorem Filled.ok_eq (h : Filled r need ok r') (hneed : need ≤ r.cap) : ok = decide (need ≤ r.rest.length) := by
  have hlen : r.rest.length = r'.buf.length + r'.left.length := by rw [← h.rest]; exact List.length_append ..
  cases hok : ok with
  | true =>
      have henough : need ≤ r'.buf.length := of_decide_eq_true (h.enough.symm.trans hok)
      exact (decide_eq_true (by omega)).symm
  | false =>
      have hfew : ¬ need ≤ r'.buf.length := of_decide_eq_false (h.enough.symm.trans hok)
      obtain ⟨-, -, hnil | hfull⟩ := h.ended hok
      · rw [hnil, List.length_nil] at hlen
        exact (decide_eq_false (by omega)).symm
      · rw [h.cap] at hfull
        omega

/-- A reader before the end of its file. -/
structure Live (file : Gz) (r : GzReader) : Prop where
  file : r.file = file
  fits : r.buf.length ≤ r.cap
  eof : r.eof = false

/-- A reader behind the last message: too few bytes for a length, or for the message behind it. -/
structure Ended (r : GzReader) : Prop where
  eof : r.eof = true
  short : r.buf.length < 2 ∨ 2 ≤ r.buf.length ∧ lengthOf (r.buf.getD 0 0) (r.buf.getD 1 0) ≠ 0 ∧
    r.buf.length < 2 + lengthOf (r.buf.getD 0 0) (r.buf.getD 1 0) ∧ r.truncated = true

theorem Ended.length_le (h : r.Ended) : r.buf.length ≤ 2 ^ 16 := by
  have hlt := lengthOf_lt (r.buf.getD 0 0) (r.buf.getD 1 0)
  rcases h.short with hshort | ⟨-, -, hshort, -⟩
  · omega
  · omega

/-- There it stays. -/
theorem Ended.nextLoop (h : r.Ended) (fuel : ℕ) : r.nextLoop fuel = (none, r) := by
  cases fuel with
  | zero => rfl
  | succ fuel =>
      unfold GzReader.nextLoop
      rcases h.short with hshort | ⟨htwo, hlen, hshort, htrunc⟩
      · have hfill : r.fill 2 = (false, r) := by
          unfold fill
          rw [if_neg (by omega), if_pos h.eof]
        rw [hfill]
        rfl
      · have hfill : r.fill 2 = (true, r) := if_pos htwo
        have hfill' : r.fill (2 + lengthOf (r.buf.getD 0 0) (r.buf.getD 1 0)) = (false, r) := by
          unfold fill
          rw [if_neg (by omega), if_pos h.eof]
        have hsame : { r with truncated := true } = r := by rw [← htrunc]
        rw [hfill]
        simp only [Bool.not_true, Bool.false_eq_true, if_false, if_neg hlen, hfill', Bool.not_false, if_true]
        exact congrArg (Prod.mk none) hsame

/-- Stopping where the reader is. -/
structure Stops (r r' : GzReader) : Prop where
  ended : r'.Ended
  file : r'.file = r.file
  size : r'.size = r.size
  fits : r'.buf.length ≤ r.cap
  rest : r'.rest = r.rest
  messages : r'.messages = r.messages
  bytes : r'.bytes = r.bytes
  stop : r'.left = [] ∨ r'.buf.length = r.cap

variable {bytes rest msg : List UInt8} {a b : UInt8} {fuel : ℕ}

/-- Without two bytes, or without room for them, the file ends. -/
theorem Live.nextLoop_short (h : r.Live file) (hshort : r.rest.length < 2 ∨ r.cap < 2) (fuel : ℕ) :
    ∃ r', r.nextLoop (fuel + 1) = (none, r') ∧ Stops r r' ∧ r'.truncated = decide (0 < r'.buf.length) := by
  have hfill := filled_fill 2 h.fits h.eof
  have hlen : r.rest.length = (r.fill 2).2.buf.length + (r.fill 2).2.left.length := by rw [← hfill.rest]; exact List.length_append ..
  have hcap := hfill.fits
  rw [hfill.cap] at hcap
  have hfew : ¬ 2 ≤ (r.fill 2).2.buf.length := by omega
  have hno : (r.fill 2).1 = false := hfill.enough.trans (decide_eq_false hfew)
  obtain ⟨heof, htrunc, hstop⟩ := hfill.ended hno
  refine ⟨(r.fill 2).2, ?_, ⟨⟨heof, .inl (Nat.lt_of_not_le hfew)⟩, hfill.file, hfill.size, hcap, hfill.rest, hfill.messages, hfill.bytes,
    hfill.cap ▸ hstop⟩, htrunc⟩
  unfold GzReader.nextLoop
  simp only [hno, Bool.not_false, if_true]

/-- With room for two bytes, and two bytes there, the length is read. -/
theorem Live.fill_two (h : r.Live file) (hcap : 2 ≤ r.cap) (hrest : r.rest = a :: b :: bytes) :
    ∃ r₁ tail, r.fill 2 = (true, r₁) ∧ Live file r₁ ∧ r₁.buf = a :: b :: tail ∧ tail ++ r₁.left = bytes ∧ r₁.size = r.size ∧
      r₁.messages = r.messages ∧ r₁.bytes = r.bytes ∧ r₁.truncated = r.truncated := by
  have hfill := filled_fill 2 h.fits h.eof
  have hyes : (r.fill 2).1 = true := by
    rw [hfill.ok_eq hcap, hrest]
    exact decide_eq_true (Nat.le_add_left ..)
  obtain ⟨heof, htrunc⟩ := hfill.more hyes
  obtain ⟨a', b', tail, hbuf⟩ := exists_two (of_decide_eq_true (hfill.enough.symm.trans hyes))
  have hbytes : a' :: b' :: (tail ++ (r.fill 2).2.left) = a :: b :: bytes := by
    rw [← hrest, ← hfill.rest, GzReader.rest, hbuf]
    rfl
  cases hbytes
  exact ⟨(r.fill 2).2, tail, Prod.ext hyes rfl, ⟨hfill.file.trans h.file, hfill.fits, heof⟩, hbuf, rfl, hfill.size, hfill.messages,
    hfill.bytes, htrunc⟩

/-- A length of zero is skipped. -/
theorem Live.nextLoop_zero (h : r.Live file) (hcap : 2 ≤ r.cap) (hrest : r.rest = a :: b :: bytes) (hzero : lengthOf a b = 0) (fuel : ℕ) :
    ∃ r', r.nextLoop (fuel + 1) = r'.nextLoop fuel ∧ Live file r' ∧ r'.rest = bytes ∧ r'.size = r.size ∧ r'.messages = r.messages ∧
      r'.bytes = r.bytes + 2 ∧ r'.truncated = r.truncated := by
  obtain ⟨r₁, tail, hfill, hlive, hbuf, hbytes, hsize₁, hmessages, hcount, htrunc⟩ := h.fill_two hcap hrest
  have hfits := hlive.fits
  rw [hbuf, List.length_cons, List.length_cons] at hfits
  refine ⟨{ r₁ with buf := tail, bytes := r₁.bytes + 2 }, ?_, ⟨hlive.file, ?_, hlive.eof⟩, hbytes, hsize₁, hmessages, ?_, htrunc⟩
  · rw [GzReader.nextLoop, hfill]
    simp only [Bool.not_true, Bool.false_eq_true, if_false, hbuf, List.getD_cons_zero, List.getD_cons_succ, hzero, if_true,
      List.drop_succ_cons, List.drop_zero]
  · change tail.length ≤ r₁.cap
    omega
  · exact congrArg (· + 2) hcount

/-- A message that is there, and has room, is read. -/
theorem Live.nextLoop_full (h : r.Live file) (hrest : r.rest = a :: b :: bytes) (hlen : lengthOf a b ≠ 0)
    (hfull : lengthOf a b ≤ bytes.length) (hroom : lengthOf a b + 2 ≤ r.cap) (fuel : ℕ) :
    ∃ r', r.nextLoop (fuel + 1) = (some (bytes.take (lengthOf a b)), r') ∧ Live file r' ∧ r'.rest = bytes.drop (lengthOf a b) ∧
      r'.size = r.size ∧ r'.messages = r.messages + 1 ∧ r'.bytes = r.bytes + (2 + lengthOf a b) ∧ r'.truncated = r.truncated := by
  obtain ⟨r₁, tail, hfill₁, hlive₁, hbuf₁, hbytes₁, hsize₁, hmessages₁, hcount₁, htrunc₁⟩ := h.fill_two (by omega) hrest
  have hcap₁ : r₁.cap = r.cap := congrArg (· % 2 ^ 32) hsize₁
  have hrest₁ : r₁.rest = a :: b :: bytes := by rw [GzReader.rest, hbuf₁, ← hbytes₁]; rfl
  have hfill := filled_fill (2 + lengthOf a b) hlive₁.fits hlive₁.eof
  have hyes : (r₁.fill (2 + lengthOf a b)).1 = true := by
    rw [hfill.ok_eq (by omega), hrest₁, List.length_cons, List.length_cons]
    exact decide_eq_true (by omega)
  obtain ⟨heof, htrunc⟩ := hfill.more hyes
  have henough := of_decide_eq_true (hfill.enough.symm.trans hyes)
  generalize hr₂ : (r₁.fill (2 + lengthOf a b)).2 = r₂ at hfill heof htrunc henough
  have hall : (r₂.buf ++ r₂.left).drop 2 = bytes := by
    rw [show r₂.buf ++ r₂.left = r₁.rest from hfill.rest, hrest₁]
    rfl
  refine ⟨{ r₂ with buf := r₂.buf.drop (2 + lengthOf a b), bytes := r₂.bytes + (2 + lengthOf a b), messages := r₂.messages + 1 }, ?_,
    ⟨hfill.file.trans hlive₁.file, ?_, heof⟩, ?_, hfill.size.trans hsize₁, ?_, ?_, htrunc.trans htrunc₁⟩
  · rw [GzReader.nextLoop, hfill₁]
    simp only [Bool.not_true, Bool.false_eq_true, if_false, hbuf₁, List.getD_cons_zero, List.getD_cons_succ, if_neg hlen, hyes, hr₂]
    rw [← hall, List.drop_append_of_le_length (by omega), List.take_append_of_le_length (by rw [List.length_drop]; omega)]
  · have hfits := hfill.fits
    change (r₂.buf.drop (2 + lengthOf a b)).length ≤ r₂.cap
    rw [List.length_drop]
    omega
  · rw [← hall, List.drop_drop]
    exact (List.drop_append_of_le_length henough).symm
  · exact congrArg (· + 1) (hfill.messages.trans hmessages₁)
  · exact congrArg (· + (2 + lengthOf a b)) (hfill.bytes.trans hcount₁)

/-- A message that is cut off, or has no room, ends the file. -/
theorem Live.nextLoop_cut (h : r.Live file) (hcap : 2 ≤ r.cap) (hrest : r.rest = a :: b :: bytes) (hlen : lengthOf a b ≠ 0)
    (hcut : bytes.length < lengthOf a b ∨ r.cap < lengthOf a b + 2) (fuel : ℕ) :
    ∃ r', r.nextLoop (fuel + 1) = (none, r') ∧ Stops r r' ∧ r'.truncated = true := by
  obtain ⟨r₁, tail, hfill₁, hlive₁, hbuf₁, hbytes₁, hsize₁, hmessages₁, hcount₁, htrunc₁⟩ := h.fill_two hcap hrest
  have hcap₁ : r₁.cap = r.cap := congrArg (· % 2 ^ 32) hsize₁
  have hrest₁ : r₁.rest = a :: b :: bytes := by rw [GzReader.rest, hbuf₁, ← hbytes₁]; rfl
  have hfill := filled_fill (2 + lengthOf a b) hlive₁.fits hlive₁.eof
  generalize hr₂ : (r₁.fill (2 + lengthOf a b)).2 = r₂ at hfill
  have hall : r₂.buf ++ r₂.left = a :: b :: bytes := hfill.rest.trans hrest₁
  have htotal : r₂.buf.length + r₂.left.length = bytes.length + 2 := by
    rw [← List.length_append, hall]
    rfl
  have hfits := hfill.fits
  rw [hfill.cap, hcap₁] at hfits
  have hfew : ¬ 2 + lengthOf a b ≤ r₂.buf.length := by omega
  have hno : (r₁.fill (2 + lengthOf a b)).1 = false := hfill.enough.trans (decide_eq_false hfew)
  obtain ⟨heof, -, hstop⟩ := hfill.ended hno
  rw [hfill.cap, hcap₁] at hstop
  have htwo : 2 ≤ r₂.buf.length := by
    rcases hstop with hnil | hfull
    · rw [hnil, List.length_nil] at htotal
      omega
    · omega
  obtain ⟨a', b', tail', hbuf₂⟩ := exists_two htwo
  rw [hbuf₂] at hall
  cases hall
  refine ⟨{ r₂ with truncated := true }, ?_, ⟨⟨heof, .inr ⟨htwo, ?_, ?_, rfl⟩⟩, hfill.file.trans (hlive₁.file.trans h.file.symm),
    hfill.size.trans hsize₁, hfits, hfill.rest.trans (hrest₁.trans hrest.symm), hfill.messages.trans hmessages₁,
    hfill.bytes.trans hcount₁, hstop⟩, rfl⟩
  · rw [GzReader.nextLoop, hfill₁]
    simp only [Bool.not_true, Bool.false_eq_true, if_false, hbuf₁, List.getD_cons_zero, List.getD_cons_succ, if_neg hlen, hno,
      Bool.not_false, if_true, hr₂]
  · simp only [hbuf₂, List.getD_cons_zero, List.getD_cons_succ]
    exact hlen
  · have hlt := Nat.lt_of_not_le hfew
    simpa only [hbuf₂, List.getD_cons_zero, List.getD_cons_succ] using hlt

/-- Reading a message that has room. -/
structure Advances (file : Gz) (r r' : GzReader) (behind : List UInt8) : Prop where
  live : r'.Live file
  rest : r'.rest = behind
  size : r'.size = r.size
  messages : r'.messages = r.messages + 1
  bytes : r'.bytes + behind.length = r.bytes + r.rest.length
  truncated : r'.truncated = r.truncated

/-- Reading no more messages. -/
structure Ends (r r' : GzReader) (behind : List UInt8) : Prop where
  ended : r'.Ended
  file : r'.file = r.file
  size : r'.size = r.size
  fits : r'.buf.length ≤ r.cap
  rest : r'.rest = behind
  messages : r'.messages = r.messages
  bytes : r'.bytes + behind.length = r.bytes + r.rest.length
  truncated : r'.truncated = decide (behind ≠ [])
  stop : r'.left = [] ∨ r'.buf.length = r.cap

/-- **A message that has room is read**, whatever lengths of zero stand before it. -/
theorem Live.nextLoop_some (h : r.Live file) (hfuel : r.rest.length < fuel) (hn : nextMapped r.rest = (some msg, rest))
    (hroom : msg.length + 2 ≤ r.cap) : ∃ r', r.nextLoop fuel = (some msg, r') ∧ Advances file r r' rest := by
  generalize hbytes : r.rest = bytes at hn hfuel
  induction bytes using nextMapped.induct generalizing r fuel with
  | case1 a b tail hzero ih =>
      obtain ⟨fuel, rfl⟩ := Nat.exists_eq_succ_of_ne_zero (Nat.ne_zero_of_lt hfuel)
      rw [nextMapped, if_pos hzero] at hn
      obtain ⟨r₁, hnext, hlive, hrest, hsize, hmessages, hcount, htrunc⟩ := h.nextLoop_zero (by omega) hbytes hzero fuel
      have hcap : r₁.cap = r.cap := congrArg (· % 2 ^ 32) hsize
      have hless : tail.length < fuel := by
        simp only [List.length_cons] at hfuel
        omega
      obtain ⟨r', hnext', hadv⟩ := ih hlive (hcap ▸ hroom) hrest hn hless
      refine ⟨r', hnext.trans hnext', hadv.live, hadv.rest, hadv.size.trans hsize, hadv.messages.trans (hmessages ▸ rfl), ?_,
        hadv.truncated.trans htrunc⟩
      have hsum := hadv.bytes
      rw [hcount, hrest] at hsum
      rw [hbytes, List.length_cons, List.length_cons]
      omega
  | case2 a b tail hzero hshort =>
      rw [nextMapped, if_neg hzero, if_pos hshort] at hn
      cases hn
  | case3 a b tail hzero hshort =>
      obtain ⟨fuel, rfl⟩ := Nat.exists_eq_succ_of_ne_zero (Nat.ne_zero_of_lt hfuel)
      rw [nextMapped, if_neg hzero, if_neg hshort] at hn
      cases hn
      have hfull : lengthOf a b ≤ tail.length := Nat.le_of_not_lt hshort
      rw [List.length_take, Nat.min_eq_left hfull] at hroom
      obtain ⟨r', hnext, hlive, hrest, hsize, hmessages, hcount, htrunc⟩ := h.nextLoop_full hbytes hzero hfull hroom fuel
      refine ⟨r', hnext, hlive, hrest, hsize, hmessages, ?_, htrunc⟩
      rw [hcount, hbytes, List.length_drop, List.length_cons, List.length_cons]
      omega
  | case4 bytes hfew =>
      rw [nextMapped.eq_2 bytes hfew] at hn
      cases hn

/-- A message that has no room is not read. -/
theorem Live.nextLoop_long (h : r.Live file) (hn : nextMapped r.rest = (some msg, rest)) (hroom : r.cap < msg.length + 2) (fuel : ℕ) :
    (r.nextLoop fuel).1 = none := by
  by_cases hcap : r.cap < 2
  · cases fuel with
    | zero => rfl
    | succ fuel =>
        obtain ⟨r', hnext, -⟩ := h.nextLoop_short (.inr hcap) fuel
        rw [hnext]
  · generalize hbytes : r.rest = bytes at hn
    induction bytes using nextMapped.induct generalizing r fuel with
    | case1 a b tail hzero ih =>
        cases fuel with
        | zero => rfl
        | succ fuel =>
            rw [nextMapped, if_pos hzero] at hn
            obtain ⟨r₁, hnext, hlive, hrest, hsize, -⟩ := h.nextLoop_zero (Nat.le_of_not_lt hcap) hbytes hzero fuel
            have hcap₁ : r₁.cap = r.cap := congrArg (· % 2 ^ 32) hsize
            rw [hnext]
            exact ih hlive (hcap₁ ▸ hroom) fuel (hcap₁ ▸ hcap) hrest hn
    | case2 a b tail hzero hshort =>
        rw [nextMapped, if_neg hzero, if_pos hshort] at hn
        cases hn
    | case3 a b tail hzero hshort =>
        rw [nextMapped, if_neg hzero, if_neg hshort] at hn
        cases hn
        rw [List.length_take, Nat.min_eq_left (Nat.le_of_not_lt hshort)] at hroom
        cases fuel with
        | zero => rfl
        | succ fuel =>
            obtain ⟨r', hnext, -⟩ := h.nextLoop_cut (Nat.le_of_not_lt hcap) hbytes hzero (.inr hroom) fuel
            rw [hnext]
    | case4 bytes hfew =>
        rw [nextMapped.eq_2 bytes hfew] at hn
        cases hn

/-- **Behind the last message the file ends**, and what is left of it tells whether it was cut off. -/
theorem Live.nextLoop_none (h : r.Live file) (hcap : 2 ≤ r.cap) (hfuel : r.rest.length < fuel)
    (hn : nextMapped r.rest = (none, rest)) : ∃ r', r.nextLoop fuel = (none, r') ∧ Ends r r' rest := by
  generalize hbytes : r.rest = bytes at hn hfuel
  induction bytes using nextMapped.induct generalizing r fuel with
  | case1 a b tail hzero ih =>
      obtain ⟨fuel, rfl⟩ := Nat.exists_eq_succ_of_ne_zero (Nat.ne_zero_of_lt hfuel)
      rw [nextMapped, if_pos hzero] at hn
      obtain ⟨r₁, hnext, hlive, hrest, hsize, hmessages, hcount, htrunc⟩ := h.nextLoop_zero hcap hbytes hzero fuel
      have hcap₁ : r₁.cap = r.cap := congrArg (· % 2 ^ 32) hsize
      have hless : tail.length < fuel := by
        simp only [List.length_cons] at hfuel
        omega
      obtain ⟨r', hnext', hends⟩ := ih hlive (hcap₁ ▸ hcap) hrest hn hless
      refine ⟨r', hnext.trans hnext', hends.ended, hends.file.trans (hlive.file.trans h.file.symm), hends.size.trans hsize,
        hcap₁ ▸ hends.fits, hends.rest, hends.messages.trans hmessages, ?_, hends.truncated, hcap₁ ▸ hends.stop⟩
      have hsum := hends.bytes
      rw [hcount, hrest] at hsum
      rw [hbytes, List.length_cons, List.length_cons]
      omega
  | case2 a b tail hzero hshort =>
      obtain ⟨fuel, rfl⟩ := Nat.exists_eq_succ_of_ne_zero (Nat.ne_zero_of_lt hfuel)
      rw [nextMapped, if_neg hzero, if_pos hshort] at hn
      cases hn
      obtain ⟨r', hnext, hstops, htrunc⟩ := h.nextLoop_cut hcap hbytes hzero (.inl hshort) fuel
      exact ⟨r', hnext, hstops.ended, hstops.file, hstops.size, hstops.fits, hstops.rest.trans hbytes, hstops.messages,
        by rw [hstops.bytes, hbytes], htrunc, hstops.stop⟩
  | case3 a b tail hzero hshort =>
      rw [nextMapped, if_neg hzero, if_neg hshort] at hn
      cases hn
  | case4 bytes hfew =>
      obtain ⟨fuel, rfl⟩ := Nat.exists_eq_succ_of_ne_zero (Nat.ne_zero_of_lt hfuel)
      rw [nextMapped.eq_2 bytes hfew] at hn
      cases hn
      have hshort : r.rest.length < 2 := by
        rw [hbytes]
        by_contra hlong
        obtain ⟨a, b, tail, htwo⟩ := exists_two (Nat.le_of_not_lt hlong)
        exact hfew a b tail htwo
      obtain ⟨r', hnext, hstops, htrunc⟩ := h.nextLoop_short (.inl hshort) fuel
      refine ⟨r', hnext, hstops.ended, hstops.file, hstops.size, hstops.fits, hstops.rest.trans hbytes, hstops.messages,
        by rw [hstops.bytes, hbytes], ?_, hstops.stop⟩
      have hstop := hstops.stop
      have htotal : r.rest.length = r'.buf.length + r'.left.length := by rw [← hstops.rest]; exact List.length_append ..
      rw [htrunc, ← hbytes]
      refine decide_eq_decide.mpr ⟨fun hpos hnil => ?_, fun hne => ?_⟩
      · rw [hnil, List.length_nil] at htotal
        omega
      · have hpos := List.length_pos_iff.mpr hne
        rcases hstop with hnil | hfull
        · rw [hnil, List.length_nil] at htotal
          omega
        · omega

/-! ### Buffers that every message fits in -/

/-- What a reader keeps: its file, a buffer that a message fits in, and the mark for the
end of the file only behind its last message. -/
structure Reads (file : Gz) (r : GzReader) : Prop where
  file : r.file = file
  size : 2 ^ 16 < r.cap
  fits : r.buf.length ≤ r.cap
  eof : r.eof = true → r.left = [] ∧ r.Ended

theorem reads_new (file : Gz) : (new file).Reads file :=
  ⟨rfl, (by decide : 2 ^ 16 < (if 2 ^ 22 < 65536 then 65536 else 2 ^ 22) % 2 ^ 32), Nat.zero_le _, nofun⟩

theorem Reads.reset (h : r.Reads file) : r.reset.Reads file ∧ r.reset.rest = file.data :=
  ⟨⟨h.file, h.size, Nat.zero_le _, nofun⟩, by rw [← h.file]; rfl⟩

/-- Nothing is left of the file but what stands in the buffer, which is no message. -/
theorem Ended.nextMapped_eq (h : r.Ended) (hleft : r.left = []) : nextMapped r.rest = (none, r.rest) := by
  have hrest : r.rest = r.buf := by rw [GzReader.rest, hleft, List.append_nil]
  rw [hrest]
  rcases h.short with hshort | ⟨htwo, hlen, hshort, -⟩
  · exact nextMapped_of_short hshort
  · obtain ⟨a, b, tail, hbuf⟩ := exists_two htwo
    rw [hbuf] at hlen hshort ⊢
    simp only [List.getD_cons_zero, List.getD_cons_succ, List.length_cons] at hlen hshort
    rw [nextMapped, if_neg hlen, if_pos (by omega)]

/-- **The buffered reader** reads what the mapped file shows. -/
theorem Reads.next (h : r.Reads file) :
    r.next.2.Reads file ∧ r.next.1 = (nextMapped r.rest).1 ∧ r.next.2.rest = (nextMapped r.rest).2 := by
  have hfuel : r.rest.length < r.buf.length + r.left.length + 1 := by
    rw [rest, List.length_append]
    exact Nat.lt_succ_self _
  by_cases heof : r.eof = true
  · obtain ⟨hleft, hended⟩ := h.eof heof
    rw [GzReader.next, hended.nextLoop, hended.nextMapped_eq hleft]
    exact ⟨h, rfl, rfl⟩
  · have hlive : Live file r := ⟨h.file, h.fits, Bool.eq_false_iff.mpr heof⟩
    have hsize := h.size
    cases hn : nextMapped r.rest with
    | mk msg behind =>
        cases msg with
        | none =>
            obtain ⟨r', hnext, hends⟩ := hlive.nextLoop_none (by omega) hfuel hn
            have hcap : r'.cap = r.cap := congrArg (· % 2 ^ 32) hends.size
            have hleft : r'.left = [] := hends.stop.resolve_right fun hfull => absurd hends.ended.length_le (by omega)
            rw [GzReader.next, hnext]
            exact ⟨⟨hends.file.trans h.file, hcap ▸ h.size, hcap ▸ hends.fits, fun _ => ⟨hleft, hends.ended⟩⟩, rfl, hends.rest⟩
        | some msg =>
            have hlt := (length_of_nextMapped hn).2
            obtain ⟨r', hnext, hadv⟩ := hlive.nextLoop_some hfuel hn (by omega)
            rw [GzReader.next, hnext]
            have hcap : r'.cap = r.cap := congrArg (· % 2 ^ 32) hadv.size
            exact ⟨⟨hadv.live.file, hcap ▸ h.size, hadv.live.fits, fun he => absurd (hadv.live.eof.symm.trans he) nofun⟩, rfl,
              hadv.rest⟩

end GzReader

end TickToTrade.Replay
