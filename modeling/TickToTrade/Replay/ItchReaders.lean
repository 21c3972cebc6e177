import TickToTrade.Protocol.MoldUdp64
import TickToTrade.Replay.ItchFile

/-!
# Both readers of a file

The reader of a mapped file keeps a position in it, the other one a buffer that it fills and moves.
Both count the messages and the bytes, and note at the end whether something was left.

## What is proved

* `MappedReader.next_cursor`, `GzReader.next_cursor` — both readers follow one cursor over the bytes,
  the buffered one as long as a message has room.
* `streamed_iff` — the readers report the same for every number of calls just when every message has
  room; and what was written is read back.
-/

namespace TickToTrade.Replay

/-! ### A cursor -/

/-- A place in a file, and what a reader reports there. -/
structure Cursor where
  rest : List UInt8
  messages : ℕ := 0
  bytes : ℕ := 0
  truncated : Bool := false

/-- Read a message: what is counted, and at the end whether something is left. -/
def Cursor.next (c : Cursor) : Option (List UInt8) × Cursor :=
  match nextMapped c.rest with
  | (some msg, behind) =>
      (some msg, { c with rest := behind, messages := c.messages + 1, bytes := c.bytes + (c.rest.length - behind.length) })
  | (none, behind) => (none, { c with rest := behind, bytes := c.bytes + (c.rest.length - behind.length), truncated := decide (behind ≠ []) })

/-- What is left of a file is its end. -/
theorem suffix_nextMapped {bytes behind : List UInt8} {msg : Option (List UInt8)} (h : nextMapped bytes = (msg, behind)) : behind <:+ bytes := by
  induction bytes using nextMapped.induct with
  | case1 a b tail hzero ih =>
      rw [nextMapped, if_pos hzero] at h
      exact (ih h).trans (List.suffix_append [a, b] tail)
  | case2 a b tail hzero hshort =>
      rw [nextMapped, if_neg hzero, if_pos hshort] at h
      cases h
      exact List.suffix_refl _
  | case3 a b tail hzero hshort =>
      rw [nextMapped, if_neg hzero, if_neg hshort] at h
      cases h
      exact (List.drop_suffix _ _).trans (List.suffix_append [a, b] tail)
  | case4 bytes hbytes =>
      rw [nextMapped.eq_2 bytes hbytes] at h
      cases h
      exact List.suffix_refl _

/-- Behind the last message there is none. -/
theorem nextMapped_over {bytes behind : List UInt8} (h : nextMapped bytes = (none, behind)) : nextMapped behind = (none, behind) := by
  induction bytes using nextMapped.induct with
  | case1 a b tail hzero ih =>
      rw [nextMapped, if_pos hzero] at h
      exact ih h
  | case2 a b tail hzero hshort =>
      have hnone := h
      rw [nextMapped, if_neg hzero, if_pos hshort] at h
      cases h
      exact hnone
  | case3 a b tail hzero hshort =>
      rw [nextMapped, if_neg hzero, if_neg hshort] at h
      cases h
  | case4 bytes hbytes =>
      rw [nextMapped.eq_2 bytes hbytes] at h
      cases h
      exact nextMapped.eq_2 _ hbytes

namespace Cursor

variable {c : Cursor} {a b : UInt8} {tail : List UInt8}

theorem next_short (h : c.rest.length < 2) : c.next = (none, { c with truncated := decide (c.rest ≠ []) }) := by
  rw [next, nextMapped_of_short h]
  simp only [Nat.sub_self, Nat.add_zero]

theorem next_zero (h : c.rest = a :: b :: tail) (hzero : lengthOf a b = 0) :
    c.next = ({ c with rest := tail, bytes := c.bytes + 2 } : Cursor).next := by
  have hn : nextMapped c.rest = nextMapped tail := by rw [h, nextMapped, if_pos hzero]
  rw [next, next, hn]
  cases hm : nextMapped tail with
  | mk msg behind =>
      have hle := length_nextMapped_le hm
      have hsum : c.bytes + (c.rest.length - behind.length) = c.bytes + 2 + (tail.length - behind.length) := by
        rw [h, List.length_cons, List.length_cons]
        omega
      cases msg with
      | none => simp only [hsum]
      | some msg => simp only [hsum]

theorem next_cut (h : c.rest = a :: b :: tail) (hlen : lengthOf a b ≠ 0) (hcut : tail.length < lengthOf a b) :
    c.next = (none, { c with truncated := true }) := by
  have hn : nextMapped c.rest = (none, c.rest) := by rw [h, nextMapped, if_neg hlen, if_pos hcut]
  have hne : c.rest ≠ [] := by rw [h]; exact List.cons_ne_nil _ _
  rw [next, hn]
  simp only [Nat.sub_self, Nat.add_zero, hne, ne_eq, not_false_eq_true, decide_true]

theorem next_full (h : c.rest = a :: b :: tail) (hlen : lengthOf a b ≠ 0) (hfull : lengthOf a b ≤ tail.length) :
    c.next = (some (tail.take (lengthOf a b)),
      { c with rest := tail.drop (lengthOf a b), bytes := c.bytes + (2 + lengthOf a b), messages := c.messages + 1 }) := by
  have hn : nextMapped c.rest = (some (tail.take (lengthOf a b)), tail.drop (lengthOf a b)) := by
    rw [h, nextMapped, if_neg hlen, if_neg (Nat.not_lt_of_le hfull)]
  have hsum : c.rest.length - (tail.drop (lengthOf a b)).length = 2 + lengthOf a b := by
    rw [h, List.length_drop, List.length_cons, List.length_cons]
    omega
  rw [next, hn]
  simp only [hsum]

end Cursor

/-! ### The mapped reader -/

/-- `ItchFileReader` of a mapped file. -/
structure MappedReader where
  view : List UInt8
  pos : ℕ := 0
  messages : ℕ := 0
  bytes : ℕ := 0
  truncated : Bool := false

namespace MappedReader

/-- `nextMapped`. -/
def next (r : MappedReader) : Option (List UInt8) × MappedReader :=
  if r.pos + 2 > r.view.length then (none, { r with truncated := decide (r.pos ≠ r.view.length) })
  else
    let len := lengthOf (r.view.getD r.pos 0) (r.view.getD (r.pos + 1) 0)
    if len = 0 then next { r with pos := r.pos + 2, bytes := r.bytes + 2 }
    else if r.pos + 2 + len > r.view.length then (none, { r with truncated := true })
    else
      (some ((r.view.drop (r.pos + 2)).take len),
        { r with pos := r.pos + (2 + len), bytes := r.bytes + (2 + len), messages := r.messages + 1 })
termination_by r.view.length - r.pos

/-- Where the reader is. -/
def cursor (r : MappedReader) : Cursor := ⟨r.view.drop r.pos, r.messages, r.bytes, r.truncated⟩

theorem rest_cursor {r : MappedReader} (h : ¬ r.pos + 2 > r.view.length) :
    r.cursor.rest = r.view.getD r.pos 0 :: r.view.getD (r.pos + 1) 0 :: r.view.drop (r.pos + 2) := by
  rw [cursor, List.drop_eq_getElem_cons (by omega), List.drop_eq_getElem_cons (by omega : r.pos + 1 < r.view.length),
    List.getD_eq_getElem?_getD, List.getD_eq_getElem?_getD, List.getElem?_eq_getElem (by omega : r.pos < r.view.length),
    List.getElem?_eq_getElem (by omega : r.pos + 1 < r.view.length)]
  rfl

/-- **The mapped reader** follows the cursor. -/
theorem next_cursor (r : MappedReader) (h : r.pos ≤ r.view.length) :
    r.next.1 = r.cursor.next.1 ∧ r.next.2.cursor = r.cursor.next.2 ∧ r.next.2.pos ≤ r.next.2.view.length := by
  induction r using next.induct with
  | case1 r hend =>
      have hshort : r.cursor.rest.length < 2 := by
        rw [cursor, List.length_drop]
        omega
      rw [next, if_pos hend, Cursor.next_short hshort]
      have hleft : decide (r.pos ≠ r.view.length) = decide (r.cursor.rest ≠ []) := by
        refine decide_eq_decide.mpr (not_congr ?_)
        rw [cursor, List.drop_eq_nil_iff]
        omega
      exact ⟨rfl, congrArg (Cursor.mk (r.view.drop r.pos) r.messages r.bytes) hleft, h⟩
  | case2 r hmore len hzero ih =>
      rw [Cursor.next_zero (rest_cursor hmore) hzero, next, if_neg hmore]
      simp only
      rw [if_pos hzero]
      exact ih (Nat.le_of_not_lt hmore)
  | case3 r hmore len hlen hcut =>
      have hshort : (r.view.drop (r.pos + 2)).length < lengthOf (r.view.getD r.pos 0) (r.view.getD (r.pos + 1) 0) := by
        rw [List.length_drop]
        omega
      rw [Cursor.next_cut (rest_cursor hmore) hlen hshort, next, if_neg hmore]
      simp only
      rw [if_neg hlen, if_pos hcut]
      exact ⟨rfl, rfl, h⟩
  | case4 r hmore len hlen hfull =>
      have hlong : lengthOf (r.view.getD r.pos 0) (r.view.getD (r.pos + 1) 0) ≤ (r.view.drop (r.pos + 2)).length := by
        rw [List.length_drop]
        omega
      rw [Cursor.next_full (rest_cursor hmore) hlen hlong, next, if_neg hmore]
      simp only
      rw [if_neg hlen, if_neg hfull]
      refine ⟨rfl, ?_, ?_⟩
      · rw [cursor, List.drop_drop, Nat.add_assoc]
        rfl
      · change r.pos + (2 + len) ≤ r.view.length
        omega

end MappedReader

/-! ### The buffered reader -/

/-- A buffer of which a call of `gzread` can be asked for `cap` bytes has room for each message behind its length; if it has no room for
a length, there is nothing to read but a byte or the rest of a message that it notices. -/
def HasRoom (cap : ℕ) (bytes : List UInt8) : Prop :=
  (∀ msg ∈ messagesOf bytes, msg.length + 2 ≤ cap) ∧ (2 ≤ cap ∨ (nextMapped bytes).2 = bytes ∧ (cap = 1 ∨ bytes = []))

instance (cap : ℕ) (bytes : List UInt8) : Decidable (HasRoom cap bytes) := by unfold HasRoom; infer_instance

namespace GzReader

variable {file : Gz} {r : GzReader}

/-- Where the reader is. -/
def cursor (r : GzReader) : Cursor := ⟨r.rest, r.messages, r.bytes, r.truncated⟩

/-- Behind the last message, with nothing left to note. -/
structure Settled (r : GzReader) : Prop where
  ended : r.Ended
  none : nextMapped r.rest = (none, r.rest)
  truncated : r.truncated = decide (r.rest ≠ [])

/-- The reader before a file that has room, or behind it. -/
def Tracks (r : GzReader) : Prop := (∃ file, Live file r ∧ HasRoom r.cap r.rest) ∨ Settled r

theorem length_rest_lt (r : GzReader) : r.rest.length < r.buf.length + r.left.length + 1 := by
  rw [rest, List.length_append]
  exact Nat.lt_succ_self _

theorem Settled.next_cursor (h : r.Settled) : r.next.1 = r.cursor.next.1 ∧ r.next.2.cursor = r.cursor.next.2 ∧ r.next.2.Tracks := by
  have hcursor : r.cursor.next = (Option.none, r.cursor) := by
    rw [Cursor.next, show nextMapped r.cursor.rest = (Option.none, r.rest) from h.none]
    simp only [← h.truncated]
    exact congrArg (Prod.mk Option.none) (congrArg (fun n => Cursor.mk r.rest r.messages n r.truncated) (by
      rw [cursor, Nat.sub_self, Nat.add_zero]))
  rw [hcursor, GzReader.next, h.ended.nextLoop]
  exact ⟨rfl, rfl, .inr h⟩

theorem Advances.next_cursor {r' : GzReader} {msg behind : List UInt8} (h : Advances file r r' behind)
    (hn : nextMapped r.rest = (some msg, behind)) : r.cursor.next = (some msg, r'.cursor) := by
  have hbytes : r'.bytes = r.bytes + (r.rest.length - behind.length) := by
    have hle := length_nextMapped_le hn
    have hsum := h.bytes
    omega
  rw [Cursor.next, show nextMapped r.cursor.rest = (some msg, behind) from hn]
  simp only [cursor, h.rest, h.messages, hbytes, h.truncated]

/-- Behind the last message the reader reports that the file was cut off, if anything is left. -/
theorem Ends.next_cursor {r' : GzReader} {behind : List UInt8} (h : Ends r r' behind) (hn : nextMapped r.rest = (Option.none, behind)) :
    r.cursor.next = (Option.none, r'.cursor) ∧ Settled r' := by
  have hbytes : r'.bytes = r.bytes + (r.rest.length - behind.length) := by
    have hle := length_nextMapped_le hn
    have hsum := h.bytes
    omega
  constructor
  · rw [Cursor.next, show nextMapped r.cursor.rest = (Option.none, behind) from hn]
    simp only [cursor, h.rest, h.messages, hbytes, h.truncated]
  · refine ⟨h.ended, ?_, ?_⟩
    · rw [h.rest]
      exact nextMapped_over hn
    · rw [h.rest]
      exact h.truncated

/-- Without room for a length, the reader stays where it is. -/
theorem Live.ends_of_small (h : Live file r) (hcap : r.cap < 2) (hstuck : r.cap = 1 ∨ r.rest = []) : ∃ r', r.next = (Option.none, r') ∧ Ends r r' r.rest := by
  obtain ⟨r', hnext, hstops, htrunc⟩ := h.nextLoop_short (.inr hcap) (r.buf.length + r.left.length)
  refine ⟨r', hnext, hstops.ended, hstops.file, hstops.size, hstops.fits, hstops.rest, hstops.messages, by rw [hstops.bytes], ?_,
    hstops.stop⟩
  have htotal : r.rest.length = r'.buf.length + r'.left.length := by rw [← hstops.rest]; exact List.length_append ..
  rw [htrunc]
  refine decide_eq_decide.mpr ⟨fun hpos hnil => ?_, fun hne => ?_⟩
  · rw [hnil, List.length_nil] at htotal
    omega
  · have hpos := List.length_pos_iff.mpr hne
    rcases hstops.stop with hnil | hfull
    · rw [hnil, List.length_nil] at htotal
      omega
    · rcases hstuck with hone | hempty
      · omega
      · exact absurd hempty hne

/-- **The buffered reader** follows the cursor as long as there is room. -/
theorem Tracks.next_cursor (h : r.Tracks) : r.next.1 = r.cursor.next.1 ∧ r.next.2.cursor = r.cursor.next.2 ∧ r.next.2.Tracks := by
  rcases h with ⟨file, hlive, hmsgs, hcap⟩ | hsettled
  · cases hn : nextMapped r.rest with
    | mk msg behind =>
        cases msg with
        | some msg =>
            rw [messagesOf_of_some hn] at hmsgs
            have hroom : msg.length + 2 ≤ r.cap := hmsgs msg List.mem_cons_self
            obtain ⟨r', hnext, hadv⟩ := hlive.nextLoop_some r.length_rest_lt hn hroom
            have hcap' : r'.cap = r.cap := congrArg (· % 2 ^ 32) hadv.size
            rw [hadv.next_cursor hn, GzReader.next, hnext]
            refine ⟨rfl, rfl, .inl ⟨file, hadv.live, ?_⟩⟩
            rw [hadv.rest, hcap']
            exact ⟨fun m hm => hmsgs m (List.mem_cons_of_mem _ hm), .inl (by omega)⟩
        | none =>
            have hends : ∃ r', r.next = (Option.none, r') ∧ Ends r r' behind := by
              by_cases htwo : 2 ≤ r.cap
              · exact hlive.nextLoop_none htwo r.length_rest_lt hn
              · obtain ⟨hover, hstuck⟩ := hcap.resolve_left htwo
                have heq : behind = r.rest := by rw [← hover, hn]
                rw [heq]
                exact hlive.ends_of_small (Nat.lt_of_not_le htwo) hstuck
            obtain ⟨r', hnext, hends⟩ := hends
            obtain ⟨hcursor, hsettled⟩ := hends.next_cursor hn
            rw [hcursor, hnext]
            exact ⟨rfl, rfl, .inr hsettled⟩
  · exact hsettled.next_cursor

end GzReader

/-! ### Reports -/

section Calls

variable {ρ : Type}

/-- Call `next` so many times. -/
def calls (next : ρ → Option (List UInt8) × ρ) : ℕ → ρ → List (Option (List UInt8)) × ρ
  | 0, r => ([], r)
  | n + 1, r => ((next r).1 :: (calls next n (next r).2).1, (calls next n (next r).2).2)

theorem calls_succ (next : ρ → Option (List UInt8) × ρ) (n : ℕ) (r : ρ) :
    (calls next (n + 1) r).1 = (calls next n r).1 ++ [(next (calls next n r).2).1] := by
  induction n generalizing r with
  | zero => rfl
  | succ n ih =>
      rw [calls, ih (next r).2]
      rfl

/-- A reader that follows the cursor at each call follows it over all of them. -/
theorem calls_eq {next : ρ → Option (List UInt8) × ρ} {cursor : ρ → Cursor} {R : ρ → Prop}
    (hstep : ∀ r, R r → (next r).1 = (cursor r).next.1 ∧ cursor (next r).2 = (cursor r).next.2 ∧ R (next r).2) (n : ℕ) {r : ρ}
    (hr : R r) : (calls next n r).1 = (calls Cursor.next n (cursor r)).1 ∧
      cursor (calls next n r).2 = (calls Cursor.next n (cursor r)).2 := by
  induction n generalizing r with
  | zero => exact ⟨rfl, rfl⟩
  | succ n ih =>
      obtain ⟨hout, hcursor, hkept⟩ := hstep r hr
      obtain ⟨houts, hlast⟩ := ih hkept
      rw [hcursor] at houts hlast
      exact ⟨List.cons_eq_cons.mpr ⟨hout, houts⟩, hlast⟩

end Calls

/-- What the caller of a reader sees: what `next` gave, and the counters after it. -/
structure Report where
  results : List (Option (List UInt8))
  messages : ℕ
  bytes : ℕ
  truncated : Bool
deriving DecidableEq, Repr

/-- The report of a place in a file. -/
def Cursor.seen (c : Cursor) (results : List (Option (List UInt8))) : Report := ⟨results, c.messages, c.bytes, c.truncated⟩

/-- The report of so many calls. -/
def Cursor.report (c : Cursor) (n : ℕ) : Report := (calls Cursor.next n c).2.seen (calls Cursor.next n c).1

/-- The report of so many calls. -/
def MappedReader.report (r : MappedReader) (n : ℕ) : Report := (calls next n r).2.cursor.seen (calls next n r).1

/-- The report of so many calls. -/
def GzReader.report (r : GzReader) (n : ℕ) : Report := (calls next n r).2.cursor.seen (calls next n r).1

theorem MappedReader.report_eq {r : MappedReader} (h : r.pos ≤ r.view.length) (n : ℕ) : r.report n = r.cursor.report n := by
  obtain ⟨houts, hlast⟩ := calls_eq (fun r hr => next_cursor r hr) n h
  rw [report, houts, hlast]
  rfl

theorem GzReader.report_eq {r : GzReader} (h : r.Tracks) (n : ℕ) : r.report n = r.cursor.report n := by
  have hstep : ∀ r : GzReader, r.Tracks → r.next.1 = r.cursor.next.1 ∧ r.next.2.cursor = r.cursor.next.2 ∧ r.next.2.Tracks :=
    fun _ hr => hr.next_cursor
  obtain ⟨houts, hlast⟩ := calls_eq hstep n h
  rw [report, houts, hlast]
  rfl

/-- The cursor reads the messages of the file. -/
theorem Cursor.calls_messages (c : Cursor) : (calls Cursor.next (messagesOf c.rest).length c).1 = (messagesOf c.rest).map some := by
  generalize hmsgs : messagesOf c.rest = msgs
  induction msgs generalizing c with
  | nil => rfl
  | cons msg msgs ih =>
      obtain ⟨behind, hn, hrest⟩ := nextMapped_of_cons hmsgs
      have hnext : c.next = (some msg, { c with rest := behind, messages := c.messages + 1, bytes := c.bytes + (c.rest.length - behind.length) }) := by
        rw [Cursor.next, hn]
      rw [List.length_cons, calls, hnext, List.map_cons]
      exact List.cons_eq_cons.mpr ⟨rfl, ih _ hrest⟩

/-- A buffered reader that gives all messages has room for each. -/
theorem GzReader.fits_of_calls {file : Gz} {r : GzReader} (h : Live file r) {msgs : List (List UInt8)} (hmsgs : messagesOf r.rest = msgs)
    (hcalls : (calls GzReader.next msgs.length r).1 = msgs.map some) : ∀ msg ∈ msgs, msg.length + 2 ≤ r.cap := by
  induction msgs generalizing r with
  | nil => exact fun _ hm => absurd hm (List.not_mem_nil)
  | cons msg msgs ih =>
      obtain ⟨behind, hn, hrest⟩ := nextMapped_of_cons hmsgs
      rw [List.length_cons, calls, List.map_cons] at hcalls
      obtain ⟨hfirst, hlater⟩ := List.cons_eq_cons.mp hcalls
      have hroom : msg.length + 2 ≤ r.cap := by
        by_contra hlong
        have hnone : r.next.1 = none := h.nextLoop_long hn (Nat.lt_of_not_le hlong) _
        rw [hnone] at hfirst
        cases hfirst
      obtain ⟨r', hnext, hadv⟩ := h.nextLoop_some r.length_rest_lt hn hroom
      have hcap : r'.cap = r.cap := congrArg (· % 2 ^ 32) hadv.size
      rw [show r.next = (some msg, r') from hnext] at hlater
      intro m hm
      rcases List.mem_cons.mp hm with rfl | hm
      · exact hroom
      · exact hcap ▸ ih hadv.live (by rw [hadv.rest, hrest]) hlater m hm

theorem GzReader.live_ofBuffer (file : Gz) (bufferBytes : ℕ) : Live file (ofBuffer file bufferBytes) := ⟨rfl, Nat.zero_le _, rfl⟩

/-- Without room for a length, the reader reports nothing but that it stopped. -/
theorem GzReader.room_of_report {file : Gz} {r : GzReader} (h : Live file r) (hcap : r.cap < 2)
    (hreport : r.report 1 = r.cursor.report 1) : (nextMapped r.rest).2 = r.rest ∧ (r.cap = 1 ∨ r.rest = []) := by
  obtain ⟨r', hnext, hstops, htrunc⟩ := h.nextLoop_short (.inr hcap) (r.buf.length + r.left.length)
  have hseen : r.report 1 = r'.cursor.seen [none] := by rw [report, calls, calls, show r.next = (none, r') from hnext]
  have hcursor : r.cursor.report 1 = r.cursor.next.2.seen [r.cursor.next.1] := rfl
  rw [hseen, hcursor] at hreport
  cases hn : nextMapped r.rest with
  | mk msg behind =>
      have hle := length_nextMapped_le hn
      rw [Cursor.next, show nextMapped r.cursor.rest = (msg, behind) from hn] at hreport
      cases msg with
      | some msg => cases congrArg Report.results hreport
      | none =>
          have hbytes : r'.bytes = r.bytes + (r.rest.length - behind.length) := congrArg Report.bytes hreport
          have htruncated : r'.truncated = decide (behind ≠ []) := congrArg Report.truncated hreport
          have hover : behind = r.rest := (suffix_nextMapped hn).eq_of_length (by rw [hstops.bytes] at hbytes; omega)
          refine ⟨hover, ?_⟩
          by_cases hempty : r.rest = []
          · exact .inr hempty
          · rw [htrunc, hover, decide_eq_true hempty] at htruncated
            have hpos := of_decide_eq_true htruncated
            have hfits := hstops.fits
            exact .inl (by omega)

/-- **The readers report the same just when there is room.** -/
theorem GzReader.report_iff (file : Gz) (bufferBytes : ℕ) :
    (∀ n, (ofBuffer file bufferBytes).report n = (MappedReader.mk file.data 0 0 0 false).report n) ↔
      HasRoom (ofBuffer file bufferBytes).cap file.data := by
  have hlive := live_ofBuffer file bufferBytes
  have hcursor : (MappedReader.mk file.data 0 0 0 false).cursor = (ofBuffer file bufferBytes).cursor := rfl
  constructor
  · intro hall
    refine ⟨?_, ?_⟩
    · refine fits_of_calls hlive rfl ?_
      have hresults := congrArg Report.results (hall (messagesOf file.data).length)
      rw [MappedReader.report_eq (Nat.zero_le _), hcursor] at hresults
      exact hresults.trans (Cursor.calls_messages (ofBuffer file bufferBytes).cursor)
    · by_cases hcap : 2 ≤ (ofBuffer file bufferBytes).cap
      · exact .inl hcap
      · have hone := hall 1
        rw [MappedReader.report_eq (Nat.zero_le _), hcursor] at hone
        exact .inr (room_of_report hlive (Nat.lt_of_not_le hcap) hone)
  · intro hroom n
    rw [report_eq (.inl ⟨file, hlive, hroom⟩), MappedReader.report_eq (Nat.zero_le _), hcursor]

/-! ### Files that were written -/

open Mold (put frame)

/-- `ItchFileWriter`: the file, and the number of messages. -/
structure ItchFileWriter where
  file : List UInt8 := []
  messages : ℕ := 0

/-- `write`. -/
def ItchFileWriter.write (w : ItchFileWriter) (msg : List UInt8) : ItchFileWriter :=
  if msg = [] ∨ 0xFFFF < msg.length then w else { file := w.file ++ put 2 msg.length ++ msg, messages := w.messages + 1 }

/-- The file of these messages. -/
def written (msgs : List (List UInt8)) : List UInt8 := (msgs.foldl ItchFileWriter.write {}).file

/-- `isGzip`. -/
def isGzip (file : List UInt8) : Bool := file.take 2 = [0x1F, 0x8B]

/-- `ItchFileReader`. -/
inductive ItchFileReader where
  | mapped (r : MappedReader)
  | streamed (r : GzReader)

/-- The constructor: a file without the mark of gzip is mapped, if it is not empty and can be. What zlib shows of it is `gz`. -/
def ItchFileReader.new (file : List UInt8) (canMap : Bool) (gz : Gz) (bufferBytes : ℕ) : ItchFileReader :=
  if !isGzip file && canMap && file ≠ [] then .mapped { view := file } else .streamed (GzReader.ofBuffer gz bufferBytes)

/-- The report of so many calls of `next`. -/
def ItchFileReader.report : ItchFileReader → ℕ → Report
  | .mapped r, n => r.report n
  | .streamed r, n => r.report n

/-- The messages in their order, and nothing left. -/
def readBack (msgs : List (List UInt8)) : Report := ⟨msgs.map some ++ [none], msgs.length, (written msgs).length, false⟩

/-- What `write` takes. -/
def Writable (msgs : List (List UInt8)) : Prop := ∀ msg ∈ msgs, 1 ≤ msg.length ∧ msg.length ≤ 0xFFFF

variable {msgs : List (List UInt8)}

theorem written_eq (h : Writable msgs) : written msgs = msgs.flatMap frame := by
  have hrun : ∀ (msgs : List (List UInt8)) (w : ItchFileWriter), Writable msgs →
      (msgs.foldl ItchFileWriter.write w).file = w.file ++ msgs.flatMap frame := by
    intro msgs
    induction msgs with
    | nil => exact fun w _ => (List.append_nil _).symm
    | cons msg msgs ih =>
        intro w hw
        obtain ⟨hpos, hle⟩ := hw msg List.mem_cons_self
        have hne : msg ≠ [] := List.length_pos_iff.mp hpos
        have hwrite : w.write msg = { file := w.file ++ put 2 msg.length ++ msg, messages := w.messages + 1 } :=
          if_neg (by rintro (hnil | hlong); exacts [hne hnil, absurd hle (Nat.not_le_of_lt hlong)])
        rw [List.foldl_cons, ih _ (fun m hm => hw m (List.mem_cons_of_mem _ hm)), hwrite, List.flatMap_cons, frame]
        simp only [List.append_assoc]
  exact (hrun msgs {} h).trans (List.nil_append _)

theorem lengthOf_put {n : ℕ} (h : n ≤ 0xFFFF) : lengthOf (UInt8.ofNat (n / 256 % 256)) (UInt8.ofNat (n % 256)) = n := by
  rw [lengthOf, UInt8.toNat_ofNat', UInt8.toNat_ofNat']
  omega

theorem nextMapped_frame {msg : List UInt8} (hpos : 1 ≤ msg.length) (hle : msg.length ≤ 0xFFFF) (tail : List UInt8) :
    nextMapped (frame msg ++ tail) = (some msg, tail) := by
  have hframe : frame msg ++ tail = UInt8.ofNat (msg.length / 256 % 256) :: UInt8.ofNat (msg.length % 256) :: (msg ++ tail) := rfl
  rw [hframe, nextMapped, lengthOf_put hle, if_neg (by omega), if_neg (by rw [List.length_append]; omega), List.take_left, List.drop_left]

theorem messagesOf_frames (h : Writable msgs) : messagesOf (msgs.flatMap frame) = msgs := by
  induction msgs with
  | nil => rfl
  | cons msg msgs ih =>
      obtain ⟨hpos, hle⟩ := h msg List.mem_cons_self
      rw [List.flatMap_cons, messagesOf_of_some (nextMapped_frame hpos hle _), ih fun m hm => h m (List.mem_cons_of_mem _ hm)]

/-- The cursor reads what was written. -/
theorem Cursor.report_frames (h : Writable msgs) (c : Cursor) (hrest : c.rest = msgs.flatMap frame) :
    c.report (msgs.length + 1) = ⟨msgs.map some ++ [none], c.messages + msgs.length, c.bytes + c.rest.length, false⟩ := by
  induction msgs generalizing c with
  | nil =>
      have hnext : c.next = (none, { c with truncated := decide (c.rest ≠ []) }) := Cursor.next_short (by rw [hrest]; decide)
      rw [report, List.length_nil, calls, calls, hnext, hrest]
      rfl
  | cons msg msgs ih =>
      obtain ⟨hpos, hle⟩ := h msg List.mem_cons_self
      have hn : nextMapped c.rest = (some msg, msgs.flatMap frame) := by
        rw [hrest, List.flatMap_cons]
        exact nextMapped_frame hpos hle _
      have hshorter := length_nextMapped_le hn
      have hlater := ih (fun m hm => h m (List.mem_cons_of_mem _ hm)) c.next.2 (by rw [Cursor.next, hn])
      have hreport : c.report ((msg :: msgs).length + 1) =
          ⟨c.next.1 :: (c.next.2.report (msgs.length + 1)).results, (c.next.2.report (msgs.length + 1)).messages,
            (c.next.2.report (msgs.length + 1)).bytes, (c.next.2.report (msgs.length + 1)).truncated⟩ := rfl
      rw [hreport, hlater, Cursor.next, hn]
      simp only [List.map_cons, List.cons_append, List.length_cons, Report.mk.injEq, true_and, and_true]
      omega

/-- A written file has the mark of gzip just when its first message has 8075 bytes. -/
theorem isGzip_written {msg : List UInt8} (h : Writable (msg :: msgs)) : isGzip (written (msg :: msgs)) = decide (msg.length = 0x1F8B) := by
  have hlen := lengthOf_put (h msg List.mem_cons_self).2
  have htake : (written (msg :: msgs)).take 2 = [UInt8.ofNat (msg.length / 256 % 256), UInt8.ofNat (msg.length % 256)] := by
    rw [written_eq h, List.flatMap_cons]
    rfl
  rw [isGzip, htake]
  refine decide_eq_decide.mpr ⟨fun hmark => ?_, fun hmark => by rw [hmark]; rfl⟩
  obtain ⟨hhigh, hlow⟩ := List.cons_eq_cons.mp hmark
  obtain ⟨hlow, -⟩ := List.cons_eq_cons.mp hlow
  rw [hhigh, hlow] at hlen
  exact hlen.symm

namespace GzReader

/-- For buffers below 4 GiB, only a message of 65535 bytes needs more than the smallest one. -/
theorem hasRoom_iff (file : Gz) {bufferBytes : ℕ} (h : bufferBytes < 2 ^ 32) :
    HasRoom (ofBuffer file bufferBytes).cap file.data ↔ 65537 ≤ bufferBytes ∨ ∀ msg ∈ messagesOf file.data, msg.length ≠ 65535 := by
  have hcap : (ofBuffer file bufferBytes).cap = if bufferBytes < 65536 then 65536 else bufferBytes := by
    change (if bufferBytes < 65536 then 65536 else bufferBytes) % 2 ^ 32 = _
    split_ifs <;> omega
  constructor
  · rintro ⟨hmsgs, -⟩
    refine Decidable.or_iff_not_imp_left.mpr fun hsmall msg hm hlong => ?_
    have hle := hmsgs msg hm
    rw [hcap] at hle
    split_ifs at hle <;> omega
  · intro hor
    refine ⟨fun msg hm => ?_, .inl (by rw [hcap]; split_ifs <;> omega)⟩
    have hlt := (length_of_mem_messagesOf hm).2
    rw [hcap]
    rcases hor with hbig | hshort
    · rw [if_neg (by omega)]
      omega
    · have hne := hshort msg hm
      split_ifs <;> omega

/-- A buffered reader that reads all that was written has room for it. -/
theorem report_written_iff {file : Gz} (bufferBytes : ℕ) (h : Writable msgs) (hdata : file.data = written msgs) :
    (ofBuffer file bufferBytes).report (msgs.length + 1) = readBack msgs ↔ HasRoom (ofBuffer file bufferBytes).cap file.data := by
  have hlive := live_ofBuffer file bufferBytes
  have hframes : file.data = msgs.flatMap frame := hdata.trans (written_eq h)
  have hmsgs : messagesOf (ofBuffer file bufferBytes).rest = msgs := (congrArg messagesOf hframes).trans (messagesOf_frames h)
  constructor
  · intro hreport
    have hresults : (calls GzReader.next (msgs.length + 1) (ofBuffer file bufferBytes)).1 = msgs.map some ++ [none] :=
      congrArg Report.results hreport
    rw [calls_succ] at hresults
    have hfits := fits_of_calls hlive hmsgs (List.append_inj_left' hresults rfl)
    refine ⟨fun msg hm => hfits msg (hmsgs ▸ hm), ?_⟩
    cases msgs with
    | nil =>
        rw [hframes]
        exact .inr ⟨rfl, .inr rfl⟩
    | cons msg msgs =>
        have hle := hfits msg List.mem_cons_self
        exact .inl (by omega)
  · intro hroom
    rw [report_eq (.inl ⟨file, hlive, hroom⟩), Cursor.report_frames h _ hframes, readBack]
    have hbytes : (ofBuffer file bufferBytes).cursor.rest.length = (written msgs).length := congrArg List.length hdata
    rw [hbytes]
    exact congrArg₂ (fun n b => Report.mk _ n b false) (Nat.zero_add _) (Nat.zero_add _)

end GzReader

/-- **Both readers agree just when the buffer has room**: for every file and buffer, however zlib cuts its output, the buffered reader
reports after every number of calls what the mapped one does if and only if each message has room. What was written is read back by the
mapped reader, and by the buffered one if and only if there is room; and a written file that does not have the mark of gzip is read back. -/
theorem readers_agree_iff (file : Gz) (bufferBytes : ℕ) :
    let streamed := GzReader.ofBuffer file bufferBytes
    ((∀ n, streamed.report n = (MappedReader.mk file.data 0 0 0 false).report n) ↔ HasRoom streamed.cap file.data) ∧
      ∀ msgs, Writable msgs →
        (MappedReader.mk (written msgs) 0 0 0 false).report (msgs.length + 1) = readBack msgs ∧
        (file.data = written msgs → (streamed.report (msgs.length + 1) = readBack msgs ↔ HasRoom streamed.cap file.data)) ∧
        (isGzip (written msgs) = false → msgs ≠ [] →
          (ItchFileReader.new (written msgs) true file bufferBytes).report (msgs.length + 1) = readBack msgs) := by
  intro streamed
  refine ⟨GzReader.report_iff file bufferBytes, fun msgs hmsgs => ?_⟩
  have hmapped : (MappedReader.mk (written msgs) 0 0 0 false).report (msgs.length + 1) = readBack msgs := by
    rw [MappedReader.report_eq (Nat.zero_le _), Cursor.report_frames hmsgs _ (written_eq hmsgs), readBack]
    exact congrArg₂ (fun n b => Report.mk _ n b false) (Nat.zero_add _) (Nat.zero_add _)
  refine ⟨hmapped, fun hdata => GzReader.report_written_iff bufferBytes hmsgs hdata, fun hmark hne => ?_⟩
  have hfile : written msgs ≠ [] := by
    obtain ⟨msg, rest, rfl⟩ := List.exists_cons_of_ne_nil hne
    rw [written_eq hmsgs]
    exact List.cons_ne_nil _ _
  have hnew : ItchFileReader.new (written msgs) true file bufferBytes = .mapped { view := written msgs } := by
    rw [ItchFileReader.new, hmark]
    exact if_pos (by simp [hfile])
  rw [hnew]
  exact hmapped

/-- In the smallest buffer, a message of 65535 bytes has no room, and the buffered reader ends before it. -/
theorem report_of_longest {msg : List UInt8} (h : msg.length = 65535) :
    ((GzReader.ofBuffer (Gz.eager (written [msg])) 65536).report 1).results = [none] ∧
      ((MappedReader.mk (written [msg]) 0 0 0 false).report 1).results = [some msg] := by
  have hwritable : Writable [msg] := fun m hm => by
    rw [List.mem_singleton.mp hm]
    omega
  have hn : nextMapped (written [msg]) = (some msg, []) := by
    rw [written_eq hwritable, List.flatMap_cons, List.flatMap_nil]
    exact nextMapped_frame (by omega) (by omega) []
  constructor
  · have hcap : (GzReader.ofBuffer (Gz.eager (written [msg])) 65536).cap < msg.length + 2 := by
      rw [h]
      exact (by decide : 65536 % 2 ^ 32 < 65535 + 2)
    exact congrArg (fun x => [x]) ((GzReader.live_ofBuffer (Gz.eager (written [msg])) 65536).nextLoop_long hn hcap _)
  · have hnext : (Cursor.mk (written [msg]) 0 0 false).next.1 = some msg := by rw [Cursor.next, hn]
    rw [MappedReader.report_eq (Nat.zero_le _)]
    exact congrArg (fun x => [x]) hnext

/-- The longest message, all zeros. -/
def longestMessage : List UInt8 := List.replicate 65535 0

/-- With a buffer of 65536 bytes, the longest message is not read. -/
theorem longest_message_unread :
    (GzReader.ofBuffer (Gz.eager (written [longestMessage])) 65536).report 1 ≠
      (MappedReader.mk (written [longestMessage]) 0 0 0 false).report 1 := by
  have hlength : longestMessage.length = 65535 := List.length_replicate ..
  obtain ⟨hstreamed, hmapped⟩ := report_of_longest hlength
  intro heq
  rw [heq, hmapped] at hstreamed
  cases hstreamed

end TickToTrade.Replay
