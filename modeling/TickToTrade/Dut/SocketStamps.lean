import TickToTrade.Dut.TxStamps
import TickToTrade.Util.RingCells

/-!
# Stamps on a socket

The thread that has the connection to the venue keeps the sends whose stamps have not come in a ring.
The kernel names a send by the number of its last byte in the stream, modulo `2^32`, and the stamps
come in the order of the sends: the sends in front of the one that is named are passed over.
-/

namespace TickToTrade.Dut

open Util

/-! ### What the thread keeps -/

/-- The length of a packet, which is put together in a buffer of 256 bytes. -/
structure PacketSize where
  bytes : ℕ
  pos : 0 < bytes
  fits : bytes ≤ 256
deriving DecidableEq

/-- `SocketTxRef`. -/
structure SocketTxRef where
  key : ℕ := 0
  userRef : ℕ := kNoRef
deriving DecidableEq, Repr

/-- `OrderThreadState`, as far as the samples need it. The counters `txSeq` and `txRead` are never far apart, so nothing
depends on where they wrap. -/
structure OrderThreadState where
  txBytes : ℕ := 0
  txSeq : ℕ := 0
  txRead : ℕ := 0
  txRefs : ℕ → SocketTxRef := fun _ => {}
  inflight : ℕ → InFlight := fun _ => {}
  /-- What was recorded. -/
  samples : List ℕ := []

namespace OrderThreadState

/-- `orderSend`, for a packet that the connection took. -/
def orderSend (o : OrderThreadState) (size userRef rxStamp : ℕ) : OrderThreadState where
  txBytes := o.txBytes + size
  txSeq := o.txSeq + 1
  txRead := if o.txSeq - o.txRead = kTxRefs then o.txRead + 1 else o.txRead
  txRefs := Function.update o.txRefs (o.txSeq % kTxRefs) ⟨(o.txBytes + size - 1) % 2 ^ 32, userRef⟩
  inflight :=
    if userRef ≠ kNoRef then Function.update o.inflight (userRef % kInFlight) ⟨userRef, rxStamp, true⟩ else o.inflight
  samples := o.samples

/-- Is the difference of two numbers below zero, as a signed word of 32 bits? -/
def Behind (a b : ℕ) : Prop := 2 ^ 31 ≤ (a + 2 ^ 32 - b) % 2 ^ 32

instance (a b : ℕ) : Decidable (Behind a b) := inferInstanceAs (Decidable (_ ≤ _))

/-- The loop of `orderCompleteTx`, for this many sends at most: the sends in front of the named one are passed over. -/
def passOver (key : ℕ) : ℕ → OrderThreadState → OrderThreadState
  | 0, o => o
  | n + 1, o =>
      if Behind (o.txRefs (o.txRead % kTxRefs)).key key then passOver key n { o with txRead := o.txRead + 1 } else o

/-- `orderCompleteTx`. -/
def orderCompleteTx (o : OrderThreadState) (key txNs : ℕ) : OrderThreadState :=
  let o := passOver key (o.txSeq - o.txRead) o
  let ref := o.txRefs (o.txRead % kTxRefs)
  if o.txRead = o.txSeq ∨ ref.key ≠ key then o
  else
    let o := { o with txRead := o.txRead + 1 }
    if ref.userRef = kNoRef ∨ txNs = 0 then o
    else
      let slot := o.inflight (ref.userRef % kInFlight)
      if !slot.live ∨ slot.userRef ≠ ref.userRef then o
      else if slot.rxStamp ≠ 0 ∧ txNs > slot.rxStamp then { o with samples := o.samples ++ [txNs - slot.rxStamp] }
      else o

/-- The number that `orderDrainTxStamps` takes for none. -/
def kNoKey : ℕ := 0xFFFFFFFF

/-- The loop body of `orderDrainTxStamps`. -/
def orderDrainTxStamp (o : OrderThreadState) (key ns : ℕ) : OrderThreadState :=
  if key ≠ kNoKey then o.orderCompleteTx key ns else o

end OrderThreadState

/-! ### Sends and stamps -/

/-- What happens to the samples of the thread. -/
inductive OrderDeed where
  /-- A packet of this length is sent; `some rx` if it is timed, from the receive stamp `rx` on. -/
  | send (size : PacketSize) (userRef : ℕ) (trigger : Option ℕ)
  /-- A transmit stamp comes. -/
  | stamp (key ns : ℕ)
deriving DecidableEq

/-- A deed at the thread. -/
def OrderThreadState.step (o : OrderThreadState) : OrderDeed → OrderThreadState
  | .send size userRef trigger => o.orderSend size.bytes (if trigger = none then kNoRef else userRef) (trigger.getD 0)
  | .stamp key ns => o.orderDrainTxStamp key ns

/-- The name that the kernel has for a send whose last byte is the one with this number. -/
def Sent.name (p : Sent) : ℕ := p.key % 2 ^ 32

/-- The sends that wait, and the pairs of stamps that should have been recorded. -/
structure OrderWatch where
  /-- The number of bytes sent. -/
  bytes : ℕ := 0
  /-- The sends whose stamps may still come, the first one first. The key of a send is the number of its last byte. -/
  queue : List Sent := []
  /-- The timed sends whose references no later timed send has. -/
  held : List Sent := []
  /-- The receive stamp and the transmit stamp of each timed send whose transmit stamp has come. -/
  due : List (ℕ × ℕ) := []

namespace OrderWatch

/-- The sends from the named one on. -/
def awaited (w : OrderWatch) (key : ℕ) : List Sent := w.queue.dropWhile fun p => p.name ≠ key

theorem queue_of_awaited {w : OrderWatch} {key : ℕ} {p : Sent} {rest : List Sent} (h : w.awaited key = p :: rest) :
    ∃ front, w.queue = front ++ p :: rest ∧ p.name = key := by
  refine ⟨w.queue.takeWhile fun p => p.name ≠ key, ?_, ?_⟩
  · rw [← h]
    exact List.takeWhile_append_dropWhile.symm
  · have hhead := List.head?_dropWhile_not (fun p : Sent => decide (p.name ≠ key)) w.queue
    rw [show w.queue.dropWhile (fun p => decide (p.name ≠ key)) = p :: rest from h] at hhead
    simpa using hhead

/-- A deed. -/
def step (w : OrderWatch) : OrderDeed → OrderWatch
  | .send size userRef trigger =>
      let q : Sent := ⟨w.bytes + size.bytes - 1, userRef, trigger⟩
      { bytes := w.bytes + size.bytes
        queue := (if w.queue.length = kTxRefs then w.queue.tail else w.queue) ++ [q]
        held := (if Watch.Timed q then [q] else []) ++ w.held.filter fun p => ¬ (Watch.Timed q ∧ p.Shares q)
        due := w.due }
  | .stamp key ns =>
      match w.awaited key with
      | p :: rest =>
          { w with
            queue := if key = OrderThreadState.kNoKey then w.queue else rest
            due := w.due ++ if ns = 0 then [] else p.pairs ns }
      | [] => w

/-- A stamp is one of a send that waits for it. If the send is timed, its reference is still its own, its name is one, and the
packet that triggered it has an earlier stamp. -/
def Clear (w : OrderWatch) : OrderDeed → Prop
  | .send .. => True
  | .stamp key ns =>
      ∃ p ∈ (w.awaited key).head?, p.trigger ≠ none → ns ≠ 0 →
        p ∈ w.held ∧ key ≠ OrderThreadState.kNoKey ∧ ∀ rx ∈ p.trigger, 0 < rx ∧ rx < ns

instance (w : OrderWatch) : (d : OrderDeed) → Decidable (w.Clear d)
  | .send .. => .isTrue trivial
  | .stamp .. => inferInstanceAs (Decidable (∃ p ∈ (w.awaited _).head?, _))

end OrderWatch

/-! ### What the ring has to do with the sends -/

/-- The sends come one after the other, and their packets fill what there is between the first one and the end of the stream. -/
def Spans (bytes : ℕ) : List Sent → Prop
  | [] => True
  | p :: l => p.key < bytes ∧ bytes ≤ p.key + 256 * (l.length + 1) ∧ (∀ q ∈ l, p.key < q.key) ∧ Spans bytes l

theorem Spans.drop {bytes : ℕ} {l l' : List Sent} (h : Spans bytes (l ++ l')) : Spans bytes l' := by
  induction l with
  | nil => exact h
  | cons p l ih => exact ih h.2.2.2

theorem Spans.tail {bytes : ℕ} {l : List Sent} (h : Spans bytes l) : Spans bytes l.tail := by
  cases l with
  | nil => exact h
  | cons p l => exact h.2.2.2

/-- A packet joins. -/
theorem Spans.push {bytes : ℕ} {l : List Sent} (h : Spans bytes l) (size : PacketSize) (userRef : ℕ) (trigger : Option ℕ) :
    Spans (bytes + size.bytes) (l ++ [⟨bytes + size.bytes - 1, userRef, trigger⟩]) := by
  have hpos := size.pos
  have hle := size.fits
  induction l with
  | nil => exact ⟨by simp only; omega, by simp only [List.length_nil]; omega, by simp, trivial⟩
  | cons p l ih =>
      obtain ⟨hlt, hb, hlater, hrest⟩ := h
      have hlen : bytes + size.bytes ≤ p.key + 256 * ((l ++ [(⟨bytes + size.bytes - 1, userRef, trigger⟩ : Sent)]).length + 1) := by
        rw [List.length_append, List.length_singleton]
        omega
      refine ⟨by omega, hlen, fun q hq => ?_, ih hrest⟩
      rcases List.mem_append.mp hq with hq | hq
      · exact hlater q hq
      · rw [List.mem_singleton.mp hq]
        show p.key < bytes + size.bytes - 1
        omega

/-- What the ring has of a send. -/
def Sent.cell (p : Sent) : SocketTxRef := ⟨p.name, if p.trigger = none then kNoRef else p.userRef⟩

namespace OrderThreadState

/-- The ring has the sends that wait, and the table has the receive stamps of those that are held. -/
structure Tracks (o : OrderThreadState) (w : OrderWatch) : Prop where
  bytes : o.txBytes = w.bytes
  fits : w.queue.length ≤ kTxRefs
  count : o.txSeq = o.txRead + w.queue.length
  cells : InCells kTxRefs o.txRefs o.txRead (w.queue.map Sent.cell)
  spans : Spans w.bytes w.queue
  holds : ∀ p ∈ w.held, Watch.Timed p ∧ ∃ rx, p.trigger = some rx ∧ o.inflight (p.userRef % kInFlight) = ⟨p.userRef, rx, true⟩
  samples : o.samples = w.due.map fun x => x.2 - x.1

variable {o : OrderThreadState} {w : OrderWatch}

/-! ### Sends -/

/-- The first send leaves a full ring, and a place is free for one more. -/
theorem Tracks.makeRoom (h : o.Tracks w) :
    ∃ queue, (if w.queue.length = kTxRefs then w.queue.tail else w.queue) = queue ∧ queue.length < kTxRefs ∧
      o.txSeq = (if o.txSeq - o.txRead = kTxRefs then o.txRead + 1 else o.txRead) + queue.length ∧
      InCells kTxRefs o.txRefs (if o.txSeq - o.txRead = kTxRefs then o.txRead + 1 else o.txRead) (queue.map Sent.cell) ∧
      Spans w.bytes queue := by
  have hcount := h.count
  have hfits := h.fits
  have hsub : o.txSeq - o.txRead = w.queue.length := by omega
  rw [hsub]
  by_cases hfull : w.queue.length = kTxRefs
  · rw [if_pos hfull, if_pos hfull]
    have hne : w.queue ≠ [] := fun hnil => by
      rw [hnil] at hfull
      cases hfull
    have hpos : 0 < w.queue.length := List.length_pos_iff.mpr hne
    refine ⟨_, rfl, by rw [List.length_tail]; omega, by rw [List.length_tail]; omega, ?_, h.spans.tail⟩
    rw [List.map_tail]
    exact h.cells.tail (by simpa using hne)
  · rw [if_neg hfull, if_neg hfull]
    exact ⟨_, rfl, by omega, by omega, h.cells, h.spans⟩

/-- A send keeps the agreement. -/
theorem Tracks.send (h : o.Tracks w) (size : PacketSize) (userRef : ℕ) (trigger : Option ℕ) :
    (o.step (.send size userRef trigger)).Tracks (w.step (.send size userRef trigger)) := by
  obtain ⟨queue, hqueue, hroom, hcount, hcells, hspans⟩ := h.makeRoom
  refine ⟨?_, ?_, ?_, ?_, ?_, ?_, h.samples⟩
  · exact congrArg (· + size.bytes) h.bytes
  · simp only [OrderWatch.step, hqueue, List.length_append, List.length_singleton]
    omega
  · simp only [OrderWatch.step, hqueue, List.length_append, List.length_singleton, step, orderSend]
    omega
  · simp only [OrderWatch.step, hqueue, step, orderSend, List.map_append, List.map_cons, List.map_nil]
    have hpush := hcells.push (by simpa using hroom) (Sent.cell ⟨w.bytes + size.bytes - 1, userRef, trigger⟩)
    rw [List.length_map, ← hcount] at hpush
    rw [h.bytes]
    exact hpush
  · simp only [OrderWatch.step, hqueue]
    exact hspans.push size userRef trigger
  · intro p hp
    simp only [OrderWatch.step, List.mem_append, List.mem_filter, decide_eq_true_eq] at hp
    simp only [step, orderSend]
    rcases hp with hp | ⟨hp, hs⟩
    · split_ifs at hp with ht
      · rw [List.mem_singleton] at hp
        subst hp
        obtain ⟨rx, hrx⟩ := Option.ne_none_iff_exists'.mp ht.1
        simp only at hrx
        subst hrx
        have href : userRef ≠ kNoRef := ht.2
        refine ⟨ht, rx, rfl, ?_⟩
        simp [href]
      · cases hp
    · obtain ⟨ht, rx, hrx, hin⟩ := h.holds p hp
      refine ⟨ht, rx, hrx, ?_⟩
      by_cases hq : trigger = none
      · simp [hq, hin]
      · by_cases href : userRef = kNoRef
        · simp [href, hin]
        · have hne : p.userRef % kInFlight ≠ userRef % kInFlight := fun he => hs ⟨⟨hq, href⟩, he⟩
          simp [hq, href, Function.update_of_ne hne, hin]

/-! ### Stamps -/

/-- A send that comes not too long before another one is behind it, by their names. -/
theorem behind_name {p q : Sent} (hlt : p.key < q.key) (hle : q.key ≤ p.key + 2 ^ 17) : Behind p.name q.name := by
  unfold Behind Sent.name
  omega

theorem not_behind_self (p : Sent) : ¬ Behind p.name p.name := by
  unfold Behind Sent.name
  omega

/-- The loop passes over the sends in front of the named one. -/
theorem passOver_eq {p : Sent} {front rest : List Sent} {bytes n : ℕ} (hn : front.length < n)
    (hfits : (front ++ p :: rest).length ≤ kTxRefs) (hcells : InCells kTxRefs o.txRefs o.txRead ((front ++ p :: rest).map Sent.cell))
    (hspans : Spans bytes (front ++ p :: rest)) : passOver p.name n o = { o with txRead := o.txRead + front.length } := by
  induction front generalizing o n with
  | nil =>
      obtain ⟨n, rfl⟩ := Nat.exists_eq_add_of_lt hn
      have hcell : o.txRefs (o.txRead % kTxRefs) = p.cell := hcells.1
      have hself : ¬ Behind (o.txRefs (o.txRead % kTxRefs)).key p.name := by
        rw [hcell]
        exact not_behind_self p
      rw [show ([] : List Sent).length + n + 1 = n + 1 by simp, passOver, if_neg hself]
      rfl
  | cons q front ih =>
      obtain ⟨m, rfl⟩ : ∃ m, n = m + 1 := ⟨n - 1, by omega⟩
      rw [List.length_cons] at hn
      have hcell : o.txRefs (o.txRead % kTxRefs) = q.cell := hcells.1
      have hb : bytes ≤ q.key + 256 * ((front ++ p :: rest).length + 1) := hspans.2.1
      have hp : p.key < bytes := hspans.2.2.2.drop.1
      have hlen : (front ++ p :: rest).length + 1 ≤ 256 := hfits
      have hbehind : Behind (o.txRefs (o.txRead % kTxRefs)).key p.name := by
        rw [hcell]
        exact behind_name (hspans.2.2.1 p (List.mem_append_right _ List.mem_cons_self)) (by omega)
      rw [passOver, if_pos hbehind, ih (by omega) (Nat.le_of_succ_le hfits) hcells.2 hspans.2.2.2]
      simp only [List.length_cons, Nat.add_assoc, Nat.add_comm 1]

/-- What the loop finds for a send that waits: it takes the send and those in front of it out of the ring. -/
theorem Tracks.orderCompleteTx_eq (h : o.Tracks w) {p : Sent} {front rest : List Sent} (hq : w.queue = front ++ p :: rest) (ns : ℕ) :
    o.orderCompleteTx p.name ns =
      if p.cell.userRef = kNoRef ∨ ns = 0 then { o with txRead := o.txRead + front.length + 1 }
      else
        let slot := o.inflight (p.cell.userRef % kInFlight)
        if !slot.live ∨ slot.userRef ≠ p.cell.userRef then { o with txRead := o.txRead + front.length + 1 }
        else if slot.rxStamp ≠ 0 ∧ ns > slot.rxStamp then
          { o with txRead := o.txRead + front.length + 1, samples := o.samples ++ [ns - slot.rxStamp] }
        else { o with txRead := o.txRead + front.length + 1 } := by
  have hcount := h.count
  have hfits := h.fits
  have hcells := h.cells
  have hspans := h.spans
  rw [hq] at hcount hfits hcells hspans
  have hlen : (front ++ p :: rest).length = front.length + (rest.length + 1) := by simp
  have hcell : o.txRefs ((o.txRead + front.length) % kTxRefs) = p.cell := by
    rw [List.map_append] at hcells
    have hdrop := hcells.drop
    rw [List.length_map] at hdrop
    exact hdrop.1
  have hpass := passOver_eq (by omega : front.length < o.txSeq - o.txRead) hfits hcells hspans
  have hkey : ¬ (o.txRead + front.length = o.txSeq ∨ p.cell.key ≠ p.name) := by
    rintro (he | hne)
    · omega
    · exact hne rfl
  unfold orderCompleteTx
  simp only [hpass, hcell]
  rw [if_neg hkey]

/-- A stamp keeps the agreement. -/
theorem Tracks.stamp (h : o.Tracks w) {key ns : ℕ} (hclear : w.Clear (.stamp key ns)) :
    (o.step (.stamp key ns)).Tracks (w.step (.stamp key ns)) := by
  obtain ⟨p, hhead, htimed⟩ := hclear
  obtain ⟨rest, hawaited⟩ : ∃ rest, w.awaited key = p :: rest := List.head?_eq_some_iff.mp hhead
  obtain ⟨front, hq, rfl⟩ := OrderWatch.queue_of_awaited hawaited
  simp only [step, orderDrainTxStamp, OrderWatch.step, hawaited]
  by_cases hkey : p.name = kNoKey
  · -- the stamp is taken for none, and so its send may not be timed
    have hnone : (if ns = 0 then [] else p.pairs ns) = [] := by
      by_cases hns : ns = 0
      · rw [if_pos hns]
      · rw [if_neg hns]
        by_cases ht : p.trigger = none
        · simp [Sent.pairs, ht]
        · exact absurd hkey (htimed ht hns).2.1
    rw [if_neg (by simpa using hkey), if_pos hkey, hnone, List.append_nil]
    exact h
  · rw [if_pos hkey, if_neg hkey, h.orderCompleteTx_eq hq ns]
    have hcount := h.count
    have hfits := h.fits
    have hcells := h.cells
    have hspans := h.spans
    rw [hq] at hcount hfits hcells hspans
    rw [List.length_append, List.length_cons] at hcount hfits
    rw [List.map_append] at hcells
    have hdrop := hcells.drop.2
    rw [List.length_map] at hdrop
    -- the ring after the stamp, whatever is recorded
    have hrest : ∀ samples due, samples = due.map (fun x : ℕ × ℕ => x.2 - x.1) →
        Tracks { o with txRead := o.txRead + front.length + 1, samples := samples } { w with queue := rest, due := due } :=
      fun samples due hs => ⟨h.bytes, by show rest.length ≤ kTxRefs; omega, by show o.txSeq = o.txRead + front.length + 1 + rest.length; omega, hdrop,
        hspans.drop.2.2.2, h.holds, hs⟩
    by_cases ht : p.trigger = none
    · rw [if_pos (.inl (if_pos ht))]
      refine hrest _ _ ?_
      rw [h.samples]
      simp [Sent.pairs, ht]
    · by_cases hns : ns = 0
      · rw [if_pos (.inr hns), if_pos hns, List.append_nil]
        exact hrest _ _ h.samples
      · obtain ⟨hheld, -, hrx⟩ := htimed ht hns
        obtain ⟨hp, rx, htrig, hin⟩ := h.holds p hheld
        have href : p.cell.userRef = p.userRef := if_neg ht
        obtain ⟨hpos, hlt⟩ := hrx rx htrig
        rw [href, if_neg (not_or.mpr ⟨hp.2, hns⟩), hin]
        rw [if_neg (by simp), if_pos ⟨Nat.ne_of_gt hpos, hlt⟩, if_neg hns]
        refine hrest _ _ ?_
        rw [h.samples]
        simp [Sent.pairs, htrig]

/-- A deed keeps the agreement. -/
theorem Tracks.step (h : o.Tracks w) : {d : OrderDeed} → w.Clear d → (o.step d).Tracks (w.step d)
  | .send size userRef trigger, _ => h.send size userRef trigger
  | .stamp _ _, hclear => h.stamp hclear

/-- Before the first send there is nothing to agree on. -/
theorem tracks_new : Tracks {} {} :=
  ⟨rfl, Nat.zero_le _, rfl, trivial, trivial, fun _ hp => absurd hp List.not_mem_nil, rfl⟩

/-- **Over a run of deeds** the thread stays in agreement, as long as every stamp comes for a send that waits for it, and for a timed
one while it is held. -/
theorem Tracks.run (h : o.Tracks w) (deeds : List OrderDeed) (hclear : Along OrderWatch.step OrderWatch.Clear w deeds) :
    (deeds.foldl OrderThreadState.step o).Tracks (deeds.foldl OrderWatch.step w) :=
  hclear.simulates (fun h hd => h.step hd) h

end OrderThreadState

end TickToTrade.Dut
