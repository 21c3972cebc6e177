import TickToTrade.Dut.SequenceTracker
import TickToTrade.Protocol.MoldPacker
import TickToTrade.Sim.ExchangeSession

/-!
# The market data of the exchange's session

The session packs the messages that it publishes. A packet stays open from one message to
the next until it is flushed: after each call of a venue, and by the replay when it pauses.
A message that does not fit closes the packet and opens the next.

`Keeps` is the invariant: what has gone out, read packet by packet, and what the open
packet holds are together what was published. From it follows `packed_in_order`, the
result about every sequence of messages and flushes, and `session_published`, about the
calls of a session.
-/

namespace TickToTrade.Sim

open Mold Dut

/-- `IoMode`. -/
inductive IoMode where
  | loopback
  | socket
  | transport
deriving DecidableEq, Repr

/-- The bytes of a frame in front of its payload. -/
def kL2L3L4Overhead : ℕ := 42

/-- The size of `m_mdBuf`. -/
def kMdBuf : ℕ := 2048

/-- `mdCapacity`: the most bytes of a packet. -/
def mdCapacity (mode : IoMode) (mdMaxPayload maxTxFrame : ℕ) : ℕ :=
  let cap := mdMaxPayload
  let cap :=
    if mode = .transport ∧ maxTxFrame > kL2L3L4Overhead then
      let wire := maxTxFrame - kL2L3L4Overhead
      if cap = 0 ∨ wire < cap then wire else cap
    else cap
  if cap < kHeaderSize + 64 ∨ cap > kMdBuf then kMdBuf else cap

theorem mdCapacity_bounds (mode : IoMode) (mdMaxPayload maxTxFrame : ℕ) :
    kHeaderSize + 64 ≤ mdCapacity mode mdMaxPayload maxTxFrame ∧ mdCapacity mode mdMaxPayload maxTxFrame ≤ kMdBuf := by
  unfold mdCapacity
  simp only
  generalize (if mode = .transport ∧ maxTxFrame > kL2L3L4Overhead then _ else _ : ℕ) = cap
  split_ifs with h
  · exact ⟨by decide, Nat.le_refl _⟩
  · omega

/-- The packing of a session: `m_packer`, `mdCapacity()`, `m_mdOpen`, and the packets that
`marketDataOut` has got. -/
structure MarketData where
  packer : Packer
  capacity : ℕ
  mdOpen : Bool := false
  sent : List (List UInt8) := []

namespace MarketData

/-- The constructor of a session. -/
def new (session : List UInt8) (capacity : ℕ) : MarketData where
  packer := Packer.new session 1
  capacity := capacity

def flushMarketData (m : MarketData) : MarketData :=
  { m with
    sent := if m.mdOpen ∧ m.packer.count > 0 then m.sent ++ [m.packer.finalize] else m.sent
    mdOpen := false }

/-- Open a packet. -/
def openPacket (m : MarketData) : MarketData := { m with packer := m.packer.reset m.capacity, mdOpen := true }

def appendMarketData (m : MarketData) (itch : List UInt8) : MarketData :=
  let m := if m.mdOpen then m else m.openPacket
  let (done, packer) := m.packer.append itch
  let m := { m with packer := packer }
  if done then m
  else
    let m := m.flushMarketData.openPacket
    { m with packer := (m.packer.append itch).2 }

/-- What happens to the packing. -/
inductive Op where
  | append (itch : List UInt8)
  | flush
deriving DecidableEq, Repr

def step (m : MarketData) : Op → MarketData
  | .append itch => m.appendMarketData itch
  | .flush => m.flushMarketData

def run (m : MarketData) (ops : List Op) : MarketData := ops.foldl step m

/-- The messages published. -/
def published (ops : List Op) : List (List UInt8) :=
  ops.filterMap fun
    | .append itch => some itch
    | .flush => none

/-- What a tracker says of packets, one after the other, and where it is after them. -/
def trackAll : SequenceTracker → List (List UInt8) → List SequenceTracker.Result × SequenceTracker
  | t, [] => ([], t)
  | t, pkt :: pkts =>
      let (r, t) := t.onPacket (sequenceOf pkt) (countOf pkt)
      let (rs, t) := trackAll t pkts
      (r :: rs, t)

theorem trackAll_append (t : SequenceTracker) (pkts pkts' : List (List UInt8)) :
    trackAll t (pkts ++ pkts') =
      ((trackAll t pkts).1 ++ (trackAll (trackAll t pkts).2 pkts').1, (trackAll (trackAll t pkts).2 pkts').2) := by
  induction pkts generalizing t with
  | nil => rfl
  | cons pkt pkts ih =>
      simp only [List.cons_append, trackAll]
      rw [ih]

/-- A packet that starts at the expected number is in order. -/
theorem onPacket_expected {t : SequenceTracker} {seq : ℕ} (count : ℕ) (h : t.started = true → t.expected = seq) :
    (t.onPacket seq count).1 = .inOrder ∧
      (t.onPacket seq count).2.expected = (seq + SequenceTracker.advance count) % 2 ^ 64 := by
  unfold SequenceTracker.onPacket
  by_cases hs : t.started = true
  · simp [hs, h hs]
  · simp [hs]

/-- What has gone out, and what the open packet holds. -/
structure Keeps (first : ℕ) (m : MarketData) (gone held : List (List UInt8)) : Prop where
  room : kHeaderSize ≤ m.capacity ∧ m.capacity ≤ kMdBuf
  read : m.sent.flatMap forEachMessage = inSequence first gone
  sized : ∀ pkt ∈ m.sent, pkt.length ≤ m.capacity ∧ forEachMessage pkt ≠ []
  ordered : ∀ r ∈ (trackAll {} m.sent).1, r = .inOrder
  expected : (trackAll {} m.sent).2.started = true → (trackAll {} m.sent).2.expected = (first + gone.length) % 2 ^ 64
  opened : m.mdOpen = true →
    m.packer.Packed held ∧ m.packer.cap = m.capacity ∧ m.packer.firstSeq = (first + gone.length) % 2 ^ 64
  closed : m.mdOpen = false → held = [] ∧ m.packer.seq = (first + gone.length) % 2 ^ 64

namespace Keeps

variable {first : ℕ} {m : MarketData} {gone held : List (List UInt8)} {msg : List UInt8}

/-- A flush sends the packet that is open, unless it is empty. -/
theorem flush (h : Keeps first m gone held) :
    Keeps first m.flushMarketData (gone ++ held) [] ∧ m.flushMarketData.mdOpen = false ∧
      m.flushMarketData.capacity = m.capacity := by
  refine ⟨?_, rfl, rfl⟩
  cases hopen : m.mdOpen with
  | false =>
      obtain ⟨rfl, hseq⟩ := h.closed hopen
      have hsame : m.flushMarketData = m := by
        unfold flushMarketData
        rw [if_neg (by simp [hopen]), ← hopen]
      rw [hsame, List.append_nil]
      exact h
  | true =>
      obtain ⟨hpacked, hcap, hfirst⟩ := h.opened hopen
      have hlength : first + (gone ++ held).length = first + gone.length + held.length := by
        rw [List.length_append, Nat.add_assoc]
      have hseq : m.packer.seq = (first + (gone ++ held).length) % 2 ^ 64 := by
        rw [hpacked.seq, hfirst, hlength, Nat.mod_add_mod]
      by_cases hheld : held = []
      · -- a packet without messages is forgotten
        have hsent : m.flushMarketData.sent = m.sent := by
          unfold flushMarketData
          simp only
          rw [if_neg]
          rw [hpacked.count, hheld]
          simp
        subst hheld
        rw [List.append_nil] at hseq ⊢
        exact ⟨h.room, by rw [hsent]; exact h.read, by rw [hsent]; exact h.sized, by rw [hsent]; exact h.ordered,
          by rw [hsent]; exact h.expected, nofun, fun _ => ⟨rfl, hseq⟩⟩
      have hpos : 0 < held.length := List.length_pos_iff.mpr hheld
      have hsent : m.flushMarketData.sent = m.sent ++ [m.packer.finalize] := by
        unfold flushMarketData
        simp only
        rw [if_pos ⟨hopen, by rw [hpacked.count]; exact hpos⟩]
      have hread : forEachMessage m.packer.finalize = inSequence (first + gone.length) held := by
        rw [hpacked.forEachMessage_finalize, hfirst, inSequence_mod]
      have hadvance : SequenceTracker.advance held.length = held.length :=
        if_pos ⟨Nat.ne_of_gt hpos, Nat.ne_of_lt hpacked.below⟩
      -- the packet starts where the tracker expects it
      have hexpected : (trackAll {} m.sent).2.started = true →
          (trackAll {} m.sent).2.expected = sequenceOf m.packer.finalize := by
        rw [hpacked.sequenceOf_finalize, hfirst, Nat.mod_mod]
        exact h.expected
      have htrack := onPacket_expected (countOf m.packer.finalize) hexpected
      rw [hpacked.countOf_finalize, hpacked.sequenceOf_finalize, hfirst, Nat.mod_mod, hadvance, Nat.mod_add_mod] at htrack
      have hall : trackAll {} m.flushMarketData.sent =
          ((trackAll {} m.sent).1 ++ [((trackAll {} m.sent).2.onPacket ((first + gone.length) % 2 ^ 64) held.length).1],
            ((trackAll {} m.sent).2.onPacket ((first + gone.length) % 2 ^ 64) held.length).2) := by
        rw [hsent, trackAll_append, trackAll, hpacked.countOf_finalize, hpacked.sequenceOf_finalize, hfirst, Nat.mod_mod]
        rfl
      refine ⟨h.room, ?_, fun pkt hpkt => ?_, fun r hr => ?_, fun _ => ?_, nofun, fun _ => ⟨rfl, hseq⟩⟩
      · rw [hsent, List.flatMap_append, h.read, List.flatMap_singleton, hread, inSequence_append]
      · rw [hsent] at hpkt
        obtain hpkt | hpkt := List.mem_append.mp hpkt
        · exact h.sized pkt hpkt
        · rw [List.mem_singleton.mp hpkt, hpacked.length_finalize, hread]
          refine ⟨hcap ▸ hpacked.fits, fun hnil => hheld ?_⟩
          rw [inSequence, List.mapIdx_eq_nil_iff] at hnil
          exact hnil
      · rw [hall] at hr
        obtain hr | hr := List.mem_append.mp hr
        · exact h.ordered r hr
        · rw [List.mem_singleton.mp hr]
          exact htrack.1
      · rw [hall, htrack.2, hlength]

/-- A packet is opened. -/
theorem openPacket (h : Keeps first m gone held) (hclosed : m.mdOpen = false) :
    Keeps first m.openPacket gone [] ∧ m.openPacket.packer.len = kHeaderSize ∧ m.openPacket.packer.count = 0 := by
  obtain ⟨rfl, hseq⟩ := h.closed hclosed
  have hlt : m.packer.seq < 2 ^ 64 := by
    rw [hseq]
    exact Nat.mod_lt _ (by decide)
  exact ⟨⟨h.room, h.read, h.sized, h.ordered, h.expected,
    fun _ => ⟨Packer.packed_reset hlt h.room.1, rfl, hseq⟩, nofun⟩, rfl, rfl⟩

/-- A message joins the open packet. -/
theorem join (h : Keeps first m gone held) (hopen : m.mdOpen = true) (hshort : msg.length < 2 ^ 16)
    (hfits : m.packer.len + (2 + msg.length) ≤ m.capacity) (hcount : m.packer.count < kEndOfSession - 1) :
    (m.packer.append msg).1 = true ∧ Keeps first { m with packer := (m.packer.append msg).2 } gone (held ++ [msg]) := by
  obtain ⟨hpacked, hcap, hfirst⟩ := h.opened hopen
  obtain ⟨hdone, hpacked', hfirst', hcap', -⟩ := hpacked.append hshort (by rw [hcap]; exact hfits) hcount
  exact ⟨hdone, h.room, h.read, h.sized, h.ordered, h.expected,
    fun _ => ⟨hpacked', by rw [hcap', hcap], by rw [hfirst', hfirst]⟩, fun hclosed => by simp [hopen] at hclosed⟩

/-- **A message is published**: it joins the open packet, or a new one. -/
theorem append (h : Keeps first m gone held) (hsize : msg.length + 22 ≤ m.capacity) :
    ∃ gone' held', Keeps first (m.appendMarketData msg) gone' held' ∧ gone' ++ held' = gone ++ held ++ [msg] := by
  have hmax : m.capacity ≤ 2048 := h.room.2
  have hshort : msg.length < 2 ^ 16 := by omega
  -- a new packet has room for the message
  have hnew : ∀ {m' : MarketData} {gone' : List (List UInt8)}, Keeps first m' gone' [] → m'.mdOpen = false →
      m'.capacity = m.capacity → (m'.openPacket.packer.append msg).1 = true ∧
        Keeps first { m'.openPacket with packer := (m'.openPacket.packer.append msg).2 } gone' [msg] := by
    intro m' gone' hk hclosed hcap
    obtain ⟨hk', hlen, hcount⟩ := hk.openPacket hclosed
    refine hk'.join rfl hshort ?_ (by rw [hcount]; decide)
    rw [hlen, show m'.openPacket.capacity = m'.capacity from rfl, hcap, show kHeaderSize = 20 from rfl]
    omega
  unfold appendMarketData
  cases hopen : m.mdOpen with
  | false =>
      obtain ⟨rfl, -⟩ := h.closed hopen
      obtain ⟨hdone, hk⟩ := hnew h hopen rfl
      simp only [Bool.false_eq_true, if_false, hdone, if_true]
      exact ⟨gone, [msg], hk, by rw [List.append_nil]⟩
  | true =>
      simp only [if_true]
      obtain ⟨hdone, hfits, hcount⟩ | hfull := m.packer.append_cases msg
      · rw [(h.opened hopen).2.1] at hfits
        rw [hdone, if_pos rfl]
        exact ⟨gone, held ++ [msg], (h.join hopen hshort hfits hcount).2, (List.append_assoc ..).symm⟩
      · simp only [hfull, Bool.false_eq_true, if_false]
        obtain ⟨hk, hclosed, hcap⟩ := h.flush
        exact ⟨gone ++ held, [msg], (hnew hk hclosed hcap).2, rfl⟩

end Keeps

theorem capacity_step (m : MarketData) (op : Op) : (m.step op).capacity = m.capacity := by
  cases op with
  | append itch =>
      simp only [step, appendMarketData]
      split_ifs <;> rfl
  | flush => rfl

/-- **Along a run** nothing that was published is lost. -/
theorem keeps_run {first : ℕ} {m : MarketData} {gone held : List (List UInt8)} (h : Keeps first m gone held) (ops : List Op)
    (hsize : ∀ msg ∈ published ops, msg.length + 22 ≤ m.capacity) :
    (m.run ops).capacity = m.capacity ∧
      ∃ gone' held', Keeps first (m.run ops) gone' held' ∧ gone' ++ held' = gone ++ held ++ published ops := by
  induction ops generalizing m gone held with
  | nil => exact ⟨rfl, gone, held, h, (List.append_nil _).symm⟩
  | cons op ops ih =>
      obtain ⟨gone₁, held₁, hk, heq⟩ : ∃ gone' held', Keeps first (m.step op) gone' held' ∧
          gone' ++ held' = gone ++ held ++ published [op] := by
        cases op with
        | append itch => exact h.append (hsize itch (by simp [published]))
        | flush => exact ⟨gone ++ held, [], h.flush.1, rfl⟩
      have hcap := capacity_step m op
      obtain ⟨hcap', gone', held', hk', heq'⟩ := ih hk fun msg hmsg => by
        rw [hcap]
        exact hsize msg (by cases op <;> simp [published] at hmsg ⊢ <;> simp [hmsg])
      refine ⟨hcap'.trans hcap, gone', held', hk', ?_⟩
      rw [heq', heq, List.append_assoc, published, published, published, ← List.filterMap_append]
      rfl

theorem keeps_new (session : List UInt8) {capacity : ℕ} (hroom : kHeaderSize ≤ capacity ∧ capacity ≤ kMdBuf) :
    Keeps 1 (new session capacity) [] [] :=
  ⟨hroom, rfl, fun _ h => absurd h List.not_mem_nil, fun _ h => absurd h List.not_mem_nil, nofun, nofun,
    fun _ => ⟨rfl, rfl⟩⟩

/-- The packets and the open one hold what was published. -/
theorem keeps_published (session : List UInt8) (mode : IoMode) (mdMaxPayload maxTxFrame : ℕ) (ops : List Op)
    (hsize : ∀ msg ∈ published ops, msg.length ≤ mdCapacity mode mdMaxPayload maxTxFrame - 22) :
    ∃ gone held, Keeps 1 ((new session (mdCapacity mode mdMaxPayload maxTxFrame)).run ops) gone held ∧
      gone ++ held = published ops ∧
      ((new session (mdCapacity mode mdMaxPayload maxTxFrame)).run ops).capacity = mdCapacity mode mdMaxPayload maxTxFrame := by
  obtain ⟨hlow, hhigh⟩ := mdCapacity_bounds mode mdMaxPayload maxTxFrame
  have hheader : kHeaderSize = 20 := rfl
  generalize mdCapacity mode mdMaxPayload maxTxFrame = capacity at hsize hlow hhigh ⊢
  have hsize' : ∀ msg ∈ published ops, msg.length + 22 ≤ capacity := fun msg hmsg => by
    have := hsize msg hmsg
    omega
  obtain ⟨hcap, gone, held, hk, heq⟩ := keeps_run (keeps_new session ⟨by omega, hhigh⟩) ops hsize'
  exact ⟨gone, held, hk, heq, hcap⟩

/-- **The packets hold what was published**, once and in order: after a flush all of it, and
before that the first part. They are numbered on from one, they are neither empty nor too
long, and a tracker finds them in order. -/
theorem packed_in_order (session : List UInt8) (mode : IoMode) (mdMaxPayload maxTxFrame : ℕ) (ops : List Op)
    (hsize : ∀ msg ∈ published ops, msg.length ≤ mdCapacity mode mdMaxPayload maxTxFrame - 22) :
    let m := (new session (mdCapacity mode mdMaxPayload maxTxFrame)).run ops
    m.flushMarketData.sent.flatMap forEachMessage = inSequence 1 (published ops) ∧
      m.sent.flatMap forEachMessage <+: inSequence 1 (published ops) ∧
      (∀ pkt ∈ m.sent, pkt.length ≤ mdCapacity mode mdMaxPayload maxTxFrame ∧ forEachMessage pkt ≠ []) ∧
      ∀ r ∈ (trackAll {} m.sent).1, r = .inOrder := by
  obtain ⟨gone, held, hk, heq, hcap⟩ := keeps_published session mode mdMaxPayload maxTxFrame ops hsize
  refine ⟨?_, ?_, fun pkt hpkt => ?_, hk.ordered⟩
  · rw [hk.flush.1.read, heq]
  · rw [hk.read, ← heq, inSequence_append]
    exact List.prefix_append _ _
  · have := hk.sized pkt hpkt
    rwa [hcap] at this

/-- Two packets, the second one still open. -/
def sampleOps : List Op := [.append [83, 1], .append [], .flush, .append [82, 2, 3]]

theorem packed_in_order_sample :
    ((new [83] (mdCapacity .transport 0 142)).run sampleOps).flushMarketData.sent.flatMap forEachMessage =
      [(1, [83, 1]), (2, []), (3, [82, 2, 3])] :=
  (packed_in_order [83] .transport 0 142 sampleOps (by decide)).1

end MarketData

/-! ### The calls of a session -/

namespace ExchangeSession

/-- What is published of something that goes out, for an encoding of the venues' messages. -/
def published? (encode : Itch.Msg → List UInt8) : Output → Option (List UInt8)
  | .tape msg => some msg
  | .venue (.marketData m) => some (encode m)
  | .venue (.orderEntry _) => none

/-- Something is added to what goes out. -/
def Adds (s t : ExchangeSession) : Prop := ∃ out, t.out = s.out ++ out

namespace Adds

variable {s t u : ExchangeSession}

theorem of_eq (h : t.out = s.out) : Adds s t := ⟨[], by rw [h, List.append_nil]⟩

theorem trans (h : Adds s t) (h' : Adds t u) : Adds s u := by
  obtain ⟨out, h⟩ := h
  obtain ⟨out', h'⟩ := h'
  exact ⟨out ++ out', by rw [h', h, List.append_assoc]⟩

theorem atVenue (s : ExchangeSession) (i : ℕ) (f : Venue → Venue) : Adds s (s.atVenue i f) := by
  unfold ExchangeSession.atVenue
  cases s.venues[i]? with
  | none => exact .of_eq rfl
  | some v => exact ⟨_, rfl⟩

theorem atVenues (s : ExchangeSession) (f : Venue → Venue) : Adds s (s.atVenues f) := by
  unfold ExchangeSession.atVenues
  exact List.foldlRecOn _ _ (.of_eq rfl) fun t h i _ => h.trans (atVenue t i f)

theorem venueForUserRef (s : ExchangeSession) (user : ℕ) : Adds s (s.venueForUserRef user).2 := by
  unfold ExchangeSession.venueForUserRef
  simp only
  split_ifs
  · exact .of_eq rfl
  · cases (s.count _).venues.findIdx? fun v => v.hasUserRef user <;> exact .of_eq rfl

theorem bindDirectory (s : ExchangeSession) (name : List UInt8) (locate : ℕ) : Adds s (s.bindDirectory name locate) := by
  unfold ExchangeSession.bindDirectory
  cases s.venues.findIdx? fun v => v.symbol = name with
  | none => exact .of_eq rfl
  | some i =>
      simp only
      cases s.venues[i]? with
      | none => exact .of_eq rfl
      | some v =>
          simp only
          split_ifs <;> exact .of_eq rfl

theorem mirror (s : ExchangeSession) (venue : ℕ) (body : Itch.Body) : Adds s (s.mirror venue body) := by
  unfold ExchangeSession.mirror
  cases mirrorOf body with
  | none => exact .of_eq rfl
  | some f => exact (atVenue s venue f).trans (.of_eq rfl)

theorem replayMessage (s : ExchangeSession) (msg : List UInt8) : Adds s (s.replayMessage msg) := by
  unfold ExchangeSession.replayMessage
  split_ifs
  · exact .of_eq rfl
  have htape : ∀ {t : ExchangeSession}, t.out = s.out ++ [.tape msg] → Adds s t := fun h => ⟨_, h⟩
  simp only
  split
  · exact (htape rfl).trans (bindDirectory ..)
  · exact htape rfl
  · split
    · exact (htape rfl).trans (mirror ..)
    · exact htape rfl

theorem dispatchOuch (s : ExchangeSession) (m : Ouch.In) : Adds s (s.dispatchOuch m) := by
  cases m with
  | enterOrder o => exact (Adds.of_eq rfl).trans (atVenue ..)
  | cancelOrder x =>
      have h := venueForUserRef (s.count fun x => { x with cancels := inc64 x.cancels }) x.userRefNum
      exact Adds.trans h (atVenue ..)
  | replaceOrder u =>
      have h := venueForUserRef (s.count fun x => { x with replaces := inc64 x.replaces }) u.origUserRefNum
      exact Adds.trans h (atVenue (ExchangeSession.rememberUserRef _ u.userRefNum _) ..)

theorem step (s : ExchangeSession) (op : Op) : Adds s (s.step op) := by
  cases op with
  | request m => exact dispatchOuch s m
  | injectSynthetic side tick qty => exact atVenue ..
  | cancelSynthetic ref => exact atVenue ..
  | sessionEvent code => exact atVenue ..
  | replayMessage msg => exact replayMessage s msg
  | resetDay => exact atVenues ..
  | publishDirectory => exact atVenues ..

end Adds

/-- A call of the session or a flush of its market data. -/
inductive Call where
  | op (op : Op)
  | flush
deriving DecidableEq, Repr

/-- The calls but for the flushes. -/
def opsOf (calls : List Call) : List Op :=
  calls.filterMap fun
    | .op op => some op
    | .flush => none

/-- What a call does to the packing: it publishes what it adds, and all calls but those of
the tape flush. -/
def packing (encode : Itch.Msg → List UInt8) (s : ExchangeSession) : Call → List MarketData.Op
  | .op (.replayMessage msg) =>
      (((s.replayMessage msg).out.drop s.out.length).filterMap (published? encode)).map .append
  | .op op => (((s.step op).out.drop s.out.length).filterMap (published? encode)).map .append ++ [.flush]
  | .flush => [.flush]

/-- What calls do to the packing. -/
def packings (encode : Itch.Msg → List UInt8) : ExchangeSession → List Call → List MarketData.Op
  | _, [] => []
  | s, .flush :: calls => s.packing encode .flush ++ packings encode s calls
  | s, .op op :: calls => s.packing encode (.op op) ++ packings encode (s.step op) calls

variable {encode : Itch.Msg → List UInt8}

theorem published_map_append (msgs : List (List UInt8)) (ops : List MarketData.Op) :
    MarketData.published (msgs.map .append ++ ops) = msgs ++ MarketData.published ops := by
  rw [MarketData.published, List.filterMap_append, List.filterMap_map]
  congr 1
  exact List.filterMap_some

/-- A call publishes what it adds to what goes out. -/
theorem published_packing (s : ExchangeSession) (op : Op) :
    s.out.filterMap (published? encode) ++ MarketData.published (s.packing encode (.op op)) =
      (s.step op).out.filterMap (published? encode) := by
  obtain ⟨out, hout⟩ := Adds.step s op
  have hadd : (s.step op).out.drop s.out.length = out := by rw [hout, List.drop_left]
  have hpub : MarketData.published (s.packing encode (.op op)) = out.filterMap (published? encode) := by
    cases op with
    | replayMessage msg =>
        rw [packing, show s.replayMessage msg = s.step (.replayMessage msg) from rfl, hadd]
        rw [← List.append_nil (List.map _ _), published_map_append]
        exact List.append_nil _
    | _ =>
        rw [packing, hadd, published_map_append]
        · simp [MarketData.published]
        · simp
  rw [hpub, hout, List.filterMap_append]

theorem published_packings (s : ExchangeSession) (calls : List Call) :
    s.out.filterMap (published? encode) ++ MarketData.published (packings encode s calls) =
      (s.run (opsOf calls)).out.filterMap (published? encode) := by
  induction calls generalizing s with
  | nil => simp [packings, MarketData.published, opsOf, run]
  | cons call calls ih =>
      cases call with
      | flush =>
          rw [packings, packing, MarketData.published, List.filterMap_append]
          exact ih s
      | op op =>
          rw [packings, MarketData.published, List.filterMap_append, ← List.append_assoc]
          rw [show List.filterMap _ (s.packing encode (.op op)) = MarketData.published (s.packing encode (.op op)) from rfl,
            published_packing]
          exact ih (s.step op)

/-- **A session's packets hold what goes out of it**: the tape's messages and the venues',
in the order in which they go out, whatever calls and flushes come when. -/
theorem session_published (cfg : ExchangeConfig) (stray : ℕ) (session : List UInt8) (mode : IoMode)
    (mdMaxPayload maxTxFrame : ℕ) (calls : List Call)
    (hsize : ∀ msg ∈ ((new cfg stray).run (opsOf calls)).out.filterMap (published? encode),
      msg.length ≤ mdCapacity mode mdMaxPayload maxTxFrame - 22) :
    ((MarketData.new session (mdCapacity mode mdMaxPayload maxTxFrame)).run
      (packings encode (new cfg stray) calls)).flushMarketData.sent.flatMap forEachMessage =
        inSequence 1 (((new cfg stray).run (opsOf calls)).out.filterMap (published? encode)) := by
  have hpub : MarketData.published (packings encode (new cfg stray) calls) = _ :=
    published_packings (new cfg stray) calls
  rw [← hpub] at hsize ⊢
  obtain ⟨gone, held, hk, heq, -⟩ := MarketData.keeps_published session mode mdMaxPayload maxTxFrame _ hsize
  rw [hk.flush.1.read, heq]

end ExchangeSession

end TickToTrade.Sim
