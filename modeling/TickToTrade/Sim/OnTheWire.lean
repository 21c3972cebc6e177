import TickToTrade.Dut.RequestWords
import TickToTrade.Sim.MarketData
import TickToTrade.Sim.OrderEntry
import TickToTrade.Sim.WireWords

/-!
# The exchange and the DUT over the wire

The session and its venues speak of messages. On the wire they are bytes: market data in packets
of several messages, answers and requests in a stream that is read in pieces. `Written` is how the
bytes of the two streams come from what goes out of a session, whatever the program writes into
the fields that no reader of the model looks at.

## What is proved

* `Words.run` — every message of the venues fits its struct, in every run of a session.
* `heard_as_said` — the DUT reads from the packets the market data that went out, and takes from
  the order-entry stream the answers that went out, however messages are packed and pieces are cut.
* `handled_as_asked` — the exchange handles the requests that the DUT's transport took, in the order
  in which it took them, however their bytes are cut.
-/

namespace TickToTrade

open Soup (Packet PacketType framing)

/-! ### Messages off the wire -/

namespace Itch

/-- The fields that a venue takes from a message of the tape are words. -/
def Body.Words : Body → Prop
  | .addOrder ref _ shares _ => ref < 2 ^ 64 ∧ shares < 2 ^ 32
  | .orderReplace _ newRef shares _ => newRef < 2 ^ 64 ∧ shares < 2 ^ 32
  | _ => True

theorem words_bodyOf (msg : List UInt8) : (bodyOf msg).Words := by
  have hadd : beAt msg 11 8 < 2 ^ 64 ∧ beAt msg 20 4 < 2 ^ 32 := ⟨Mold.beAt_lt msg 11 8, Mold.beAt_lt msg 20 4⟩
  have hreplace : beAt msg 19 8 < 2 ^ 64 ∧ beAt msg 27 4 < 2 ^ 32 := ⟨Mold.beAt_lt msg 19 8, Mold.beAt_lt msg 27 4⟩
  unfold bodyOf
  generalize msg.length = n
  generalize byteAt msg 0 = type
  generalize beAt msg 11 8 = ref at hadd ⊢
  generalize beAt msg 19 8 = newRef at hreplace ⊢
  simp only
  repeat' split
  all_goals first
    | exact True.intro
    | exact hadd
    | exact hreplace

end Itch

namespace Sim

open Util Mold Dut

/-- The message of a venue fits. -/
def Output.Fits : Output → Prop
  | .tape _ => True
  | .venue m => m.Fits

namespace ExchangeSession

/-- The arguments of a call are words of the widths that the program has for them. -/
def Op.Words : Op → Prop
  | .request m => m.Fits
  | .injectSynthetic _ _ qty => qty < 2 ^ 32
  | .cancelSynthetic ref => ref < 2 ^ 64
  | _ => True

instance : (op : Op) → Decidable op.Words
  | .request m => inferInstanceAs (Decidable m.Fits)
  | .injectSynthetic _ _ qty => inferInstanceAs (Decidable (qty < 2 ^ 32))
  | .cancelSynthetic ref => inferInstanceAs (Decidable (ref < 2 ^ 64))
  | .sessionEvent _ | .replayMessage _ | .resetDay | .publishDirectory => .isTrue trivial

/-- The venues keep to their words, and all that has gone out fits. -/
structure Words (s : ExchangeSession) : Prop where
  venues : ∀ v ∈ s.venues, v.Words
  out : ∀ o ∈ s.out, o.Fits

namespace Words

variable {s : ExchangeSession}

theorem of_eq {t : ExchangeSession} (hs : s.Words) (hvenues : t.venues = s.venues) (hout : t.out = s.out) : t.Words :=
  ⟨hvenues ▸ hs.venues, hout ▸ hs.out⟩

/-- A venue is called. -/
theorem atVenue (hs : s.Words) (i : ℕ) {f : Venue → Venue} (hf : ∀ v, v.Words → (f v).Words) : (s.atVenue i f).Words := by
  unfold ExchangeSession.atVenue
  cases hv : s.venues[i]? with
  | none => exact hs
  | some v =>
      have hwords := hf v (hs.venues v (List.mem_of_getElem? hv))
      refine ⟨fun w hw => ?_, fun o ho => ?_⟩
      · obtain hw | rfl := List.mem_or_eq_of_mem_set hw
        · exact hs.venues w hw
        · exact hwords
      · obtain ho | ho := List.mem_append.mp ho
        · exact hs.out o ho
        · obtain ⟨m, hm, rfl⟩ := List.mem_map.mp ho
          exact hwords.sent m (List.mem_of_mem_drop hm)

theorem atVenues (hs : s.Words) {f : Venue → Venue} (hf : ∀ v, v.Words → (f v).Words) : (s.atVenues f).Words :=
  List.foldlRecOn (motive := Words) _ _ hs fun _ ht i _ => ht.atVenue i hf

theorem rememberUserRef (hs : s.Words) (user venue : ℕ) : (s.rememberUserRef user venue).Words := hs.of_eq rfl rfl

theorem venueForUserRef (hs : s.Words) (user : ℕ) : (s.venueForUserRef user).2.Words := by
  unfold ExchangeSession.venueForUserRef
  simp only
  split_ifs
  · exact hs
  · cases (s.count _).venues.findIdx? fun v => v.hasUserRef user <;> exact hs.of_eq rfl rfl

theorem dispatchOuch (hs : s.Words) {m : Ouch.In} (hm : m.Fits) : (s.dispatchOuch m).Words := by
  cases m with
  | enterOrder o =>
      have h := hs.of_eq (t := s.count fun x => { x with enters := inc64 x.enters }) rfl rfl
      exact (h.rememberUserRef o.userRefNum _).atVenue _ fun v hv => hv.onEnterOrder hm
  | cancelOrder x =>
      have h := (hs.of_eq (t := s.count fun x => { x with cancels := inc64 x.cancels }) rfl rfl).venueForUserRef x.userRefNum
      exact h.atVenue _ fun v hv => hv.onCancelOrder hm
  | replaceOrder u =>
      have h := (hs.of_eq (t := s.count fun x => { x with replaces := inc64 x.replaces }) rfl rfl).venueForUserRef
        u.origUserRefNum
      exact (h.rememberUserRef u.userRefNum _).atVenue _ fun v hv => hv.onReplaceOrder hm

theorem bindDirectory (hs : s.Words) (name : List UInt8) {locate : ℕ} (hlocate : locate < 2 ^ 16) :
    (s.bindDirectory name locate).Words := by
  unfold ExchangeSession.bindDirectory
  cases s.venues.findIdx? fun v => v.symbol = name with
  | none => exact hs
  | some i =>
      simp only
      cases hv : s.venues[i]? with
      | none => exact hs
      | some v =>
          simp only
          split_ifs
          · exact hs
          all_goals
            refine ⟨fun w hw => ?_, hs.out⟩
            obtain hw | rfl := List.mem_or_eq_of_mem_set hw
            · exact hs.venues w hw
            · exact (hs.venues v (List.mem_of_getElem? hv)).bindLocate hlocate

theorem mirror (hs : s.Words) (venue : ℕ) {body : Itch.Body} (hbody : body.Words) : (s.mirror venue body).Words := by
  unfold ExchangeSession.mirror
  cases hf : mirrorOf body with
  | none => exact hs
  | some f =>
      refine Words.of_eq (hs.atVenue venue fun v hv => ?_) rfl rfl
      cases body <;> cases hf
      · exact hv.mirrorAdd hbody.1 _ _ hbody.2
      · exact hv.mirrorExecute ..
      · exact hv.mirrorExecute ..
      · exact hv.mirrorCancel ..
      · exact hv.mirrorDelete ..
      · exact hv.mirrorReplace _ hbody.1 hbody.2 _

/-- A message of the tape has words, as it comes off the wire. -/
theorem replayMessage (hs : s.Words) (msg : List UInt8) : (s.replayMessage msg).Words := by
  unfold ExchangeSession.replayMessage
  split_ifs
  · exact hs
  have htape : Words { s.count fun x => { x with forwarded := inc64 x.forwarded } with out := s.out ++ [.tape msg] } := by
    refine ⟨hs.venues, fun o ho => ?_⟩
    obtain ho | ho := List.mem_append.mp ho
    · exact hs.out o ho
    · exact List.mem_singleton.mp ho ▸ trivial
  have hbody : (Itch.decode msg).body.Words := Itch.words_bodyOf msg
  simp only
  split
  · exact htape.bindDirectory _ (Mold.beAt_lt msg 1 2)
  · exact htape
  · split
    · exact htape.mirror _ hbody
    · exact htape

theorem step (hs : s.Words) {op : Op} (hop : op.Words) : (s.step op).Words := by
  cases op with
  | request m => exact hs.dispatchOuch hop
  | injectSynthetic side tick qty =>
      have hinject : (Venue.Op.injectSynthetic side tick qty).Words := hop
      exact hs.atVenue 0 fun v hv => hv.step hinject
  | cancelSynthetic ref => exact hs.atVenue 0 fun v hv => hv.cancelSynthetic hop
  | sessionEvent code => exact hs.atVenue 0 fun v hv => hv.sessionEvent code
  | replayMessage msg => exact hs.replayMessage msg
  | resetDay => exact hs.atVenues fun v hv => hv.resetDay
  | publishDirectory => exact hs.atVenues fun v hv => hv.emitStockDirectory

/-- **Every run** of a session keeps the words, and sends what fits. -/
theorem run (hs : s.Words) {ops : List Op} (hops : ∀ op ∈ ops, op.Words) : (s.run ops).Words :=
  List.foldlRecOn (motive := Words) ops ExchangeSession.step hs fun _ ht op hop => ht.step (hops op hop)

theorem new (cfg : ExchangeConfig) {stray : ℕ} (hlocates : ∀ l ∈ cfg.locates, l < 2 ^ 16) (hstray : stray < 2 ^ 32) :
    (ExchangeSession.new cfg stray).Words := by
  refine ⟨fun v hv => ?_, fun o ho => absurd ho List.not_mem_nil⟩
  obtain ⟨i, hi, rfl⟩ := List.mem_mapIdx.mp hv
  refine Venue.Words.new _ _ _ _ _ ?_ (Nat.mod_lt _ (Nat.two_pow_pos 64)) hstray
  unfold ExchangeConfig.locateAt
  split_ifs
  · by_cases hlt : i < cfg.locates.length
    · rw [List.getD_eq_getElem _ _ hlt]
      exact hlocates _ (List.getElem_mem _)
    · rw [List.getD_eq_default _ _ (Nat.le_of_not_lt hlt)]
      exact Nat.two_pow_pos 16
  · exact Nat.mod_lt _ (Nat.two_pow_pos 16)

end Words

end ExchangeSession

/-! ### The two streams -/

/-- The message of the market data that a reader gets of something that goes out. -/
def Output.heard? : Output → Option Itch.Msg
  | .tape msg => some (Itch.decode msg)
  | .venue m => m.data?

/-- The answer that goes out. -/
def Output.answer? : Output → Option Ouch.Out
  | .tape _ => none
  | .venue m => m.answer?

/-- How what goes out is written: messages of the market data, and payloads of answers. -/
inductive Written : List Output → List (List UInt8) → List (List UInt8) → Prop
  | nil : Written [] [] []
  | tape {out : List Output} {data answers : List (List UInt8)} (msg : List UInt8) (h : Written out data answers) :
      Written (.tape msg :: out) (msg :: data) answers
  | marketData {out : List Output} {data answers : List (List UInt8)} (x : Itch.Unread) (m : Itch.Msg)
      (h : Written out data answers) : Written (.venue (.marketData m) :: out) (Itch.encode x m :: data) answers
  | orderEntry {out : List Output} {data answers : List (List UInt8)} (x : Ouch.Unread) (m : Ouch.Out)
      (h : Written out data answers) : Written (.venue (.orderEntry m) :: out) data (Ouch.encodeOut x m :: answers)

namespace Written

variable {out : List Output} {data answers : List (List UInt8)}

/-- What is written is what is read. -/
theorem decoded (h : Written out data answers) (hfits : ∀ o ∈ out, o.Fits) :
    data.map Itch.decode = out.filterMap Output.heard? ∧
      answers.map Ouch.decodeOut = (out.filterMap Output.answer?).map some := by
  induction h with
  | nil => exact ⟨rfl, rfl⟩
  | tape msg h ih =>
      obtain ⟨hdata, hanswers⟩ := ih fun o ho => hfits o (List.mem_cons_of_mem _ ho)
      exact ⟨congrArg (Itch.decode msg :: ·) hdata, hanswers⟩
  | marketData x m h ih =>
      obtain ⟨hdata, hanswers⟩ := ih fun o ho => hfits o (List.mem_cons_of_mem _ ho)
      have hm : m.Fits := hfits _ List.mem_cons_self
      refine ⟨?_, hanswers⟩
      rw [List.map_cons, Itch.decode_encode x hm, hdata]
      rfl
  | orderEntry x m h ih =>
      obtain ⟨hdata, hanswers⟩ := ih fun o ho => hfits o (List.mem_cons_of_mem _ ho)
      have hm : m.Fits := hfits _ List.mem_cons_self
      refine ⟨hdata, ?_⟩
      rw [List.map_cons, Ouch.decodeOut_encodeOut x hm, hanswers]
      rfl

/-- A message of the market data is one of the tape, or a short one. -/
theorem length_data (h : Written out data answers) {msg : List UInt8} (hmsg : msg ∈ data) :
    .tape msg ∈ out ∨ msg.length ≤ 39 := by
  induction h with
  | nil => exact absurd hmsg List.not_mem_nil
  | tape msg' h ih =>
      obtain rfl | hmsg := List.mem_cons.mp hmsg
      · exact .inl List.mem_cons_self
      · exact (ih hmsg).imp_left (List.mem_cons_of_mem _)
  | marketData x m h ih =>
      obtain rfl | hmsg := List.mem_cons.mp hmsg
      · exact .inr (Itch.length_encode_le x m)
      · exact (ih hmsg).imp_left (List.mem_cons_of_mem _)
  | orderEntry x m h ih => exact (ih hmsg).imp_left (List.mem_cons_of_mem _)

end Written

theorem map_snd_inSequence (first : ℕ) (msgs : List (List UInt8)) : (inSequence first msgs).map Prod.snd = msgs := by
  refine List.ext_getElem (by simp [inSequence]) fun i _ _ => ?_
  simp [inSequence]

end Sim

namespace Dut

variable {S : Type}

/-- The rest of `applyAck`, of an answer that was read. -/
def DutSession.takeAnswer (d : DutSession S) (m : Ouch.Out) : DutSession S :=
  let oms := OrderManager.onAckMsg { d.oms with ackSym := none } m
  { d with
    oms := oms
    topSeen := match oms.ackSym with
      | some sym => if sym < d.books.hotCount then Function.update d.topSeen sym DutSession.kDirtyTop else d.topSeen
      | none => d.topSeen }

theorem DutSession.applyAck_eq (d : DutSession S) {ouch : List UInt8} {m : Ouch.Out} (h : Ouch.decodeOut ouch = some m) :
    d.applyAck ouch = d.takeAnswer m := by
  unfold applyAck takeAnswer OrderManager.onAck
  exact h ▸ rfl

theorem DutSession.foldl_applyAck (d : DutSession S) {payloads : List (List UInt8)} {ms : List Ouch.Out}
    (h : payloads.map Ouch.decodeOut = ms.map some) : payloads.foldl applyAck d = ms.foldl takeAnswer d := by
  induction payloads generalizing d ms with
  | nil =>
      rw [List.map_eq_nil_iff.mp h.symm]
      rfl
  | cons payload payloads ih =>
      obtain ⟨m, ms, rfl, hm, hms⟩ := List.map_eq_cons_iff.mp h.symm
      rw [List.foldl_cons, List.foldl_cons, d.applyAck_eq hm.symm]
      exact ih _ hms.symm

theorem AckEntry.session_handleSoup (e : AckEntry S) (p : Packet) :
    (e.handleSoup p).session =
      if p.type = PacketType.sequencedData.code then e.session.applyAck p.payload else e.session := by
  unfold handleSoup
  simp only
  split_ifs with hlogin hdata
  · cases hlogin.symm.trans hdata
  · rfl
  · rfl
  · rfl

/-- Packets at the DUT: the answers in them go to the session. -/
theorem AckEntry.session_foldl (ps : List Packet) (e : AckEntry S) :
    (ps.foldl handleSoup e).session =
      ((ps.filter (·.type = PacketType.sequencedData.code)).map Packet.payload).foldl DutSession.applyAck e.session := by
  induction ps generalizing e with
  | nil => rfl
  | cons p ps ih =>
      rw [List.foldl_cons, ih, session_handleSoup, List.filter_cons]
      by_cases hdata : p.type = PacketType.sequencedData.code
      · simp [hdata]
      · simp [hdata]

/-- The end of the stream at the DUT, when packets have come in pieces. -/
theorem AckStream.session_pieces (d : DutSession S) {packets : List Packet} {pieces : List (List UInt8)}
    (hlen : ∀ p ∈ packets, p.payload.length ≤ 65534) (hflat : pieces.flatten = packets.flatMap Packet.bytes) :
    (pieces.foldl onOrderEntry { entry := { session := d } }).entry.session =
      ((packets.filter (·.type = PacketType.sequencedData.code)).map Packet.payload).foldl DutSession.applyAck d := by
  have hread := foldl_eq pieces { entry := { session := d } }
  rw [framing.feeds_eq _ pieces _ framing.parse_nil, List.nil_append, hflat, (Soup.framing_packs packets hlen).1] at hread
  exact (congrArg AckEntry.session (Prod.ext_iff.mp hread).1).trans (AckEntry.session_foldl packets _)

end Dut

namespace Sim.ExchangeSession

open Mold Dut

/-- **The DUT hears what the exchange says**: in every run of a session, however the market data is packed, the messages that
are read from the packets are those of the tape and of the venues, in their order, and however the order-entry stream is cut
into pieces, the DUT takes in the venues' answers, in their order. -/
theorem heard_as_said {S : Type} (cfg : ExchangeConfig) {stray : ℕ} (hlocates : ∀ l ∈ cfg.locates, l < 2 ^ 16)
    (hstray : stray < 2 ^ 32) {ops : List Op} (hops : ∀ op ∈ ops, op.Words) {data answers : List (List UInt8)}
    (hwritten : Written ((new cfg stray).run ops).out data answers) :
    (∀ (name : List UInt8) (mode : IoMode) (mdMaxPayload maxTxFrame : ℕ) (packing : List MarketData.Op),
      MarketData.published packing = data →
      (∀ msg, .tape msg ∈ ((new cfg stray).run ops).out → msg.length ≤ mdCapacity mode mdMaxPayload maxTxFrame - 22) →
      (((MarketData.new name (mdCapacity mode mdMaxPayload maxTxFrame)).run packing).flushMarketData.sent.flatMap
        forEachMessage).map (fun e => Itch.decode e.2) = ((new cfg stray).run ops).out.filterMap Output.heard?) ∧
      ∀ (packets : List Packet) (pieces : List (List UInt8)), (∀ p ∈ packets, p.payload.length ≤ 65534) →
        (packets.filter (·.type = PacketType.sequencedData.code)).map Packet.payload = answers →
        pieces.flatten = packets.flatMap Packet.bytes → ∀ d : DutSession S,
        (pieces.foldl AckStream.onOrderEntry { entry := { session := d } }).entry.session =
          (((new cfg stray).run ops).out.filterMap Output.answer?).foldl DutSession.takeAnswer d := by
  obtain ⟨hdata, hanswers⟩ := hwritten.decoded ((Words.new cfg hlocates hstray).run hops).out
  refine ⟨fun name mode mdMaxPayload maxTxFrame packing hpub htape => ?_, fun packets pieces hlen hpayloads hflat d => ?_⟩
  · obtain ⟨hlow, -⟩ := mdCapacity_bounds mode mdMaxPayload maxTxFrame
    have hheader : kHeaderSize = 20 := rfl
    have hsize : ∀ msg ∈ MarketData.published packing, msg.length ≤ mdCapacity mode mdMaxPayload maxTxFrame - 22 := by
      intro msg hmsg
      obtain hmsg | hshort := hwritten.length_data (hpub ▸ hmsg)
      · exact htape msg hmsg
      · omega
    obtain ⟨gone, held, hkeeps, heq, -⟩ := MarketData.keeps_published name mode mdMaxPayload maxTxFrame packing hsize
    rw [hkeeps.flush.1.read, heq, hpub, ← hdata]
    conv_rhs => rw [← map_snd_inSequence 1 data]
    rw [List.map_map]
    rfl
  · rw [AckStream.session_pieces d hlen hflat, hpayloads]
    exact d.foldl_applyAck hanswers

/-- The symbols are published, and an order comes to rest. -/
def openingCalls : List Op := [.publishDirectory, .request (.enterOrder ⟨7, .buy, 30, [65, 65, 80, 76], 5000, .day⟩)]

theorem heard_as_said_sample :
    let directory : Itch.Msg := ⟨1, .stockDirectory [65, 65, 80, 76]⟩
    let add : Itch.Msg := ⟨1, .addOrder 1 .buy 30 5000⟩
    let packing : List MarketData.Op := [.append (Itch.encode ⟨1000, []⟩ directory), .flush, .append (Itch.encode ⟨2000, [65]⟩ add)]
    (((MarketData.new [83] (mdCapacity .transport 0 142)).run packing).flushMarketData.sent.flatMap forEachMessage).map
      (fun e => Itch.decode e.2) = [directory, add] := by
  intro directory add packing
  have hout : ((new {} 0).run openingCalls).out =
      [.venue (.marketData directory), .venue (.orderEntry (.accepted ⟨7, .buy, 30, 5000, 1, .live⟩)),
        .venue (.marketData add)] := by decide +kernel
  have hwritten : Written ((new {} 0).run openingCalls).out
      [Itch.encode ⟨1000, []⟩ directory, Itch.encode ⟨2000, [65]⟩ add]
      [Ouch.encodeOut {} (.accepted ⟨7, .buy, 30, 5000, 1, .live⟩)] := by
    rw [hout]
    exact .marketData _ _ (.orderEntry _ _ (.marketData _ _ .nil))
  have hheard := (heard_as_said (S := Unit) {} (by decide) (by decide) (by decide) hwritten).1 [83] .transport 0 142 packing rfl
    fun msg hmsg => by
      rw [hout] at hmsg
      simp at hmsg
  rw [hheard, hout]
  rfl

end Sim.ExchangeSession

/-! ### Requests -/

namespace Sim

/-- The request in a packet. -/
def requestOf (p : Packet) : Option Ouch.In :=
  if p.type = PacketType.unsequencedData.code then Ouch.decodeIn p.payload else none

theorem OrderEntry.session_handleSoup (e : OrderEntry) (p : Packet) :
    (e.handleSoup p).session = (requestOf p).elim e.session e.session.dispatchOuch := by
  unfold handleSoup requestOf
  simp only
  split_ifs with hlogin hdata hdata
  · cases hlogin.symm.trans hdata
  · rfl
  · unfold dispatchOuch
    split_ifs with hempty
    · rw [hempty]
      rfl
    · cases Ouch.decodeIn p.payload <;> rfl
  · rfl
  · rfl

/-- Packets at the exchange: the session handles the requests in them. -/
theorem OrderEntry.session_foldl (ps : List Packet) (e : OrderEntry) :
    (ps.foldl handleSoup e).session = (ps.filterMap requestOf).foldl ExchangeSession.dispatchOuch e.session := by
  induction ps generalizing e with
  | nil => rfl
  | cons p ps ih =>
      rw [List.foldl_cons, ih, session_handleSoup, List.filterMap_cons]
      cases requestOf p <;> rfl

/-- The end of the stream at the exchange, when packets have come in pieces. -/
theorem OrderEntryStream.session_pieces (e : OrderEntry) {packets : List Packet} {pieces : List (List UInt8)}
    (hlen : ∀ p ∈ packets, p.payload.length ≤ 65534) (hflat : pieces.flatten = packets.flatMap Packet.bytes) :
    (pieces.foldl onOrderEntryBytes { entry := e }).entry.session =
      (packets.filterMap requestOf).foldl ExchangeSession.dispatchOuch e.session := by
  have hread := foldl_eq pieces { entry := e }
  rw [framing.feeds_eq _ pieces _ framing.parse_nil, List.nil_append, hflat, (Soup.framing_packs packets hlen).1] at hread
  exact (congrArg OrderEntry.session (Prod.ext_iff.mp hread).1).trans (OrderEntry.session_foldl packets _)

/-- Requests that were written into packets are the requests in them. -/
theorem filterMap_requestOf {packets : List Packet} {ms : List Ouch.In} (hfits : ∀ m ∈ ms, m.Fits)
    (h : (packets.filter (·.type = PacketType.unsequencedData.code)).map Packet.payload = ms.map Ouch.encodeIn) :
    packets.filterMap requestOf = ms := by
  induction packets generalizing ms with
  | nil =>
      rw [List.map_eq_nil_iff.mp h.symm]
      rfl
  | cons p packets ih =>
      rw [List.filterMap_cons]
      by_cases hdata : p.type = PacketType.unsequencedData.code
      · rw [List.filter_cons_of_pos (by simpa using hdata), List.map_cons] at h
        obtain ⟨m, ms, rfl, hm, hms⟩ := List.map_eq_cons_iff.mp h.symm
        have hread : requestOf p = some m := by
          rw [requestOf, if_pos hdata, ← hm, Ouch.decodeIn_encodeIn (hfits m List.mem_cons_self)]
        rw [hread]
        exact congrArg (m :: ·) (ih (fun x hx => hfits x (List.mem_cons_of_mem _ hx)) hms.symm)
      · rw [List.filter_cons_of_neg (by simpa using hdata)] at h
        rw [requestOf, if_neg hdata]
        exact ih hfits h

end Sim

namespace Dut

/-- The request of an event, if the transport took it. -/
def Event.taken? : Event → Option Ouch.In
  | .produced _ out true => some out.msg
  | _ => none

namespace DutSession

open Sim

/-- **The exchange handles what the DUT asks for**: in every run of a session, whatever packets and answers come, and however the
order-entry stream is cut into pieces, the exchange handles the requests that the transport took, in their order. -/
theorem handled_as_asked {S : Type} [Strategy S] {Good : S → Prop} (hstrat : QuotesWords Good) (cfg : DutConfig)
    (hfirst : cfg.firstUserRef < 2 ^ 32) (strat : S) (hgood : Good strat) (link : ℕ → Bool) (ins : List Input)
    (packets : List Packet) (pieces : List (List UInt8)) (hlen : ∀ p ∈ packets, p.payload.length ≤ 65534)
    (hpayloads : (packets.filter (·.type = PacketType.unsequencedData.code)).map Packet.payload =
      (((new cfg strat link).run ins).log.filterMap Event.taken?).map Ouch.encodeIn)
    (hflat : pieces.flatten = packets.flatMap Packet.bytes) (e : OrderEntry) :
    (pieces.foldl OrderEntryStream.onOrderEntryBytes { entry := e }).entry.session =
      e.session.run ((((new cfg strat link).run ins).log.filterMap Event.taken?).map .request) := by
  have hwords := (Words.new hfirst hgood link).run hstrat ins
  have hfits : ∀ m ∈ ((new cfg strat link).run ins).log.filterMap Event.taken?, m.Fits := by
    intro m hm
    obtain ⟨ev, hev, htaken⟩ := List.mem_filterMap.mp hm
    unfold Event.taken? at htaken
    split at htaken
    · cases htaken
      exact hwords.log _ _ _ hev
    · cases htaken
  rw [OrderEntryStream.session_pieces e hlen hflat, filterMap_requestOf hfits hpayloads, ExchangeSession.run, List.foldl_map]
  rfl

/-- The test order of a quoter comes in two pieces, behind a heartbeat. -/
theorem handled_as_asked_sample :
    let packets : List Packet := [⟨PacketType.clientHeartbeat.code, []⟩,
      ⟨PacketType.unsequencedData.code, Ouch.encodeIn (.enterOrder ⟨1, .buy, 1, OrderManager.kTestSymbol, 100, .day⟩)⟩]
    let stream := packets.flatMap Packet.bytes
    (([stream.take 20, stream.drop 20].foldl OrderEntryStream.onOrderEntryBytes
      { entry := { session := ExchangeSession.new {} 0, name := [] } }).entry.session.stats.enters) = 1 := by
  intro packets stream
  have hlog : ((new { symbols := [[65]] } (⟨{}, 0, -1⟩ : QuoterStrategy) fun _ => true).run [.testOrder]).log.filterMap Event.taken? =
      [.enterOrder ⟨1, .buy, 1, OrderManager.kTestSymbol, 100, .day⟩] := by decide +kernel
  have hhandled := handled_as_asked quotesWords_quoter { symbols := [[65]] } (by decide) ⟨{}, 0, -1⟩ (by decide) (fun _ => true)
    [.testOrder] packets [stream.take 20, stream.drop 20] (by decide) (by rw [hlog]; decide)
    (by rw [List.flatten_cons, List.flatten_singleton, List.take_append_drop])
    { session := ExchangeSession.new {} 0, name := [] }
  rw [hhandled, hlog]
  decide +kernel

end DutSession

end Dut

end TickToTrade
