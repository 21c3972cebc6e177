import TickToTrade.Sim.VenueTables

/-!
# What the functions of a venue do

Each function of the venue performs deeds (`Performs`): the tables follow the desk, and
the messages are those of the deeds. The engine follows as well, but within a call it runs
ahead of the tables, so that it is stated apart (`Stands`).
-/

namespace TickToTrade.Sim.Venue

open Util

/-! ### Messages -/

/-- What stays the same in a venue, whatever its orders do. -/
structure Steady (v w : Venue) : Prop where
  symbol : w.symbol = v.symbol
  wirePerTick : w.wirePerTick = v.wirePerTick
  minTick : w.minTick = v.minTick
  maxTick : w.maxTick = v.maxTick
  nextOrderRef : w.nextOrderRef = v.nextOrderRef
  range : OrderBook.SameRange v.engine w.engine

namespace Steady

variable {v w x : Venue}

theorem refl (v : Venue) : Steady v v := ⟨rfl, rfl, rfl, rfl, rfl, rfl, rfl⟩

theorem trans (h : Steady v w) (h' : Steady w x) : Steady v x :=
  ⟨h'.symbol.trans h.symbol, h'.wirePerTick.trans h.wirePerTick, h'.minTick.trans h.minTick,
    h'.maxTick.trans h.maxTick, h'.nextOrderRef.trans h.nextOrderRef, h'.range.1.trans h.range.1,
    h'.range.2.trans h.range.2⟩

theorem inRange (h : Steady v w) {p : ℤ} : w.engine.InRange p ↔ v.engine.InRange p := by
  rw [OrderBook.InRange, OrderBook.InRange, h.range.1, h.range.2]

end Steady

/-- A venue that has sent messages and counted, and left its orders alone. -/
structure Tells (v : Venue) (msgs : List Sent) (w : Venue) : Prop where
  live : w.live = v.live
  byUserRef : w.byUserRef = v.byUserRef
  clientRefs : w.clientRefs = v.clientRefs
  engine : w.engine = v.engine
  sent : w.sent = v.sent ++ msgs
  steady : Steady v w

namespace Tells

variable {v w x : Venue} {msgs msgs' : List Sent}

theorem refl (v : Venue) : Tells v [] v := ⟨rfl, rfl, rfl, rfl, (List.append_nil _).symm, Steady.refl v⟩

theorem trans (h : Tells v msgs w) (h' : Tells w msgs' x) : Tells v (msgs ++ msgs') x :=
  ⟨h'.live.trans h.live, h'.byUserRef.trans h.byUserRef, h'.clientRefs.trans h.clientRefs, h'.engine.trans h.engine,
    by rw [h'.sent, h.sent, List.append_assoc], h.steady.trans h'.steady⟩

theorem sendMd (v : Venue) (body : Itch.Body) : Tells v [.marketData ⟨v.stockLocate, body⟩] (v.sendMd body) :=
  ⟨rfl, rfl, rfl, rfl, rfl, ⟨rfl, rfl, rfl, rfl, rfl, rfl, rfl⟩⟩

theorem sendOe (v : Venue) (m : Ouch.Out) : Tells v [.orderEntry m] (v.sendOe m) :=
  ⟨rfl, rfl, rfl, rfl, rfl, ⟨rfl, rfl, rfl, rfl, rfl, rfl, rfl⟩⟩

theorem count (v : Venue) (f : MirrorStats → MirrorStats) : Tells v [] (v.count f) :=
  ⟨rfl, rfl, rfl, rfl, (List.append_nil _).symm, ⟨rfl, rfl, rfl, rfl, rfl, rfl, rfl⟩⟩

theorem takeMatch (v : Venue) : Tells v [] v.takeMatch.2 :=
  ⟨rfl, rfl, rfl, rfl, (List.append_nil _).symm, ⟨rfl, rfl, rfl, rfl, rfl, rfl, rfl⟩⟩

theorem oe_eq (h : Tells v msgs w) : w.oe = v.oe ++ msgs.filterMap Sent.answer? := by
  rw [oe, h.sent, List.filterMap_append]; rfl

theorem md_eq (h : Tells v msgs w) : w.md = v.md ++ msgs.filterMap Sent.data? := by
  rw [md, h.sent, List.filterMap_append]; rfl

end Tells

/-! ### Deeds -/

/-- The venue performs the deeds. -/
structure Performs (exact : Prop) (v : Venue) (d : Desk ℕ) (xs : List (Deed ℕ)) (w : Venue) (d' : Desk ℕ) : Prop where
  tables : Tables exact w d'
  does : d.DoesAll xs d'
  oe : w.oe = v.oe ++ xs.flatMap (Deed.oe v.wirePerTick)
  md : w.md.map Itch.Msg.body = v.md.map Itch.Msg.body ++ xs.flatMap (Deed.md v.wirePerTick)
  steady : Steady v w

namespace Performs

variable {exact : Prop} {v w x : Venue} {d d' d'' : Desk ℕ} {xs ys : List (Deed ℕ)}

theorem refl (h : Tables exact v d) : Performs exact v d [] v d :=
  ⟨h, rfl, (List.append_nil _).symm, (List.append_nil _).symm, Steady.refl v⟩

theorem trans (h : Performs exact v d xs w d') (h' : Performs exact w d' ys x d'') :
    Performs exact v d (xs ++ ys) x d'' := by
  refine ⟨h'.tables, h.does.append h'.does, ?_, ?_, h.steady.trans h'.steady⟩
  · rw [h'.oe, h.oe, h.steady.wirePerTick, List.flatMap_append, List.append_assoc]
  · rw [h'.md, h.md, h.steady.wirePerTick, List.flatMap_append, List.append_assoc]

/-- Messages about one deed, and then the tables after it. -/
theorem of_tells {msgs : List Sent} {a : Deed ℕ} (h : Tells v msgs w) (htables : Tables exact x d') (hdoes : d.Does a d')
    (hx : x.sent = w.sent ∧ Steady w x) (hoe : msgs.filterMap Sent.answer? = a.oe v.wirePerTick)
    (hmd : (msgs.filterMap Sent.data?).map Itch.Msg.body = a.md v.wirePerTick) : Performs exact v d [a] x d' := by
  refine ⟨htables, Desk.doesAll_one hdoes, ?_, ?_, h.steady.trans hx.2⟩
  · rw [Venue.oe, hx.1, ← Venue.oe, h.oe_eq, hoe, List.flatMap_singleton]
  · rw [Venue.md, hx.1, ← Venue.md, h.md_eq, List.map_append, hmd, List.flatMap_singleton]

/-- Messages about a deed that leaves the tables alone. -/
theorem of_message {msgs : List Sent} {a : Deed ℕ} (ht : Tables exact v d) (h : Tells v msgs w) (hdoes : d.Does a d')
    (horders : d'.orders = d.orders) (howner : d'.owner = d.owner)
    (hoe : msgs.filterMap Sent.answer? = a.oe v.wirePerTick)
    (hmd : (msgs.filterMap Sent.data?).map Itch.Msg.body = a.md v.wirePerTick) : Performs exact v d [a] w d' :=
  of_tells h (ht.congr h.live h.byUserRef h.clientRefs horders howner) hdoes ⟨rfl, Steady.refl w⟩ hoe hmd

/-- Counting is no deed. -/
theorem of_count (ht : Tables exact v d) (h : Tells v [] w) : Performs exact v d [] w d := by
  refine ⟨ht.congr h.live h.byUserRef h.clientRefs rfl rfl, rfl, ?_, ?_, h.steady⟩
  · rw [h.oe_eq]; rfl
  · rw [h.md_eq, List.map_append]; rfl

end Performs

/-- The tables and the engine say which orders rest. -/
structure Stands (exact : Prop) (v : Venue) (d : Desk ℕ) : Prop extends Tables exact v d where
  queued : v.engine.Queued d.orders

namespace Stands

variable {exact : Prop} {v w : Venue} {d d' : Desk ℕ} {s : Side} {o : Resting ℕ} {l : LiveOrder} {ref u q : ℕ}

theorem congr (h : Stands exact v d) (hlive : w.live = v.live) (husers : w.byUserRef = v.byUserRef)
    (hrefs : w.clientRefs = v.clientRefs) (hengine : w.engine = v.engine) (horders : d'.orders = d.orders)
    (howner : d'.owner = d.owner) : Stands exact w d' :=
  ⟨h.toTables.congr hlive husers hrefs horders howner, by rw [hengine, horders]; exact h.queued⟩

theorem tells (h : Stands exact v d) {msgs : List Sent} (hw : Tells v msgs w) : Stands exact w d :=
  h.congr hw.live hw.byUserRef hw.clientRefs hw.engine rfl rfl

/-- The entry of a reference, and the order that it is about. -/
theorem order_of_live (h : Stands exact v d) (hl : v.live.lookup ref = some l) :
    ∃ o ∈ d.orders l.side, o.id = ref ∧ l.handle = some o.key ∧ l.tick = o.price ∧ v.qtyAt l.handle = o.qty := by
  obtain ⟨o, ho, hid, hhandle, htick⟩ := h.live ref l hl
  refine ⟨o, ho, hid, hhandle, htick, ?_⟩
  rw [hhandle]
  exact h.queued.order_qty ho

end Stands

/-! ### The tables send nothing -/

theorem eraseLive_same (v : Venue) (ref : ℕ) :
    (v.eraseLive ref).sent = v.sent ∧ (v.eraseLive ref).engine = v.engine ∧ Steady v (v.eraseLive ref) := by
  unfold eraseLive
  cases v.live.erase ref <;> exact ⟨rfl, rfl, ⟨rfl, rfl, rfl, rfl, rfl, rfl, rfl⟩⟩

theorem eraseUserRef_same (v : Venue) (user : ℕ) :
    (v.eraseUserRef user).sent = v.sent ∧ (v.eraseUserRef user).engine = v.engine ∧ Steady v (v.eraseUserRef user) := by
  unfold eraseUserRef
  cases v.byUserRef.erase user <;> exact ⟨rfl, rfl, ⟨rfl, rfl, rfl, rfl, rfl, rfl, rfl⟩⟩

theorem dropClient_same (v : Venue) (ref : ℕ) (l : LiveOrder) :
    (v.dropClient ref l).sent = v.sent ∧ (v.dropClient ref l).engine = v.engine ∧ Steady v (v.dropClient ref l) := by
  obtain ⟨hsent, hengine, hsteady⟩ := eraseUserRef_same v l.userRef
  obtain ⟨hsent', hengine', hsteady'⟩ := eraseLive_same (v.eraseUserRef l.userRef) ref
  have h := hsteady.trans hsteady'
  exact ⟨hsent'.trans hsent, hengine'.trans hengine, h.symbol, h.wirePerTick, h.minTick, h.maxTick, h.nextOrderRef,
    h.range⟩

/-! ### Trades of the engine -/

/-- The client of an arriving order, if it is one's. -/
def aggOf (client : Bool) (user : ℕ) : Option ℕ := if client then some user else none

/-- The first part of `handleTrade`: what is told and counted. -/
def reportTrade (aggClient : Bool) (aggUser : ℕ) (v : Venue) (t : Trade) : Venue :=
  let w := v.takeMatch.2.emitItchExecuted t.restingId t.qty v.nextMatch
  let w := if aggClient then w.emitExecuted aggUser t.qty t.price v.nextMatch else w
  match v.live.get? t.restingId with
  | none => w
  | some live =>
      if live.client then
        let w := w.emitExecuted live.userRef t.qty t.price v.nextMatch
        if aggClient then w.count fun m => { m with selfTrades := inc64 m.selfTrades } else w
      else if aggClient then w.count fun m => { m with impactFills := inc64 m.impactFills }
      else w

/-- The rest of `handleTrade`: a filled order leaves the tables. -/
def settleTrade (v : Venue) (t : Trade) : Venue :=
  match v.live.get? t.restingId with
  | none => v
  | some live =>
      if t.restingFilled then
        if live.client then v.dropClient t.restingId live else v.eraseLive t.restingId
      else v

theorem handleTrade_eq (aggClient : Bool) (aggUser : ℕ) (v : Venue) (t : Trade) :
    handleTrade aggClient aggUser v t = (reportTrade aggClient aggUser v t).settleTrade t := by
  have hlive : (reportTrade aggClient aggUser v t).live = v.live := by
    unfold reportTrade
    cases aggClient <;> cases v.live.get? t.restingId <;> simp only <;> split_ifs <;> rfl
  unfold settleTrade
  rw [hlive]
  unfold handleTrade reportTrade
  cases aggClient
  all_goals
    simp only [takeMatch]
    change (match v.live.get? t.restingId with | none => _ | some live => _) = _
    cases v.live.get? t.restingId with
    | none => rfl
    | some live => cases live.client <;> rfl

/-- The client whose order a reference is, by the table. -/
def clientOf (v : Venue) (ref : ℕ) : Option ℕ :=
  (v.live.get? ref).bind fun l => if l.client then some l.userRef else none

/-- What is told about a trade. -/
def tradeMsgs (v : Venue) (agg : Option ℕ) (t : Trade) : List Sent :=
  .marketData ⟨v.stockLocate, .orderExecuted t.restingId t.qty v.nextMatch⟩ ::
    (agg.toList ++ (v.clientOf t.restingId).toList).map fun u =>
      .orderEntry (.executed ⟨u, t.qty, v.tickToWire t.price, v.nextMatch⟩)

theorem answers_tradeMsgs (v : Venue) (agg : Option ℕ) (t : Trade) :
    (v.tradeMsgs agg t).filterMap Sent.answer? = (agg.toList ++ (v.clientOf t.restingId).toList).map fun u =>
      .executed ⟨u, t.qty, v.tickToWire t.price, v.nextMatch⟩ := by
  unfold tradeMsgs
  cases agg <;> cases v.clientOf t.restingId <;> rfl

theorem data_tradeMsgs (v : Venue) (agg : Option ℕ) (t : Trade) :
    (v.tradeMsgs agg t).filterMap Sent.data? =
      [⟨v.stockLocate, .orderExecuted t.restingId t.qty v.nextMatch⟩] := by
  unfold tradeMsgs
  cases agg <;> cases v.clientOf t.restingId <;> rfl

theorem tells_reportTrade (aggClient : Bool) (aggUser : ℕ) (v : Venue) (t : Trade) :
    Tells v (v.tradeMsgs (aggOf aggClient aggUser) t) (reportTrade aggClient aggUser v t) := by
  have hmd := (Tells.takeMatch v).trans (Tells.sendMd v.takeMatch.2 (.orderExecuted t.restingId t.qty v.nextMatch))
  unfold reportTrade tradeMsgs clientOf
  cases aggClient with
  | false =>
      cases v.live.get? t.restingId with
      | none => exact hmd
      | some live =>
          cases hc : live.client with
          | false => simp [aggOf, hc]; exact hmd
          | true => simp [aggOf, hc]; exact hmd.trans (Tells.sendOe _ _)
  | true =>
      have hagg := hmd.trans (Tells.sendOe _ (.executed ⟨aggUser, t.qty, v.tickToWire t.price, v.nextMatch⟩))
      cases v.live.get? t.restingId with
      | none => exact hagg
      | some live =>
          cases hc : live.client with
          | false => simp [aggOf, hc]; exact hagg.trans (Tells.count _ _)
          | true => simp [aggOf, hc]; exact (hagg.trans (Tells.sendOe _ _)).trans (Tells.count _ _)

/-- The table's client of a resting order is its owner. -/
theorem Tables.clientOf_eq {exact : Prop} {v : Venue} {d : Desk ℕ} {s : Side} {o : Resting ℕ} (h : Tables exact v d)
    (ho : o ∈ d.orders s) : v.clientOf o.id = d.owner o.id := by
  unfold clientOf
  rw [← h.lookup_eq_get? ho]
  cases hl : v.live.lookup o.id with
  | none => exact (h.owner_of_not_client (by simp [hl])).symm
  | some l =>
      simp only [Option.bind_some]
      split_ifs with hc
      · exact ((h.owner _ _).mpr ⟨l, hl, hc, rfl⟩).symm
      · exact (h.owner_of_not_client fun l' hl' => by rw [hl] at hl'; cases hl'; exact hc).symm

/-- A filled order leaves the tables, another one stays. -/
theorem Tables.settleTrade {exact : Prop} {v : Venue} {d : Desk ℕ} {s : Side} {o : Resting ℕ} {t : Trade}
    (h : Tables exact v d) (ho : o ∈ d.orders s) (hid : t.restingId = o.id) (hle : t.qty ≤ o.qty)
    (hfilled : t.restingFilled ↔ t.qty = o.qty) : Tables exact (v.settleTrade t) (d.lose s o t.qty) := by
  unfold Venue.settleTrade Desk.lose
  rw [hid, ← h.lookup_eq_get? ho]
  by_cases he : t.qty = o.qty
  · rw [if_pos he]
    have hf := hfilled.mpr he
    cases hl : v.live.lookup o.id with
    | none =>
        -- a tape order that the table has lost to another one with its reference
        have hnone := h.owner_of_not_client (by simp [hl] : ∀ l, v.live.lookup o.id = some l → ¬ l.client)
        have herase := h.eraseLive ho hnone
        have hsame : Tables exact v (d.leave s o) := by
          obtain ⟨hwf, hlookup, husers, hrefs⟩ := Tables.live_eraseLive h.liveWF o.id
          rw [← hl, Function.update_eq_self] at hlookup
          exact ⟨h.liveWF, h.usersWF, herase.sound, hlookup ▸ herase.live, hlookup ▸ herase.owner,
            hlookup ▸ herase.listed, herase.nonzero, h.nodup, hrefs ▸ herase.clients, husers ▸ herase.users⟩
        exact hsame
    | some l =>
        simp only [hf, if_true]
        split_ifs with hc
        · exact h.dropClient ho hl hc
        · exact h.eraseLive ho (h.owner_of_not_client fun l' hl' => by rw [hl] at hl'; cases hl'; exact hc)
  · rw [if_neg he]
    have hf : ¬ t.restingFilled := fun hf => he (hfilled.mp hf)
    have hshrink := h.shrink ho (q := o.qty - t.qty) (by omega)
    cases hl : v.live.lookup o.id with
    | none => exact hshrink
    | some l =>
        simp only [hf]
        exact hshrink

theorem settleTrade_same (v : Venue) (t : Trade) :
    (v.settleTrade t).sent = v.sent ∧ (v.settleTrade t).engine = v.engine ∧ Steady v (v.settleTrade t) := by
  unfold settleTrade
  cases v.live.get? t.restingId with
  | none => exact ⟨rfl, rfl, Steady.refl v⟩
  | some l =>
      simp only
      split_ifs
      · exact dropClient_same v t.restingId l
      · exact eraseLive_same v t.restingId
      · exact ⟨rfl, rfl, Steady.refl v⟩

/-- **A trade of the engine is one deed.** -/
theorem handleTrade_performs {exact : Prop} {v : Venue} {d : Desk ℕ} {s : Side} {o : Resting ℕ} {t : Trade}
    (h : Tables exact v d) (aggClient : Bool) (aggUser : ℕ) (ho : o ∈ d.orders s) (hid : t.restingId = o.id)
    (hprice : t.price = o.price) (hq : 0 < t.qty) (hle : t.qty ≤ o.qty) (hfilled : t.restingFilled ↔ t.qty = o.qty)
    (hagg : ∀ u, aggOf aggClient aggUser = some u → t.qty ≤ d.incoming u) :
    Performs exact v d [.hit s o t.qty (aggOf aggClient aggUser) (d.owner o.id) v.nextMatch]
      (handleTrade aggClient aggUser v t) ((d.spend (aggOf aggClient aggUser) t.qty).lose s o t.qty) := by
  have htells := tells_reportTrade aggClient aggUser v t
  rw [handleTrade_eq]
  have ht : Tables exact (reportTrade aggClient aggUser v t) (d.spend (aggOf aggClient aggUser) t.qty) :=
    h.congr htells.live htells.byUserRef htells.clientRefs (by simp) (by simp)
  refine Performs.of_tells htells (ht.settleTrade (by simpa using ho) hid hle hfilled) ⟨ho, hq, hle, rfl, hagg, rfl⟩
    ⟨(settleTrade_same ..).1, (settleTrade_same ..).2.2⟩ ?_ ?_
  · rw [answers_tradeMsgs, ← h.clientOf_eq ho, ← hid, hprice]
    rfl
  · rw [data_tradeMsgs, hid]
    rfl

theorem handleTrade_engine (aggClient : Bool) (aggUser : ℕ) (v : Venue) (t : Trade) :
    (handleTrade aggClient aggUser v t).engine = v.engine := by
  rw [handleTrade_eq]
  exact (settleTrade_same ..).2.1.trans (tells_reportTrade ..).engine

/-- **The trades of the engine are deeds**: the induction follows the trades and the orders
that they hit. -/
theorem handleTrades_perform {exact : Prop} {v : Venue} {d : Desk ℕ} {s : Side} {ts : List Trade} {A' : Sides ℕ}
    (h : Tables exact v d) (hts : d.orders.HitsAll s ts A') (aggClient : Bool) (aggUser : ℕ)
    (hagg : ∀ u, aggOf aggClient aggUser = some u → tradedShares ts ≤ d.incoming u) :
    ∃ xs d', Performs exact v d xs (ts.foldl (handleTrade aggClient aggUser) v) d' ∧ d'.orders = A' ∧
      (∀ x ∈ xs, x.Calm) ∧ (ts.foldl (handleTrade aggClient aggUser) v).engine = v.engine ∧
      d'.incoming = (d.spend (aggOf aggClient aggUser) (tradedShares ts)).incoming := by
  induction ts generalizing v d with
  | nil =>
      cases hts
      refine ⟨[], d, Performs.refl h, rfl, by simp, rfl, ?_⟩
      cases aggOf aggClient aggUser with
      | none => rfl
      | some u => exact (Function.update_eq_self u d.incoming).symm
  | cons t ts ih =>
      obtain ⟨A₁, ⟨o, ho, hid, hprice, hq, hle, hfilled, rfl⟩, hts⟩ := hts
      have hfit : ∀ u, aggOf aggClient aggUser = some u → t.qty + tradedShares ts ≤ d.incoming u := fun u hu => by
        rw [← tradedShares_cons]; exact hagg u hu
      have hone := handleTrade_performs h aggClient aggUser ho hid hprice hq hle hfilled fun u hu => by
        have := hfit u hu; omega
      generalize hd₁ : (d.spend (aggOf aggClient aggUser) t.qty).lose s o t.qty = d₁ at hone
      have horders : d₁.orders = d.orders.less s o t.qty := by rw [← hd₁]; simp
      have hincoming : d₁.incoming = (d.spend (aggOf aggClient aggUser) t.qty).incoming := by
        rw [← hd₁]; exact Desk.incoming_lose ..
      obtain ⟨xs, d', hperf, hA', hcalm, hengine, hinc⟩ := ih hone.tables (by rw [horders]; exact hts) fun u hu => by
        rw [hincoming, hu]
        simp only [Desk.spend, Function.update_self]
        have := hfit u hu
        omega
      refine ⟨_, d', hone.trans hperf, hA', ?_, hengine.trans (handleTrade_engine ..), ?_⟩
      · intro x hx
        obtain hx | hx := List.mem_append.mp hx
        · rw [List.mem_singleton.mp hx]; trivial
        · exact hcalm x hx
      · rw [hinc, tradedShares_cons]
        cases hu : aggOf aggClient aggUser with
        | none =>
            rw [hu] at hincoming
            exact hincoming
        | some u =>
            rw [hu] at hincoming
            simp only [Desk.spend] at hincoming ⊢
            rw [hincoming, Function.update_self, Function.update_idem, Nat.sub_sub]

end TickToTrade.Sim.Venue
