import TickToTrade.Sim.VenueDeeds

/-!
# What the calls of a venue do

Between the functions of a call the engine and the tables say the same (`Stands`), so that
the deeds of one function after the other can be put together (`Follows`). Where a
function only lets resting orders trade or leave, it is enough to know that its deeds are
calm (`Calms`).
-/

namespace TickToTrade.Sim.Venue

open Util

/-- The venue performs the deeds, and its engine has the orders that are left. -/
structure Follows (exact : Prop) (v : Venue) (d : Desk ℕ) (xs : List (Deed ℕ)) (w : Venue) (d' : Desk ℕ) : Prop
    extends Performs exact v d xs w d' where
  queued : w.engine.Queued d'.orders

/-- The venue performs calm deeds. -/
def Calms (exact : Prop) (v : Venue) (d : Desk ℕ) (w : Venue) (d' : Desk ℕ) : Prop :=
  ∃ xs, Follows exact v d xs w d' ∧ (∀ x ∈ xs, x.Calm) ∧ d'.incoming = d.incoming

/-- The shares that are arriving once an order has arrived. -/
def settled (incoming : ℕ → ℕ) : Option ℕ → ℕ → ℕ
  | some u => Function.update incoming u 0
  | none => incoming

/-- The venue performs deeds by which no order comes to rest but `ref`, of the client
`owner` or of none. -/
def Lands (exact : Prop) (v : Venue) (d : Desk ℕ) (ref : ℕ) (owner : Option ℕ) (w : Venue) (d' : Desk ℕ) : Prop :=
  ∃ xs, Follows exact v d xs w d' ∧ Desk.acceptances xs = [] ∧ (∀ a ∈ Desk.arrivals xs, a = (ref, owner)) ∧
    d'.incoming = settled d.incoming owner

section

variable {exact : Prop} {v w x : Venue} {d d' d'' : Desk ℕ} {xs ys : List (Deed ℕ)} {s : Side} {o : Resting ℕ}
  {l : LiveOrder} {ref q user : ℕ} {tick : ℤ}

namespace Follows

theorem stands (h : Follows exact v d xs w d') : Stands exact w d' := ⟨h.tables, h.queued⟩

theorem refl (h : Stands exact v d) : Follows exact v d [] v d := ⟨Performs.refl h.toTables, h.queued⟩

theorem trans (h : Follows exact v d xs w d') (h' : Follows exact w d' ys x d'') :
    Follows exact v d (xs ++ ys) x d'' :=
  ⟨h.toPerforms.trans h'.toPerforms, h'.queued⟩

/-- Messages about one deed that leaves the orders alone. -/
theorem of_message {msgs : List Sent} {a : Deed ℕ} (hs : Stands exact v d) (h : Tells v msgs w) (hdoes : d.Does a d')
    (horders : d'.orders = d.orders) (howner : d'.owner = d.owner)
    (hoe : msgs.filterMap Sent.answer? = a.oe v.wirePerTick)
    (hmd : (msgs.filterMap Sent.data?).map Itch.Msg.body = a.md v.wirePerTick) : Follows exact v d [a] w d' :=
  ⟨Performs.of_message hs.toTables h hdoes horders howner hoe hmd, by rw [h.engine, horders]; exact hs.queued⟩

theorem of_count (hs : Stands exact v d) (h : Tells v [] w) : Follows exact v d [] w d :=
  ⟨Performs.of_count hs.toTables h, by rw [h.engine]; exact hs.queued⟩

theorem calms (h : Follows exact v d xs w d') (hxs : ∀ x ∈ xs, x.Calm) (hin : d'.incoming = d.incoming) :
    Calms exact v d w d' :=
  ⟨xs, h, hxs, hin⟩

end Follows

namespace Calms

theorem refl (h : Stands exact v d) : Calms exact v d v d := ⟨[], .refl h, by simp, rfl⟩

theorem of_count (hs : Stands exact v d) (h : Tells v [] w) : Calms exact v d w d :=
  ⟨[], .of_count hs h, by simp, rfl⟩

theorem stands (h : Calms exact v d w d') : Stands exact w d' :=
  let ⟨_, h, _⟩ := h
  h.stands

theorem steady (h : Calms exact v d w d') : Steady v w :=
  let ⟨_, h, _⟩ := h
  h.steady

theorem trans (h : Calms exact v d w d') (h' : Calms exact w d' x d'') : Calms exact v d x d'' := by
  obtain ⟨xs, h, hxs, hin⟩ := h
  obtain ⟨ys, h', hys, hin'⟩ := h'
  refine ⟨xs ++ ys, h.trans h', fun z hz => ?_, hin'.trans hin⟩
  exact (List.mem_append.mp hz).elim (hxs z) (hys z)

theorem lands (h : Calms exact v d w d') (ref : ℕ) : Lands exact v d ref none w d' := by
  obtain ⟨xs, h, hxs, hin⟩ := h
  exact ⟨xs, h, Desk.acceptances_calm hxs, by simp [Desk.arrivals_calm hxs], hin⟩

theorem trans_lands {owner : Option ℕ} (h : Calms exact v d w d') (h' : Lands exact w d' ref owner x d'') :
    Lands exact v d ref owner x d'' := by
  obtain ⟨xs, h, hxs, hin⟩ := h
  obtain ⟨ys, h', hacc, harr, hin'⟩ := h'
  refine ⟨xs ++ ys, h.trans h', ?_, ?_, ?_⟩
  · rw [Desk.acceptances_append, Desk.acceptances_calm hxs, hacc]; rfl
  · rw [Desk.arrivals_append, Desk.arrivals_calm hxs]
    exact harr
  · rw [hin', hin]

end Calms

/-! ### Orders through their handles -/

/-- What stays the same when the engine alone changes. -/
theorem steady_engine (v : Venue) {b : OrderBook} (h : OrderBook.SameRange v.engine b) :
    Steady v { v with engine := b } :=
  ⟨rfl, rfl, rfl, rfl, rfl, h.1, h.2⟩

theorem engineCancel_eq (hs : Stands exact v d) (ho : o ∈ d.orders s) :
    ∃ b, v.engineCancel (some o.key) = (o.qty, { v with engine := b }) ∧ b.Queued (d.orders.without s o.key) ∧
      OrderBook.SameRange v.engine b := by
  obtain ⟨b, heq, hb, hrange⟩ := hs.queued.cancel ho
  refine ⟨b, ?_, hb, hrange⟩
  simp only [engineCancel, heq]

theorem engineReduce_eq (hs : Stands exact v d) (ho : o ∈ d.orders s) (hq : 0 < q) (hlt : q < o.qty) :
    ∃ b, v.engineReduce (some o.key) q = (o.qty - q, { v with engine := b }) ∧
      b.Queued (d.orders.resized s o.key q) ∧ OrderBook.SameRange v.engine b := by
  obtain ⟨b, heq, hb, hrange⟩ := hs.queued.reduce ho hq hlt
  refine ⟨b, ?_, hb, hrange⟩
  simp only [engineReduce, heq]

/-! ### Arriving orders -/

/-- The deeds of a venue whose engine has run ahead. -/
theorem performs_engine {b : OrderBook} (hrange : OrderBook.SameRange v.engine b)
    (h : Performs exact { v with engine := b } d xs w d') : Performs exact v d xs w d' :=
  ⟨h.tables, h.does, h.oe, h.md, (steady_engine v hrange).trans h.steady⟩

/-- The last part of `processOrder`: the order rests. -/
theorem rest_follows (client : Bool) (user : ℕ) (h : Tables exact v d) (hid : o.id ≠ 0) (hpos : 0 < o.qty)
    (hkey : ∀ s', ∀ x ∈ d.orders s', x.key ≠ o.key) (hfresh : ∀ s', ∀ x ∈ d.orders s', x.id ≠ o.id)
    (hclient : ∀ u, aggOf client user = some u → u ≠ 0 ∧ d.incoming u = o.qty ∧ ∀ r, d.owner r ≠ some u)
    (hqueued : v.engine.Queued (d.orders.rested s o)) (hshares : (v.engine.order o.key).qty = o.qty) :
    Follows exact v d [.rest s o (aggOf client user) .added]
      (let w := v.emitItchAdd o.id s o.price (v.engine.order o.key).qty
       if client then w.trackClient o.id (some o.key) s o.price user
       else w.setLive o.id ⟨some o.key, s, o.price, false, 0⟩)
      (d.rest s o (aggOf client user)) := by
  have hnone : d.owner o.id = none := by
    cases hw : d.owner o.id with
    | none => rfl
    | some u =>
        obtain ⟨s', x, hx, hxo⟩ := h.sound.owned _ _ hw
        exact absurd hxo (hfresh s' x hx)
  have htells := Tells.sendMd v (.addOrder o.id s o.qty (v.tickToWire o.price))
  have ht : Tables exact (v.sendMd (.addOrder o.id s o.qty (v.tickToWire o.price))) d := h.congr rfl rfl rfl rfl rfl
  rw [hshares]
  cases client with
  | false =>
      refine ⟨Performs.of_tells htells (ht.setLive hid hpos hkey hnone fun _ => hfresh)
        ⟨hpos, hkey, hnone, by simp [aggOf], rfl⟩ ⟨rfl, ⟨rfl, rfl, rfl, rfl, rfl, rfl, rfl⟩⟩ rfl rfl, ?_⟩
      rw [Desk.orders_rest]
      exact hqueued
  | true =>
      obtain ⟨hu, hin, hown⟩ := hclient user rfl
      refine ⟨Performs.of_tells htells (ht.trackClient hid hu hpos hkey hfresh hown)
        ⟨hpos, hkey, hnone, ?_, rfl⟩ ⟨rfl, ⟨rfl, rfl, rfl, rfl, rfl, rfl, rfl⟩⟩ rfl rfl, ?_⟩
      · rintro u hu'
        cases hu'
        exact ⟨hin, hown, hfresh⟩
      · rw [Desk.orders_rest]
        exact hqueued

/-- **A new order trades and rests.** -/
theorem processOrder_follows (s : Side) (client : Bool) (user : ℕ) (hs : Stands exact v d) (hq : q ≠ 0) (hp : v.engine.InRange tick)
    (href : ref ≠ 0) (hfresh : ∀ s', ∀ x ∈ d.orders s', x.id ≠ ref)
    (hclient : ∀ u, aggOf client user = some u → u ≠ 0 ∧ d.incoming u = q ∧ ∀ r, d.owner r ≠ some u) :
    ∃ d', Lands exact v d ref (aggOf client user) (v.processOrder ref s tick q client user) d' := by
  obtain ⟨h, b, left, ts, A₁, heq, hts, hsum, hrange, hend⟩ := hs.queued.add ref s hq hp
  have htables : Tables exact { v with engine := b } d := hs.toTables.congr rfl rfl rfl rfl rfl
  obtain ⟨xs, d₁, hperf, hA₁, hcalm, hengine, hin⟩ := handleTrades_perform htables hts client user fun u hu => by
    rw [(hclient u hu).2.1]; omega
  have hperf := performs_engine hrange hperf
  have hin₁ : ∀ u, aggOf client user = some u → d₁.incoming u = left := fun u hu => by
    rw [hin, hu]
    simp only [Desk.spend, Function.update_self, (hclient u hu).2.1]
    omega
  have hsettled : settled d₁.incoming (aggOf client user) = settled d.incoming (aggOf client user) := by
    rw [hin]
    cases aggOf client user with
    | none => rfl
    | some u => exact Function.update_idem ..
  unfold processOrder
  rw [heq]
  simp only
  generalize hw : ts.foldl (handleTrade client user) { v with engine := b } = w at hperf hengine ⊢
  obtain ⟨rfl, rfl, hb⟩ | ⟨k, rfl, hleft, hkey, hb, hshares⟩ := hend
  · refine ⟨d₁, xs, ⟨hperf, ?_⟩, Desk.acceptances_calm hcalm, by rw [Desk.arrivals_calm hcalm]; simp, ?_⟩
    · rw [hengine, hA₁]; exact hb
    · rw [← hsettled]
      cases hu : aggOf client user with
      | none => rfl
      | some u => exact (Function.update_eq_self_iff.mpr (hin₁ u hu).symm).symm
  · have hfresh₁ : ∀ s', ∀ x ∈ d₁.orders s', x.id ≠ ref := by
      intro s' x hx
      obtain ⟨x₀, hx₀, hid⟩ | ⟨c, hc⟩ := hperf.does.mem hs.sound hx
      · rw [← hid]; exact hfresh s' x₀ hx₀
      · rw [Desk.arrivals_calm hcalm] at hc; cases hc
    have hown₁ : ∀ u, aggOf client user = some u → ∀ r, d₁.owner r ≠ some u := by
      intro u hu r hr
      obtain hr | hr := hperf.does.owner_eq hr
      · exact (hclient u hu).2.2 r hr
      · rw [Desk.arrivals_calm hcalm] at hr; cases hr
    have hrest := rest_follows (o := ⟨k, ref, tick, left⟩) client user hperf.tables href hleft
      (by rw [hA₁]; exact hkey) hfresh₁ (fun u hu => ⟨(hclient u hu).1, hin₁ u hu, hown₁ u hu⟩)
      (by rw [hengine, hA₁]; exact hb) (by rw [hengine]; exact hshares)
    refine ⟨_, xs ++ [_], ⟨hperf.trans hrest.toPerforms, hrest.queued⟩, ?_, ?_, ?_⟩
    · rw [Desk.acceptances_append, Desk.acceptances_calm hcalm]; rfl
    · rw [Desk.arrivals_append, Desk.arrivals_calm hcalm]
      simp [Desk.arrivals, Deed.arrival?]
    · rw [← hsettled]
      cases aggOf client user <;> rfl

/-- **A new order trades and does not rest.** -/
theorem processImmediate_follows (ref : ℕ) (s : Side) (hs : Stands exact v d) (hq : q ≠ 0) (hp : v.engine.InRange tick)
    (hin : d.incoming user = q) :
    ∃ xs d', Follows exact v d xs (v.processImmediate ref s tick q user) d' ∧ (∀ x ∈ xs, x.Calm) ∧
      d'.incoming = Function.update d.incoming user 0 := by
  obtain ⟨b, left, ts, A', heq, hb, hts, hsum, hrange⟩ := hs.queued.match ref s hq hp
  have htables : Tables exact { v with engine := b } d := hs.toTables.congr rfl rfl rfl rfl rfl
  obtain ⟨xs, d₁, hperf, hA₁, hcalm, hengine, hin₁⟩ := handleTrades_perform htables hts true user fun u hu => by
    cases hu; omega
  have hperf := performs_engine hrange hperf
  have huser : d₁.incoming user = left := by
    rw [hin₁]
    simp only [aggOf, if_true, Desk.spend, Function.update_self]
    omega
  have hother : Function.update d₁.incoming user 0 = Function.update d.incoming user 0 := by
    rw [hin₁]
    exact Function.update_idem ..
  unfold processImmediate
  rw [heq]
  simp only
  generalize hw : ts.foldl (handleTrade true user) { v with engine := b } = w at hperf hengine ⊢
  have hf : Follows exact v d xs w d₁ := ⟨hperf, by rw [hengine, hA₁]; exact hb⟩
  split_ifs with hleft
  · refine ⟨xs ++ [.giveUp user left], { d₁ with incoming := Function.update d₁.incoming user 0 },
      hf.trans (.of_message (a := .giveUp user left) hf.stands (Tells.sendOe w _) ⟨hleft, huser, rfl⟩ rfl rfl rfl rfl), ?_,
      hother⟩
    intro x hx
    obtain hx | hx := List.mem_append.mp hx
    · exact hcalm x hx
    · rw [List.mem_singleton.mp hx]; trivial
  · refine ⟨xs, d₁, hf, hcalm, ?_⟩
    rw [← hother]
    exact (Function.update_eq_self_iff.mpr (by omega)).symm

/-- An order that the engine does not take. -/
theorem processOrder_out (client : Bool) (h : q = 0 ∨ ¬ v.engine.InRange tick) :
    v.processOrder ref s tick q client user = v := by
  unfold processOrder OrderBook.add
  rw [if_pos h]
  rfl

theorem processImmediate_out (h : q = 0 ∨ ¬ v.engine.InRange tick) :
    v.processImmediate ref s tick q user = v := by
  unfold processImmediate OrderBook.match
  rw [if_pos h]
  rfl

/-! ### Clients' orders leave -/

/-- The entry of a client's reference. -/
theorem Stands.client (hs : Stands exact v d) (hmem : ref ∈ v.clientRefs) :
    ∃ l, v.live.get? ref = some l ∧ l.client ∧ ref ≠ 0 := by
  cases hu : d.owner ref with
  | none => exact absurd hu ((hs.clients ref).mp hmem)
  | some u =>
      obtain ⟨l, hl, hclient, -⟩ := (hs.owner ref u).mp hu
      obtain ⟨o, ho, rfl, -⟩ := hs.live ref l hl
      exact ⟨l, by rw [← hs.lookup_eq_get? ho]; exact hl, hclient, hs.nonzero _ o ho⟩

/-- **A client's order leaves**, whatever is told about it. -/
theorem dropClient_stands (hs : Stands exact v d) (hl : v.live.get? ref = some l) (hclient : l.client) (href : ref ≠ 0) :
    ∃ o ∈ d.orders l.side, o.id = ref ∧ d.owner ref = some l.userRef ∧ (v.engineCancel l.handle).1 = o.qty ∧
      ∀ msgs x, Tells (v.engineCancel l.handle).2 msgs x →
        Stands exact (x.dropClient ref l) (d.leave l.side o) ∧ (x.dropClient ref l).sent = v.sent ++ msgs ∧
          Steady v (x.dropClient ref l) := by
  rw [← FlatHashMap.lookup_eq_get? _ href] at hl
  obtain ⟨o, ho, rfl, hhandle, -, -⟩ := hs.order_of_live hl
  have howner := (hs.client_order hl hclient ho).2.2.2
  obtain ⟨b, heq, hb, hrange⟩ := engineCancel_eq hs ho
  rw [hhandle, heq]
  refine ⟨o, ho, rfl, howner, rfl, fun msgs x htells => ?_⟩
  have ht : Tables exact x d := hs.toTables.congr htells.live htells.byUserRef htells.clientRefs rfl rfl
  obtain ⟨hsent, hengine, hsteady⟩ := dropClient_same x o.id l
  have hlx : x.live.lookup o.id = some l := by rw [htells.live]; exact hl
  refine ⟨⟨ht.dropClient ho hlx hclient, ?_⟩, hsent.trans htells.sent,
    ((steady_engine v hrange).trans htells.steady).trans hsteady⟩
  rw [hengine, htells.engine]
  exact hb

/-- **A client's order is cancelled.** -/
theorem cancelClient_follows (hs : Stands exact v d) (hl : v.live.get? ref = some l) (hclient : l.client)
    (href : ref ≠ 0) (r : Ouch.CancelReason) :
    ∃ o ∈ d.orders l.side, o.id = ref ∧
      Follows exact v d [.leave l.side o (some l.userRef) (.canceled r)]
        ((((v.engineCancel l.handle).2.emitItchDelete ref).emitCanceled l.userRef
          (v.engineCancel l.handle).1 r).dropClient ref l) (d.leave l.side o) := by
  obtain ⟨o, ho, rfl, howner, hqty, hleave⟩ := dropClient_stands hs hl hclient href
  refine ⟨o, ho, rfl, ?_⟩
  have hlocate : (v.engineCancel l.handle).2.stockLocate = v.stockLocate := by cases l.handle <;> rfl
  have htells : ∀ w : Venue, w.stockLocate = v.stockLocate →
      Tells w [.marketData ⟨v.stockLocate, .orderDelete o.id⟩, .orderEntry (.canceled ⟨l.userRef, o.qty, r⟩)]
        ((w.emitItchDelete o.id).emitCanceled l.userRef o.qty r) := fun w hw => by
    rw [← hw]
    exact (Tells.sendMd _ _).trans (Tells.sendOe _ _)
  obtain ⟨hstands, hsent, hsteady⟩ := hleave _ _ (htells _ hlocate)
  have htold := htells v rfl
  rw [hqty]
  exact ⟨Performs.of_tells htold hstands.toTables ⟨ho, howner.symm, by simp, rfl⟩
    ⟨hsent.trans htold.sent.symm, ⟨hsteady.symbol, hsteady.wirePerTick, hsteady.minTick, hsteady.maxTick,
      hsteady.nextOrderRef, hsteady.range⟩⟩ rfl rfl, hstands.queued⟩

end

end TickToTrade.Sim.Venue
