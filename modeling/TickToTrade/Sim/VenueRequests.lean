import TickToTrade.Sim.VenueTape

/-!
# What requests do to a venue

A request is refused, cancels, or brings a new order with a new reference. The reference
is taken first, so that the deeds start in a venue that has it already (`Answers`).
-/

namespace TickToTrade.Sim.Venue

open Util

/-- The engine has the price range of the venue, which is a range of 32-bit prices. -/
structure Fair (v : Venue) : Prop where
  least : v.engine.minPrice = v.minTick
  greatest : v.engine.maxPrice = v.maxTick
  low : -2 ^ 31 ≤ v.minTick
  ordered : v.minTick ≤ v.maxTick
  high : v.maxTick < 2 ^ 31

/-- A price that is valid is one of the engine's. -/
theorem Fair.inRange {v : Venue} (h : v.Fair) {wire : ℕ} {tick : ℤ} (hp : v.validPrice wire = some tick) :
    v.engine.InRange tick := by
  obtain ⟨hleast, hgreatest, hlow, hordered, hhigh⟩ := h
  unfold validPrice at hp
  simp only at hp
  split_ifs at hp with hgrid hrange
  cases hp
  rw [OrderBook.InRange, hleast, hgreatest]
  generalize wire / v.wirePerTick = t at hrange ⊢
  unfold wirePrice at hrange
  unfold toPrice
  split_ifs <;> omega

/-- The venue takes at most one new order, of the client `user`, under its next reference,
and the orders `gone` leave for it. -/
def Answers (exact : Prop) (v : Venue) (d : Desk ℕ) (user : ℕ) (gone : List (ℕ × ℕ)) (w : Venue) (d' : Desk ℕ) : Prop :=
  ∃ xs, Follows exact { v with nextOrderRef := w.nextOrderRef } d xs w d' ∧
    (w.nextOrderRef = v.nextOrderRef ∧ (∀ x ∈ xs, x.Calm) ∧ d'.incoming = d.incoming ∨
      w.nextOrderRef = inc64 v.nextOrderRef ∧ Desk.acceptances xs = [(user, v.nextOrderRef)] ∧
        Desk.departures xs = gone ∧
        (∀ a ∈ Desk.arrivals xs, a = (v.nextOrderRef, some user)) ∧ (∀ u, u ≠ user → d'.incoming u = d.incoming u) ∧
        (v.Fair → d'.incoming user = 0))

section

variable {exact : Prop} {v w x : Venue} {d d' d'' : Desk ℕ} {s : Side} {o : Resting ℕ} {l : LiveOrder}
  {ref q user : ℕ} {tick : ℤ}

/-- A venue with another next reference. -/
theorem Stands.with_ref (h : Stands exact v d) (n : ℕ) : Stands exact { v with nextOrderRef := n } d :=
  h.congr rfl rfl rfl rfl rfl rfl

/-- Deeds do not depend on the next reference. -/
theorem Follows.with_ref {xs : List (Deed ℕ)} (h : Follows exact v d xs w d') (n : ℕ) :
    Follows exact { v with nextOrderRef := n } d xs { w with nextOrderRef := n } d' where
  tables := h.tables.congr rfl rfl rfl rfl rfl
  does := h.does
  oe := h.oe
  md := h.md
  steady := ⟨h.steady.symbol, h.steady.wirePerTick, h.steady.minTick, h.steady.maxTick, rfl, h.steady.range⟩
  queued := h.queued

theorem Calms.answers (h : Calms exact v d w d') (user : ℕ) (gone : List (ℕ × ℕ)) :
    Answers exact v d user gone w d' := by
  obtain ⟨xs, h, hxs, hin⟩ := h
  refine ⟨xs, ?_, .inl ⟨h.steady.nextOrderRef, hxs, hin⟩⟩
  rw [h.steady.nextOrderRef]
  exact h

/-! ### The next reference -/

theorem inc64_ne (n : ℕ) : inc64 n ≠ n := by
  unfold inc64
  omega

theorem nextOrderRef_foldl (client : Bool) (user : ℕ) (ts : List Trade) (v : Venue) :
    (ts.foldl (handleTrade client user) v).nextOrderRef = v.nextOrderRef := by
  induction ts generalizing v with
  | nil => rfl
  | cons t ts ih =>
      refine (ih _).trans ?_
      rw [handleTrade_eq]
      exact (settleTrade_same ..).2.2.nextOrderRef.trans (tells_reportTrade ..).steady.nextOrderRef

/-- A new order takes no reference by itself. -/
theorem nextOrderRef_processOrder (v : Venue) (ref : ℕ) (s : Side) (tick : ℤ) (q : ℕ) (client : Bool) (user : ℕ) :
    (v.processOrder ref s tick q client user).nextOrderRef = v.nextOrderRef := by
  unfold processOrder
  simp only
  cases (v.engine.add ref s tick q).1 with
  | none => exact nextOrderRef_foldl ..
  | some h => cases client <;> exact nextOrderRef_foldl ..

theorem nextOrderRef_processImmediate (v : Venue) (ref : ℕ) (s : Side) (tick : ℤ) (q user : ℕ) :
    (v.processImmediate ref s tick q user).nextOrderRef = v.nextOrderRef := by
  unfold processImmediate
  simp only
  split_ifs <;> exact nextOrderRef_foldl ..

/-! ### New orders -/

/-- A refusal. -/
theorem refuse_calms (hs : Stands exact v d) (m : Ouch.Rejected) : Calms exact v d (v.sendOe (.rejected m)) d :=
  Follows.calms (.of_message (a := .reject m) hs (Tells.sendOe v _) rfl rfl rfl rfl rfl) (by simp [Deed.Calm]) rfl

theorem refuseCancel_calms (hs : Stands exact v d) (m : Ouch.CancelReject) :
    Calms exact v d (v.sendOe (.cancelReject m)) d :=
  Follows.calms (.of_message (a := .cancelReject m) hs (Tells.sendOe v _) rfl rfl rfl rfl rfl) (by simp [Deed.Calm]) rfl

/-- The last part of a request that brings an order: it has been accepted, and now trades
and rests. -/
theorem processOrder_answers {xs : List (Deed ℕ)} (hf : Follows exact { v with nextOrderRef := inc64 v.nextOrderRef } d xs w d')
    (hacc : Desk.acceptances xs = [(user, v.nextOrderRef)]) {gone : List (ℕ × ℕ)} (hgone : Desk.departures xs = gone) (harr : Desk.arrivals xs = []) (href : v.nextOrderRef ≠ 0)
    (hfresh : ∀ s, ∀ o ∈ d'.orders s, o.id ≠ v.nextOrderRef) (huser : user ≠ 0) (hown : ∀ r, d'.owner r ≠ some user)
    (hin : d'.incoming user = q) (hother : ∀ u, u ≠ user → d'.incoming u = d.incoming u) (hq : q ≠ 0)
    (hp : v.Fair → w.engine.InRange tick) :
    ∃ d'', Answers exact v d user gone (w.processOrder v.nextOrderRef s tick q true user) d'' := by
  by_cases hin' : w.engine.InRange tick
  · obtain ⟨d'', ys, hf', hacc', harr', hin''⟩ := processOrder_follows s true user hf.stands
      hq hin' href hfresh fun u hu => by cases hu; exact ⟨huser, hin, hown⟩
    have hall := hf.trans hf'
    refine ⟨d'', xs ++ ys, by rw [hall.steady.nextOrderRef]; exact hall,
      .inr ⟨hall.steady.nextOrderRef, ?_, ?_, ?_, ?_, ?_⟩⟩
    · rw [Desk.acceptances_append, hacc, hacc']; rfl
    · rw [Desk.departures_append, hgone, Desk.departures_of_acceptances hacc', List.append_nil]
    · rw [Desk.arrivals_append, harr]
      exact harr'
    · intro u hu
      rw [hin'']
      exact (Function.update_of_ne hu ..).trans (hother u hu)
    · intro _
      rw [hin'']
      exact Function.update_self ..
  · rw [processOrder_out true (.inr hin')]
    refine ⟨d', xs, by rw [hf.steady.nextOrderRef]; exact hf,
      .inr ⟨hf.steady.nextOrderRef, hacc, hgone, ?_, hother, ?_⟩⟩
    · simp [harr]
    · exact fun hfair => absurd (hp hfair) hin'

/-- The next reference can be taken. -/
def Unused (v : Venue) (d : Desk ℕ) : Prop := v.nextOrderRef ≠ 0 ∧ ∀ s, ∀ o ∈ d.orders s, o.id ≠ v.nextOrderRef

/-- **A new order.** -/
theorem onEnterOrder_answers (hs : Stands exact v d) (m : Ouch.EnterOrder)
    (hnew : (v.onEnterOrder m).nextOrderRef ≠ v.nextOrderRef → Unused v d) (huser : m.userRefNum ≠ 0) (hidle : d.Idle m.userRefNum) :
    ∃ d', Answers exact v d m.userRefNum [] (v.onEnterOrder m) d' := by
  unfold onEnterOrder at hnew ⊢
  simp only at hnew ⊢
  cases hside : parseSide m.side with
  | none => exact ⟨d, (refuse_calms hs _).answers ..⟩
  | some s =>
      simp only [hside] at hnew ⊢
      by_cases hq : m.quantity = 0
      · rw [if_pos hq]
        exact ⟨d, (refuse_calms hs _).answers ..⟩
      rw [if_neg hq] at hnew ⊢
      by_cases hsym : m.symbol ≠ v.symbol
      · rw [if_pos hsym]
        exact ⟨d, (refuse_calms hs _).answers ..⟩
      rw [if_neg hsym] at hnew ⊢
      cases hp : v.validPrice m.price with
      | none => exact ⟨d, (refuse_calms hs _).answers ..⟩
      | some tick =>
          simp only [hp, takeRef] at hnew ⊢
          obtain ⟨href, hfresh⟩ := hnew (by
            split_ifs
            · rw [nextOrderRef_processImmediate]; exact inc64_ne _
            · rw [nextOrderRef_processOrder]; exact inc64_ne _)
          clear hnew
          have haccept : ∀ st, Follows exact { v with nextOrderRef := inc64 v.nextOrderRef } d
              [.accept ⟨m.userRefNum, m.side, m.quantity, m.price, v.nextOrderRef, st⟩]
              (emitAccepted { v with nextOrderRef := inc64 v.nextOrderRef } m v.nextOrderRef st)
              (d.arrive m.userRefNum m.quantity) := fun st =>
            .of_message (hs.with_ref _) (Tells.sendOe _ _) ⟨hidle, rfl⟩ rfl rfl rfl rfl
          have hin : (d.arrive m.userRefNum m.quantity).incoming m.userRefNum = m.quantity := by
            simp [Desk.arrive, hidle.2]
          have hother : ∀ u, u ≠ m.userRefNum → (d.arrive m.userRefNum m.quantity).incoming u = d.incoming u :=
            fun u hu => Function.update_of_ne hu ..
          split_ifs with hioc
          · have hf := haccept .dead
            generalize hw : emitAccepted { v with nextOrderRef := inc64 v.nextOrderRef } m v.nextOrderRef .dead = w
              at hf
            by_cases hrange : w.engine.InRange tick
            · obtain ⟨xs, d', hf', hcalm, hin'⟩ := processImmediate_follows v.nextOrderRef s hf.stands hq hrange hin
              have hall := hf.trans hf'
              refine ⟨d', _, by rw [hall.steady.nextOrderRef]; exact hall,
                .inr ⟨hall.steady.nextOrderRef, ?_, ?_, ?_, ?_, ?_⟩⟩
              · rw [Desk.acceptances_append, Desk.acceptances_calm hcalm]; rfl
              · rw [Desk.departures_append, Desk.departures_of_acceptances (Desk.acceptances_calm hcalm)]; rfl
              · rw [Desk.arrivals_append, Desk.arrivals_calm hcalm]
                simp [Desk.arrivals, Deed.arrival?]
              · intro u hu
                rw [hin']
                exact (Function.update_of_ne hu ..).trans (hother u hu)
              · intro _
                rw [hin']
                exact Function.update_self ..
            · rw [processImmediate_out (.inr hrange)]
              refine ⟨_, _, by rw [hf.steady.nextOrderRef]; exact hf,
                .inr ⟨hf.steady.nextOrderRef, rfl, rfl, ?_, hother, ?_⟩⟩
              · simp [Desk.arrivals, Deed.arrival?]
              · intro hfair
                refine absurd ?_ hrange
                rw [← hw]
                exact hfair.inRange hp
          · exact processOrder_answers (haccept .live) rfl rfl rfl href hfresh huser hidle.1 hin hother hq
              fun hfair => hfair.inRange hp

/-! ### Cancels and replacements -/

/-- The order of a client's user reference. -/
theorem Stands.order_of_user (hs : Stands exact v d) (huser : user ≠ 0) (href : v.byUserRef.get? user = some ref) :
    ∃ l, v.live.get? ref = some l ∧ l.client ∧ l.userRef = user ∧ ref ≠ 0 := by
  rw [← FlatHashMap.lookup_eq_get? _ huser, hs.users] at href
  obtain ⟨l, hl, hclient, hu⟩ := (hs.owner ref user).mp href
  obtain ⟨o, ho, rfl, -⟩ := hs.live ref l hl
  exact ⟨l, by rw [← hs.lookup_eq_get? ho]; exact hl, hclient, hu, hs.nonzero _ o ho⟩

/-- **A cancel.** -/
theorem onCancelOrder_calms (hs : Stands exact v d) (m : Ouch.CancelOrder) (huser : m.userRefNum ≠ 0) :
    ∃ d', Calms exact v d (v.onCancelOrder m) d' := by
  unfold onCancelOrder
  simp only
  cases href : v.byUserRef.get? m.userRefNum with
  | none => exact ⟨d, refuseCancel_calms hs _⟩
  | some ref =>
      obtain ⟨l, hl, hclient, hu, hne⟩ := hs.order_of_user huser href
      simp only [hl]
      obtain ⟨o, ho, hid, hhandle, -, hqty⟩ := hs.order_of_live (by rwa [FlatHashMap.lookup_eq_get? _ hne])
      rw [hqty]
      by_cases hge : m.quantity ≥ o.qty
      · rw [if_pos hge]
        exact ⟨d, refuseCancel_calms hs _⟩
      rw [if_neg hge]
      by_cases hzero : m.quantity = 0
      · rw [if_pos hzero, ← hu]
        obtain ⟨o', -, -, hf⟩ := cancelClient_follows hs hl hclient hne .userRequested
        exact ⟨_, hf.calms (by simp [Deed.Calm]) rfl⟩
      · rw [if_neg hzero, hhandle]
        obtain ⟨b, heq, hb, hrange⟩ := engineReduce_eq hs ho (q := m.quantity) (by omega) (by omega)
        have howner := (hs.client_order (by rw [hid, FlatHashMap.lookup_eq_get? _ hne]; exact hl) hclient ho).2.2.2
        rw [heq]
        simp only
        have ht : Tables exact { v with engine := b } (d.shrink l.side o m.quantity) :=
          (hs.toTables.congr rfl rfl rfl rfl rfl : Tables exact { v with engine := b } d).shrink ho (by omega)
        have htells : Tells { v with engine := b } [.marketData ⟨v.stockLocate, .orderCancel ref (o.qty - m.quantity)⟩,
            .orderEntry (.canceled ⟨m.userRefNum, o.qty - m.quantity, .userRequested⟩)]
            (emitCanceled (emitItchCancel { v with engine := b } ref (o.qty - m.quantity)) m.userRefNum
              (o.qty - m.quantity) .userRequested) :=
          (Tells.sendMd _ _).trans (Tells.sendOe _ _)
        have hf : Follows exact v d [.shrink l.side o m.quantity (some m.userRefNum)] _ (d.shrink l.side o m.quantity) :=
          ⟨performs_engine hrange (.of_tells htells (ht.congr htells.live htells.byUserRef htells.clientRefs rfl rfl)
            ⟨ho, by omega, by omega, by rw [howner, hu], rfl⟩ ⟨rfl, Steady.refl _⟩ rfl (by rw [← hid]; rfl)), hb⟩
        exact ⟨_, hf.calms (by simp [Deed.Calm]) rfl⟩

/-- An order that is not marketable meets no order that it could trade with. -/
theorem add_quiet (h : v.isMarketable s tick = false) (id : ℕ) : (v.engine.add id s tick q).2.2 = [] := by
  have hquiet : ¬ (v.engine.best s.opposite ≠ kNoPrice ∧ s.opposite.atLeast (v.engine.best s.opposite) tick) := by
    cases s
    · exact of_decide_eq_false h
    · exact of_decide_eq_false h
  have hlevels : OrderBook.matchLevels id s tick (v.engine.size + 1) v.engine q = (v.engine, q, []) := by
    unfold OrderBook.matchLevels
    exact if_neg fun hgo => hquiet hgo.2
  unfold OrderBook.add OrderBook.match
  rw [hlevels]
  by_cases hout : q = 0 ∨ ¬ v.engine.InRange tick
  · rw [if_pos hout]
  · rw [if_neg hout, if_neg hout]
    simp only
    split_ifs <;> rfl

/-- The last part of a replacement with an order that trades with none. -/
theorem rest_answers {xs : List (Deed ℕ)} {origRef : ℕ}
    (hf : Follows exact { v with nextOrderRef := inc64 v.nextOrderRef } d xs w d')
    (hacc : Desk.acceptances xs = [(user, v.nextOrderRef)]) {gone : List (ℕ × ℕ)} (hgone : Desk.departures xs = gone) (harr : Desk.arrivals xs = []) (href : v.nextOrderRef ≠ 0)
    (hfresh : ∀ s, ∀ o ∈ d'.orders s, o.id ≠ v.nextOrderRef) (huser : user ≠ 0) (hown : ∀ r, d'.owner r ≠ some user)
    (hin : d'.incoming user = q) (hother : ∀ u, u ≠ user → d'.incoming u = d.incoming u) (hq : q ≠ 0)
    (hp : v.Fair → w.engine.InRange tick) (hquiet : w.isMarketable s tick = false) :
    ∃ d'', Answers exact v d user gone
      (let (h, engine, _) := w.engine.add v.nextOrderRef s tick q
       let x := { w with engine := engine }.emitItchReplace origRef v.nextOrderRef q tick
       match h with
       | some h => x.trackClient v.nextOrderRef (some h) s tick user
       | none => x) d'' := by
  have hts := add_quiet hquiet (q := q) v.nextOrderRef
  by_cases hrange : w.engine.InRange tick
  · obtain ⟨h, b, left, ts, A₁, heq, hhits, hsum, hsame, hend⟩ := hf.queued.add v.nextOrderRef s hq hrange
    rw [heq] at hts ⊢
    obtain rfl : ts = [] := hts
    obtain rfl : A₁ = d'.orders := hhits
    obtain rfl : left = q := hsum
    obtain ⟨-, hzero, -⟩ | ⟨k, rfl, hleft, hkey, hb, -⟩ := hend
    · exact absurd hzero hq
    simp only
    have htells : Tells { w with engine := b } [.marketData ⟨w.stockLocate,
        .orderReplace origRef v.nextOrderRef left (w.tickToWire tick)⟩]
        (emitItchReplace { w with engine := b } origRef v.nextOrderRef left tick) := Tells.sendMd _ _
    have ht : Tables exact (emitItchReplace { w with engine := b } origRef v.nextOrderRef left tick) d' :=
      hf.tables.congr rfl rfl rfl rfl rfl
    have hnone : d'.owner v.nextOrderRef = none := by
      cases hu : d'.owner v.nextOrderRef with
      | none => rfl
      | some u =>
          obtain ⟨s', o, ho, hid⟩ := hf.tables.sound.owned _ _ hu
          exact absurd hid (hfresh s' o ho)
    have hdoes : d'.Does (.rest s ⟨k, v.nextOrderRef, tick, left⟩ (some user) (.replacing origRef))
        (d'.rest s ⟨k, v.nextOrderRef, tick, left⟩ (some user)) :=
      ⟨hleft, hkey, hnone, fun u hu => by cases hu; exact ⟨hin, hown, hfresh⟩, rfl⟩
    have hrest : Follows exact w d' [.rest s ⟨k, v.nextOrderRef, tick, left⟩ (some user) (.replacing origRef)]
        (trackClient (emitItchReplace { w with engine := b } origRef v.nextOrderRef left tick) v.nextOrderRef (some k) s
          tick user) (d'.rest s ⟨k, v.nextOrderRef, tick, left⟩ (some user)) := by
      refine ⟨performs_engine hsame (.of_tells htells
        (ht.trackClient (o := ⟨k, v.nextOrderRef, tick, left⟩) href huser hleft hkey hfresh hown) hdoes
        ⟨rfl, ⟨rfl, rfl, rfl, rfl, rfl, rfl, rfl⟩⟩ rfl rfl), ?_⟩
      rw [Desk.orders_rest]
      exact hb
    have hall := hf.trans hrest
    refine ⟨_, _, by rw [hall.steady.nextOrderRef]; exact hall, .inr ⟨hall.steady.nextOrderRef, ?_, ?_, ?_, ?_, ?_⟩⟩
    · rw [Desk.acceptances_append, hacc]; rfl
    · rw [Desk.departures_append, hgone]
      simp [Desk.departures, Deed.removed?]
    · rw [Desk.arrivals_append, harr]
      simp [Desk.arrivals, Deed.arrival?]
    · intro u hu
      exact (Function.update_of_ne hu ..).trans (hother u hu)
    · exact fun _ => Function.update_self ..
  · -- the price range of the venue is empty: the market data alone is told
    have hout : w.engine.add v.nextOrderRef s tick q = (none, w.engine, []) := by
      unfold OrderBook.add
      rw [if_pos (.inr hrange)]
    rw [hout]
    simp only
    have hpublish : Follows exact w d' [.publish (.orderReplace origRef v.nextOrderRef q (w.tickToWire tick))]
        (w.emitItchReplace origRef v.nextOrderRef q tick) d' :=
      .of_message hf.stands (Tells.sendMd w _) rfl rfl rfl rfl rfl
    have hall := hf.trans hpublish
    refine ⟨d', _, by rw [hall.steady.nextOrderRef]; exact hall,
      .inr ⟨hall.steady.nextOrderRef, ?_, ?_, ?_, hother, fun hfair => absurd (hp hfair) hrange⟩⟩
    · rw [Desk.acceptances_append, hacc]; rfl
    · rw [Desk.departures_append, hgone]
      simp [Desk.departures, Deed.removed?]
    · rw [Desk.arrivals_append, harr]
      simp [Desk.arrivals, Deed.arrival?]

/-- The last part of `onReplaceOrder`: the new order trades and rests. -/
def arriveReplaced (v : Venue) (origRef newRef : ℕ) (side : Side) (tick : ℤ) (qty user : ℕ) : Venue :=
  if v.isMarketable side tick then (v.emitItchDelete origRef).processOrder newRef side tick qty true user
  else
    let (h, engine, _) := v.engine.add newRef side tick qty
    let v := { v with engine := engine }.emitItchReplace origRef newRef qty tick
    match h with
    | some h => v.trackClient newRef (some h) side tick user
    | none => v

theorem nextOrderRef_arriveReplaced (v : Venue) (origRef newRef : ℕ) (s : Side) (tick : ℤ) (q user : ℕ) :
    (v.arriveReplaced origRef newRef s tick q user).nextOrderRef = v.nextOrderRef := by
  unfold arriveReplaced
  split_ifs
  · exact nextOrderRef_processOrder ..
  · simp only
    cases (v.engine.add newRef s tick q).1 <;> rfl

theorem replaced_answers {xs : List (Deed ℕ)} (origRef : ℕ)
    (hf : Follows exact { v with nextOrderRef := inc64 v.nextOrderRef } d xs w d')
    (hacc : Desk.acceptances xs = [(user, v.nextOrderRef)]) {gone : List (ℕ × ℕ)} (hgone : Desk.departures xs = gone) (harr : Desk.arrivals xs = []) (href : v.nextOrderRef ≠ 0)
    (hfresh : ∀ s, ∀ o ∈ d'.orders s, o.id ≠ v.nextOrderRef) (huser : user ≠ 0) (hown : ∀ r, d'.owner r ≠ some user)
    (hin : d'.incoming user = q) (hother : ∀ u, u ≠ user → d'.incoming u = d.incoming u) (hq : q ≠ 0)
    (hp : v.Fair → w.engine.InRange tick) :
    ∃ d'', Answers exact v d user gone (w.arriveReplaced origRef v.nextOrderRef s tick q user) d'' := by
  unfold arriveReplaced
  by_cases hmarket : w.isMarketable s tick
  · rw [if_pos hmarket]
    have hdelete : Follows exact w d' [.publish (.orderDelete origRef)] (w.emitItchDelete origRef) d' :=
      .of_message hf.stands (Tells.sendMd w _) rfl rfl rfl rfl rfl
    refine processOrder_answers (hf.trans hdelete) ?_ ?_ ?_ href hfresh huser hown hin hother hq hp
    · rw [Desk.acceptances_append, hacc]; rfl
    · rw [Desk.departures_append, hgone]
      simp [Desk.departures, Deed.removed?]
    · rw [Desk.arrivals_append, harr]; rfl
  · rw [if_neg hmarket]
    exact rest_answers hf hacc hgone harr href hfresh huser hown hin hother hq hp (by simpa using hmarket)

/-- **A replacement.** -/
theorem onReplaceOrder_answers (hs : Stands exact v d) (m : Ouch.ReplaceOrder)
    (hnew : (v.onReplaceOrder m).nextOrderRef ≠ v.nextOrderRef → Unused v d) (horig : m.origUserRefNum ≠ 0)
    (huser : m.userRefNum ≠ 0) (hidle : d.Idle m.userRefNum) (hheld : d.Holds m.origUserRefNum q) :
    ∃ d', Answers exact v d m.userRefNum [(m.origUserRefNum, q)] (v.onReplaceOrder m) d' := by
  unfold onReplaceOrder at hnew ⊢
  simp only at hnew ⊢
  cases hby : v.byUserRef.get? m.origUserRefNum with
  | none => exact ⟨d, (refuse_calms hs _).answers ..⟩
  | some origRef =>
      obtain ⟨l, hl, hclient, hu, hne⟩ := hs.order_of_user horig hby
      simp only [hby, hl] at hnew ⊢
      by_cases hq : m.quantity = 0
      · rw [if_pos hq]
        exact ⟨d, (refuse_calms hs _).answers ..⟩
      rw [if_neg hq] at hnew ⊢
      cases hp : v.validPrice m.price with
      | none => exact ⟨d, (refuse_calms hs _).answers ..⟩
      | some tick =>
          simp only [hp, takeRef] at hnew ⊢
          obtain ⟨o, ho, hid, howner, hqty, hleave⟩ := dropClient_stands hs hl hclient hne
          obtain ⟨hstands, hsent, hsteady⟩ := hleave [] _ (Tells.refl _)
          rw [List.append_nil] at hsent
          generalize (v.engineCancel l.handle).2.dropClient origRef l = w at hstands hsent hsteady hnew ⊢
          rw [hsteady.nextOrderRef] at hnew ⊢
          obtain ⟨href, hfresh⟩ := hnew fun he =>
            inc64_ne _ ((nextOrderRef_arriveReplaced _ origRef _ l.side tick m.quantity m.userRefNum).symm.trans he)
          clear hnew
          have hownerOf : d.owner o.id = some m.origUserRefNum := by rw [hid, howner, hu]
          have hnewUser : ∀ r, (d.leave l.side o).owner r ≠ some m.userRefNum := by
            intro r hr
            unfold Desk.leave at hr
            by_cases he : r = o.id
            · simp [he] at hr
            · exact hidle.1 r (by simpa [he] using hr)
          have hreplace : Follows exact { v with nextOrderRef := inc64 v.nextOrderRef } d
              [.replace l.side o
                ⟨m.origUserRefNum, m.userRefNum, ouchSide l.side, m.quantity, m.price, v.nextOrderRef, .live⟩]
              (emitReplaced { w with nextOrderRef := inc64 v.nextOrderRef } m v.nextOrderRef l.side)
              ((d.leave l.side o).arrive m.userRefNum m.quantity) := by
            refine ⟨Performs.of_tells (Tells.sendOe _ _) (hstands.toTables.congr rfl rfl rfl rfl rfl)
              ⟨ho, hownerOf, hidle, rfl⟩ ⟨?_, hsteady.symbol, hsteady.wirePerTick, hsteady.minTick, hsteady.maxTick, rfl,
                hsteady.range⟩ rfl rfl, hstands.queued⟩
            exact congrArg (· ++ _) hsent
          have hin : ((d.leave l.side o).arrive m.userRefNum m.quantity).incoming m.userRefNum = m.quantity := by
            simp [Desk.arrive, Desk.leave, hidle.2]
          have hother : ∀ u, u ≠ m.userRefNum →
              ((d.leave l.side o).arrive m.userRefNum m.quantity).incoming u = d.incoming u :=
            fun u hu => Function.update_of_ne hu ..
          have hfresh' : ∀ s, ∀ x ∈ ((d.leave l.side o).arrive m.userRefNum m.quantity).orders s, x.id ≠ v.nextOrderRef :=
            fun s x hx => hfresh s x ((Sides.mem_without hs.sound.distinct ho).mp hx).1
          have hgone : Desk.departures [Deed.replace l.side o ⟨m.origUserRefNum, m.userRefNum, ouchSide l.side, m.quantity,
              m.price, v.nextOrderRef, .live⟩] = [(m.origUserRefNum, q)] := by
            rw [← hheld.eq hs.sound ho hownerOf]
            rfl
          exact replaced_answers origRef hreplace rfl hgone rfl href hfresh' huser hnewUser hin hother hq
            fun hfair => (hreplace.steady.inRange).mpr (hfair.inRange hp)

/-! ### Synthetic orders -/

/-- **A synthetic order arrives.** -/
theorem injectSynthetic_lands (hs : Stands exact v d) (hnew : Unused v d) (s : Side) (tick : ℤ) (q : ℕ) :
    ∃ d', Lands exact { v with nextOrderRef := inc64 v.nextOrderRef } d v.nextOrderRef none
      (v.injectSynthetic s tick q).2 d' := by
  have hs' := hs.with_ref (inc64 v.nextOrderRef)
  unfold injectSynthetic
  simp only [takeRef]
  by_cases hout : q = 0 ∨ ¬ v.engine.InRange tick
  · have heq : processOrder { v with nextOrderRef := inc64 v.nextOrderRef } v.nextOrderRef s tick q false 0 = _ :=
      processOrder_out false hout
    rw [heq]
    exact ⟨d, (Calms.refl hs').lands _⟩
  · obtain ⟨hq, hp⟩ := not_or.mp hout
    exact processOrder_follows s false 0 hs' hq (not_not.mp hp) hnew.1 hnew.2 (by simp [aggOf])

theorem nextOrderRef_injectSynthetic (v : Venue) (s : Side) (tick : ℤ) (q : ℕ) :
    (v.injectSynthetic s tick q).2.nextOrderRef = inc64 v.nextOrderRef :=
  nextOrderRef_processOrder ..

end

end TickToTrade.Sim.Venue
