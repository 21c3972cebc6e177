import Mathlib.Data.List.GetD
import TickToTrade.Sim.VenueCalls

/-!
# What the tape does to a venue

A tape order trades with the clients' orders that it crosses, and a trade of the tape
fills the clients' orders before the traded one. These trades leave all other orders alone
(`Spares`), so that the tape's order is still there when its own turn comes.
-/

namespace TickToTrade.Sim.Venue

open Util

section

variable {exact : Prop} {v w x : Venue} {d d' d'' : Desk ℕ} {s : Side} {o : Resting ℕ} {l : LiveOrder} {ref q : ℕ}

/-! ### Clients' orders trade with the tape -/

/-- What trades of the clients' orders leave alone: the other orders. -/
structure Spares (v : Venue) (d : Desk ℕ) (w : Venue) (d' : Desk ℕ) : Prop where
  live : ∀ ref, ref ≠ 0 → d.owner ref = none → w.live.get? ref = v.live.get? ref
  orders : ∀ s, ∀ o ∈ d.orders s, d.owner o.id = none → o ∈ d'.orders s
  owner : ∀ ref, d.owner ref = none → d'.owner ref = none

namespace Spares

theorem refl (v : Venue) (d : Desk ℕ) : Spares v d v d := ⟨fun _ _ _ => rfl, fun _ _ h _ => h, fun _ h => h⟩

theorem of_tells {msgs : List Sent} (h : Tells v msgs w) (d : Desk ℕ) : Spares v d w d :=
  ⟨fun _ _ _ => by rw [h.live], fun _ _ h _ => h, fun _ h => h⟩

theorem trans (h : Spares v d w d') (h' : Spares w d' x d'') : Spares v d x d'' :=
  ⟨fun ref hne hr => (h'.live ref hne (h.owner ref hr)).trans (h.live ref hne hr),
    fun s o ho hr => h'.orders s o (h.orders s o ho hr) (h.owner o.id hr),
    fun ref hr => h'.owner ref (h.owner ref hr)⟩

end Spares

/-- What a client's order leaves alone when it leaves the tables. -/
theorem get?_dropClient (h : Tables exact v d) (l : LiveOrder) {r : ℕ} (hne : r ≠ ref) (hr : r ≠ 0) :
    (v.dropClient ref l).live.get? r = v.live.get? r := by
  obtain ⟨-, -, hlive, -⟩ := Tables.users_eraseUserRef h.usersWF l.userRef
  obtain ⟨-, hlookup, -⟩ := Tables.live_eraseLive (v := v.eraseUserRef l.userRef) (by rw [hlive]; exact h.liveWF) ref
  rw [hlive] at hlookup
  have hdrop : (v.dropClient ref l).live = ((v.eraseUserRef l.userRef).eraseLive ref).live := rfl
  rw [hdrop, ← FlatHashMap.lookup_eq_get? _ hr, hlookup, Function.update_of_ne hne, FlatHashMap.lookup_eq_get? _ hr]

/-- What `fillClient` tells. -/
def reportFill (v : Venue) (ref qty : ℕ) (l : LiveOrder) : Venue :=
  (v.takeMatch.2.emitItchExecuted ref qty v.nextMatch).emitExecuted l.userRef qty l.tick v.nextMatch

theorem tells_reportFill (v : Venue) (ref qty : ℕ) (l : LiveOrder) :
    Tells v [.marketData ⟨v.stockLocate, .orderExecuted ref qty v.nextMatch⟩,
      .orderEntry (.executed ⟨l.userRef, qty, v.tickToWire l.tick, v.nextMatch⟩)] (v.reportFill ref qty l) :=
  (Tells.takeMatch v).trans ((Tells.sendMd v.takeMatch.2 _).trans (Tells.sendOe _ _))

theorem fillClient_eq (hl : v.live.get? ref = some l) (hq : q ≠ 0) :
    v.fillClient ref q =
      if q ≥ (v.reportFill ref q l).qtyAt l.handle then
        ((v.reportFill ref q l).engineCancel l.handle).2.dropClient ref l
      else ((v.reportFill ref q l).engineReduce l.handle ((v.reportFill ref q l).qtyAt l.handle - q)).2 := by
  unfold fillClient
  rw [hl]
  simp only
  rw [if_neg hq]
  rfl

/-- **A client's resting order trades with the tape.** -/
theorem fillClient_calms (hs : Stands exact v d) (hl : v.live.get? ref = some l) (href : ref ∈ v.clientRefs)
    (hq : 0 < q) (hle : q ≤ v.qtyAt l.handle) :
    ∃ o ∈ d.orders l.side, o.id = ref ∧ d.owner ref = some l.userRef ∧ l.handle = some o.key ∧ l.tick = o.price ∧
      Follows exact v d [.hit l.side o q none (some l.userRef) v.nextMatch] (v.fillClient ref q)
        (d.lose l.side o q) := by
  obtain ⟨l', hl', hclient, hne⟩ := hs.client href
  rw [hl] at hl'
  cases hl'
  rw [← FlatHashMap.lookup_eq_get? _ hne] at hl
  obtain ⟨o, ho, rfl, hhandle, htick, hqty⟩ := hs.order_of_live hl
  have howner := (hs.client_order hl hclient ho).2.2.2
  refine ⟨o, ho, rfl, howner, hhandle, htick, ?_⟩
  rw [hqty] at hle
  rw [FlatHashMap.lookup_eq_get? _ hne] at hl
  have htells := tells_reportFill v o.id q l
  rw [fillClient_eq hl hq.ne', hhandle]
  generalize v.reportFill o.id q l = w at htells ⊢
  have hsw : Stands exact w d := hs.tells htells
  have hcur : w.qtyAt (some o.key) = o.qty := hsw.queued.order_qty ho
  have hdoes : d.Does (.hit l.side o q none (some l.userRef) v.nextMatch) (d.lose l.side o q) :=
    ⟨ho, hq, hle, howner.symm, by simp, rfl⟩
  rw [hcur]
  unfold Desk.lose at hdoes ⊢
  by_cases he : q = o.qty
  · rw [if_pos he] at hdoes ⊢
    rw [if_pos he.ge]
    obtain ⟨b, heq, hb, hrange⟩ := engineCancel_eq hsw ho
    rw [heq]
    have ht : Tables exact { w with engine := b } d := hsw.toTables.congr rfl rfl rfl rfl rfl
    have hlw : w.live.lookup o.id = some l := by rw [htells.live, FlatHashMap.lookup_eq_get? _ hne, hl]
    obtain ⟨hsent, hengine, hsteady⟩ := dropClient_same { w with engine := b } o.id l
    refine ⟨Performs.of_tells htells (ht.dropClient ho hlw hclient) hdoes
      ⟨hsent, (steady_engine w hrange).trans hsteady⟩ ?_ ?_, ?_⟩
    · rw [htick]; rfl
    · rfl
    · rw [hengine]; exact hb
  · rw [if_neg he] at hdoes ⊢
    rw [if_neg (by omega)]
    obtain ⟨b, heq, hb, hrange⟩ := engineReduce_eq hsw ho (q := o.qty - q) (by omega) (by omega)
    rw [heq]
    have ht : Tables exact { w with engine := b } d := hsw.toTables.congr rfl rfl rfl rfl rfl
    refine ⟨Performs.of_tells htells (ht.shrink ho (by omega)) hdoes ⟨rfl, steady_engine w hrange⟩ ?_ ?_, hb⟩
    · rw [htick]; rfl
    · rfl

/-- A client's order that trades leaves the other orders alone. -/
theorem fillClient_spares (hs : Stands exact v d) (hl : v.live.get? ref = some l) (href : ref ∈ v.clientRefs)
    (hq : 0 < q) (ho : o ∈ d.orders s) (hid : o.id = ref) (howner : d.owner ref ≠ none) :
    Spares v d (v.fillClient ref q) (d.lose s o q) where
  live r hr hnone := by
    have hne : r ≠ ref := by rintro rfl; exact howner hnone
    have htells := tells_reportFill v ref q l
    rw [fillClient_eq hl hq.ne']
    generalize v.reportFill ref q l = w at htells ⊢
    obtain ⟨hlive, huser⟩ : w.live = v.live ∧ w.byUserRef.WF := ⟨htells.live, by rw [htells.byUserRef]; exact hs.usersWF⟩
    split_ifs
    · have hs' := hs.tells htells
      cases l.handle with
      | none => exact (get?_dropClient hs'.toTables l hne hr).trans (by rw [hlive])
      | some h =>
          have ht : Tables exact (w.engineCancel (some h)).2 d := hs'.toTables.congr rfl rfl rfl rfl rfl
          exact (get?_dropClient ht l hne hr).trans (by rw [← hlive]; rfl)
    · cases l.handle with
      | none => exact congrArg (FlatHashMap.get? · r) hlive
      | some h => exact congrArg (FlatHashMap.get? · r) hlive
  orders s' x hx hnone := by
    have hk : x.key ≠ o.key := fun hk => by
      rw [(hs.sound.distinct hx ho hk).2, hid] at hnone
      exact howner hnone
    rw [Desk.orders_lose]
    unfold Sides.less
    split_ifs
    · exact (Sides.mem_without hs.sound.distinct ho).mpr ⟨hx, hk⟩
    · exact (Sides.mem_resized hs.sound.distinct ho).mpr (.inl ⟨hx, hk⟩)
  owner r hnone := Desk.owner_lose_of_none hnone s o q

theorem fillClient_moves (hs : Stands exact v d) (hl : v.live.get? ref = some l) (href : ref ∈ v.clientRefs)
    (hq : 0 < q) (hle : q ≤ v.qtyAt l.handle) :
    ∃ d', Calms exact v d (v.fillClient ref q) d' ∧ Spares v d (v.fillClient ref q) d' := by
  obtain ⟨o, ho, hid, howner, -, -, hf⟩ := fillClient_calms hs hl href hq hle
  refine ⟨_, hf.calms ?_ (Desk.incoming_lose ..), fillClient_spares hs hl href hq ho hid (by simp [howner])⟩
  intro x hx
  rw [List.mem_singleton.mp hx]
  trivial

/-- The search of `crossClients` finds a client's order. -/
theorem bestClient_mem (v : Venue) (s : Side) (tick : ℤ) (h : (v.bestClient s tick).1 ≠ 0) :
    (v.bestClient s tick).1 ∈ v.clientRefs ∧
      ∃ l, v.live.get? (v.bestClient s tick).1 = some l ∧ l.handle = (v.bestClient s tick).2.1 := by
  have hall : ∀ (refs : List ℕ) (best : ℕ × Option ℕ × ℤ),
      (best.1 ≠ 0 → best.1 ∈ v.clientRefs ∧ ∃ l, v.live.get? best.1 = some l ∧ l.handle = best.2.1) →
      refs ⊆ v.clientRefs →
      ((refs.foldl (v.betterClient s tick) best).1 ≠ 0 →
        (refs.foldl (v.betterClient s tick) best).1 ∈ v.clientRefs ∧
          ∃ l, v.live.get? (refs.foldl (v.betterClient s tick) best).1 = some l ∧
            l.handle = (refs.foldl (v.betterClient s tick) best).2.1) := by
    intro refs
    induction refs with
    | nil => exact fun best hbest _ => hbest
    | cons ref refs ih =>
        intro best hbest hsub
        refine ih _ ?_ fun r hr => hsub (List.mem_cons_of_mem _ hr)
        unfold betterClient
        cases hl : v.live.get? ref with
        | none => exact hbest
        | some l =>
            simp only
            split_ifs
            · exact hbest
            · exact fun _ => ⟨hsub List.mem_cons_self, l, hl, rfl⟩
            · exact hbest
  exact hall v.clientRefs (0, none, 0) (fun h => absurd rfl h) (fun _ h => h) h

/-- **The loop of `crossClients`.** -/
theorem crossLoop_calms (hs : Stands exact v d) (s : Side) (tick : ℤ) (fuel q : ℕ) :
    ∃ d', Calms exact v d (crossLoop s tick fuel v q).2 d' ∧ Spares v d (crossLoop s tick fuel v q).2 d' := by
  induction fuel generalizing v d q with
  | zero => exact ⟨d, .refl hs, .refl v d⟩
  | succ fuel ih =>
      unfold crossLoop
      simp only
      by_cases hq : q = 0
      · rw [if_pos hq]
        exact ⟨d, .refl hs, .refl v d⟩
      rw [if_neg hq]
      by_cases hbest : (v.bestClient s tick).1 = 0
      · rw [if_pos hbest]
        exact ⟨d, .refl hs, .refl v d⟩
      · rw [if_neg hbest]
        obtain ⟨hmem, l, hl, hhandle⟩ := bestClient_mem v s tick hbest
        rw [← hhandle]
        have hcount := Tells.count v fun m => { m with crossFills := inc64 m.crossFills }
        have hs₁ := hs.tells hcount
        have hpos : 0 < v.qtyAt l.handle := by
          obtain ⟨l', hl', -, hne⟩ := hs.client hmem
          rw [← FlatHashMap.lookup_eq_get? _ hne] at hl
          obtain ⟨o, ho, -, -, -, hqty⟩ := hs.order_of_live hl
          rw [hqty]
          exact hs.sound.pos _ o ho
        generalize hf : (if q < v.qtyAt l.handle then q else v.qtyAt l.handle) = fill
        have hfill : 0 < fill ∧ fill ≤ v.qtyAt l.handle := by
          rw [← hf]; split_ifs <;> omega
        obtain ⟨d₁, hcalms, hspares⟩ := fillClient_moves hs₁ hl hmem hfill.1 hfill.2
        obtain ⟨d', hcalms', hspares'⟩ := ih hcalms.stands (q - fill)
        exact ⟨d', ((Calms.of_count hs hcount).trans hcalms).trans hcalms',
          ((Spares.of_tells hcount d).trans hspares).trans hspares'⟩

/-- **The loop of `shadowFill`.** -/
theorem shadowLoop_calms (hs : Stands exact v d) (s : Side) (tick : ℤ) (realRef fuel i q : ℕ) :
    ∃ d', Calms exact v d (shadowLoop s tick realRef fuel i v q) d' ∧
      Spares v d (shadowLoop s tick realRef fuel i v q) d' := by
  induction fuel generalizing v d i q with
  | zero => exact ⟨d, .refl hs, .refl v d⟩
  | succ fuel ih =>
      unfold shadowLoop
      by_cases hgo : i < v.clientRefs.length ∧ q > 0
      · rw [if_pos hgo]
        have hmem : v.clientRefs.getD i 0 ∈ v.clientRefs := by
          rw [List.getD_eq_getElem _ _ hgo.1]
          exact List.getElem_mem hgo.1
        simp only
        cases hl : v.live.get? (v.clientRefs.getD i 0) with
        | none => exact ih hs (i + 1) q
        | some l =>
            simp only
            by_cases hskip : l.side ≠ s ∨ ¬ v.isAhead s tick realRef (v.clientRefs.getD i 0) l
            · rw [if_pos hskip]
              exact ih hs (i + 1) q
            rw [if_neg hskip]
            have hpos : 0 < v.qtyAt l.handle := by
              obtain ⟨l', hl', -, hne⟩ := hs.client hmem
              rw [← FlatHashMap.lookup_eq_get? _ hne] at hl
              obtain ⟨o, ho, -, -, -, hqty⟩ := hs.order_of_live hl
              rw [hqty]
              exact hs.sound.pos _ o ho
            generalize hf : (if q < v.qtyAt l.handle then q else v.qtyAt l.handle) = fill
            have hfill : 0 < fill ∧ fill ≤ v.qtyAt l.handle := by
              rw [← hf]; split_ifs <;> omega
            have hcount := Tells.count v fun m =>
              { m with shadowFills := inc64 m.shadowFills, shadowShares := (m.shadowShares + fill) % 2 ^ 64 }
            obtain ⟨d₁, hcalms, hspares⟩ := fillClient_moves (hs.tells hcount) hl hmem hfill.1 hfill.2
            obtain ⟨d', hcalms', hspares'⟩ := ih hcalms.stands (if fill < v.qtyAt l.handle then i + 1 else i) (q - fill)
            exact ⟨d', ((Calms.of_count hs hcount).trans hcalms).trans hcalms',
          ((Spares.of_tells hcount d).trans hspares).trans hspares'⟩
      · rw [if_neg hgo]
        exact ⟨d, .refl hs, .refl v d⟩

/-! ### The tape -/

/-- **A tape order leaves.** -/
theorem removeReal_calms (hs : Stands exact v d) (href : ref ≠ 0) (hl : v.live.get? ref = some l)
    (hnone : d.owner ref = none) :
    ∃ o ∈ d.orders l.side, o.id = ref ∧
      Follows exact v d [.leave l.side o none .quiet] (v.removeReal ref l) (d.leave l.side o) := by
  rw [← FlatHashMap.lookup_eq_get? _ href] at hl
  obtain ⟨o, ho, rfl, hhandle, -, -⟩ := hs.order_of_live hl
  obtain ⟨b, heq, hb, hrange⟩ := engineCancel_eq hs ho
  have ht : Tables exact { v with engine := b } d := hs.toTables.congr rfl rfl rfl rfl rfl
  obtain ⟨hsent, hengine, hsteady⟩ := eraseLive_same { v with engine := b } o.id
  refine ⟨o, ho, rfl, ?_⟩
  unfold removeReal
  rw [hhandle, heq]
  refine ⟨Performs.of_tells (Tells.refl v) (ht.eraseLive ho hnone) ⟨ho, hnone.symm, fun _ => rfl, rfl⟩
    ⟨hsent, (steady_engine v hrange).trans hsteady⟩ rfl rfl, ?_⟩
  rw [hengine]
  exact hb

/-- **Shares of a tape order leave.** -/
theorem takeShares_calms (hs : Stands exact v d) (href : ref ≠ 0) (hl : v.live.get? ref = some l)
    (hnone : d.owner ref = none) (shares : ℕ) : ∃ d', Calms exact v d (v.takeShares ref shares l) d' := by
  obtain ⟨o, ho, hid, hhandle, -, hqty⟩ := hs.order_of_live (by rwa [FlatHashMap.lookup_eq_get? _ href])
  unfold takeShares
  simp only [hqty]
  generalize hw : (if shares > o.qty then v.count fun m => { m with overReduce := inc64 m.overReduce } else v) = w
  have htells : Tells v [] w := by
    rw [← hw]
    split_ifs
    · exact Tells.count v _
    · exact Tells.refl v
  have hsw := hs.tells htells
  have hcount : Calms exact v d w d := .of_count hs htells
  split_ifs with hall
  · obtain ⟨o', -, -, hf⟩ := removeReal_calms hsw href (by rw [htells.live]; exact hl) hnone
    exact ⟨_, hcount.trans (hf.calms (by simp [Deed.Calm]) rfl)⟩
  · rw [hhandle]
    by_cases hzero : shares = 0
    · -- nothing is taken
      have hsame : (w.engineReduce (some o.key) (o.qty - shares)).2 = w := by
        simp only [engineReduce, hsw.queued.reduce_of_le ho (show o.qty ≤ o.qty - shares by omega)]
      rw [hsame]
      exact ⟨d, hcount⟩
    · obtain ⟨b, heq, hb, hrange⟩ := engineReduce_eq hsw ho (q := o.qty - shares) (by omega) (by omega)
      rw [heq]
      have ht : Tables exact { w with engine := b } d := hsw.toTables.congr rfl rfl rfl rfl rfl
      have hf : Follows exact w d [.shrink l.side o (o.qty - shares) none] { w with engine := b }
          (d.shrink l.side o (o.qty - shares)) :=
        ⟨Performs.of_tells (Tells.refl w) (ht.shrink ho (by omega))
          ⟨ho, by omega, by omega, by rw [hid, hnone], rfl⟩ ⟨rfl, steady_engine w hrange⟩ rfl rfl, hb⟩
      exact ⟨_, hcount.trans (hf.calms (by simp [Deed.Calm]) rfl)⟩

theorem mirrorExecute_calms (hs : Stands exact v d) (href : ref ≠ 0) (hnone : d.owner ref = none) (shares : ℕ) :
    ∃ d', Calms exact v d (v.mirrorExecute ref shares) d' := by
  have hcount := Tells.count v fun m => { m with executes := inc64 m.executes }
  have hs₁ := hs.tells hcount
  unfold mirrorExecute
  simp only
  generalize v.count _ = w at hcount hs₁ ⊢
  cases hl : w.live.get? ref with
  | none => exact ⟨d, (Calms.of_count hs hcount).trans (.of_count hs₁ (Tells.count w _))⟩
  | some l =>
      simp only
      have hshadow : ∃ d₁ x, (if w.clientRefs ≠ [] then w.shadowFill l.side l.tick ref shares else w) = x ∧
          Calms exact w d x d₁ ∧ Spares w d x d₁ := by
        split_ifs
        · obtain ⟨d₁, hcalms, hspares⟩ := shadowLoop_calms hs₁ l.side l.tick ref w.clientRefs.length 0 shares
          exact ⟨d₁, _, rfl, hcalms, hspares⟩
        · exact ⟨d, w, rfl, .refl hs₁, .refl w d⟩
      obtain ⟨d₁, x, hx, hcalms, hspares⟩ := hshadow
      rw [hx]
      obtain ⟨d', hcalms'⟩ := takeShares_calms hcalms.stands href ((hspares.live ref href hnone).trans hl)
        (hspares.owner ref hnone) shares
      exact ⟨d', ((Calms.of_count hs hcount).trans hcalms).trans hcalms'⟩

theorem mirrorCancel_calms (hs : Stands exact v d) (href : ref ≠ 0) (hnone : d.owner ref = none) (shares : ℕ) :
    ∃ d', Calms exact v d (v.mirrorCancel ref shares) d' := by
  have hcount := Tells.count v fun m => { m with cancels := inc64 m.cancels }
  have hs₁ := hs.tells hcount
  unfold mirrorCancel
  simp only
  generalize v.count _ = w at hcount hs₁ ⊢
  cases hl : w.live.get? ref with
  | none => exact ⟨d, (Calms.of_count hs hcount).trans (.of_count hs₁ (Tells.count w _))⟩
  | some l =>
      obtain ⟨d', hcalms⟩ := takeShares_calms hs₁ href hl hnone shares
      exact ⟨d', (Calms.of_count hs hcount).trans hcalms⟩

theorem mirrorDelete_calms (hs : Stands exact v d) (href : ref ≠ 0) (hnone : d.owner ref = none) :
    ∃ d', Calms exact v d (v.mirrorDelete ref) d' := by
  have hcount := Tells.count v fun m => { m with deletes := inc64 m.deletes }
  have hs₁ := hs.tells hcount
  unfold mirrorDelete
  simp only
  generalize v.count _ = w at hcount hs₁ ⊢
  cases hl : w.live.get? ref with
  | none => exact ⟨d, (Calms.of_count hs hcount).trans (.of_count hs₁ (Tells.count w _))⟩
  | some l =>
      obtain ⟨o, -, -, hf⟩ := removeReal_calms hs₁ href hl hnone
      exact ⟨_, (Calms.of_count hs hcount).trans (hf.calms (by simp [Deed.Calm]) rfl)⟩

/-- **A tape order arrives**: it trades with the clients' orders that it crosses, and what
is left of it rests. -/
theorem mirrorAdd_lands (hs : Stands exact v d) (href : ref ≠ 0) (hnone : d.owner ref = none)
    (hfresh : exact → ∀ s', ∀ x ∈ d.orders s', x.id ≠ ref) (s : Side) (wire q : ℕ) :
    ∃ d', Lands exact v d ref none (v.mirrorAdd ref s wire q) d' := by
  have hcount := Tells.count v fun m => { m with adds := inc64 m.adds }
  have hs₁ := hs.tells hcount
  unfold mirrorAdd
  simp only
  generalize v.count _ = w at hcount hs₁ ⊢
  have hcalms : Calms exact v d w d := .of_count hs hcount
  cases w.validPrice wire with
  | none => exact ⟨d, (hcalms.trans (.of_count hs₁ (Tells.count w _))).lands ref⟩
  | some tick =>
      simp only
      have hcross : ∃ d₁ rem x, (if w.clientRefs ≠ [] then w.crossClients s tick q else (q, w)) = (rem, x) ∧
          Calms exact w d x d₁ ∧ Spares w d x d₁ := by
        split_ifs
        · obtain ⟨d₁, hcalms, hspares⟩ := crossLoop_calms hs₁ s tick (w.clientRefs.length + 1) q
          exact ⟨d₁, _, _, rfl, hcalms, hspares⟩
        · exact ⟨d, q, w, rfl, .refl hs₁, .refl w d⟩
      obtain ⟨d₁, rem, x, hx, hcalms₁, hspares⟩ := hcross
      rw [hx]
      simp only
      have hall := hcalms.trans hcalms₁
      by_cases hrem : rem = 0
      · rw [if_pos hrem]
        exact ⟨d₁, hall.lands ref⟩
      rw [if_neg hrem]
      by_cases hp : x.engine.InRange tick
      · obtain ⟨h, b, heq, hkey, hb, hrange⟩ := hall.stands.queued.place ref s hrem hp
        rw [heq]
        have ht : Tables exact { x with engine := b } d₁ := hall.stands.toTables.congr rfl rfl rfl rfl rfl
        have hnone₁ := hspares.owner ref hnone
        have hfresh₁ : exact → ∀ s', ∀ y ∈ d₁.orders s', y.id ≠ ref := by
          intro he s' y hy
          obtain ⟨xs, hf, hxs, -⟩ := hall
          obtain ⟨y₀, hy₀, hid⟩ | ⟨c, hc⟩ := hf.does.mem hs.sound hy
          · rw [← hid]; exact hfresh he s' y₀ hy₀
          · rw [Desk.arrivals_calm hxs] at hc; cases hc
        have hpos : 0 < rem := Nat.pos_of_ne_zero hrem
        have hf : Follows exact x d₁ [.rest s ⟨h, ref, tick, rem⟩ none .quiet]
            (setLive { x with engine := b } ref ⟨some h, s, tick, false, 0⟩)
            (d₁.rest s ⟨h, ref, tick, rem⟩ none) := by
          refine ⟨Performs.of_tells (Tells.refl x)
            (ht.setLive (o := ⟨h, ref, tick, rem⟩) href hpos hkey hnone₁ hfresh₁)
            ⟨hpos, hkey, hnone₁, by simp, rfl⟩ ⟨rfl, ⟨rfl, rfl, rfl, rfl, rfl, hrange.1, hrange.2⟩⟩ rfl rfl, ?_⟩
          rw [Desk.orders_rest]
          exact hb
        exact ⟨_, hall.trans_lands ⟨_, hf, rfl, by simp [Desk.arrivals, Deed.arrival?], rfl⟩⟩
      · unfold OrderBook.place
        rw [if_pos (.inr hp)]
        exact ⟨d₁, hall.lands ref⟩

theorem mirrorReplace_lands (hs : Stands exact v d) {orig : ℕ} (horig : orig ≠ 0) (horigNone : d.owner orig = none)
    (href : ref ≠ 0) (hnone : d.owner ref = none) (hfresh : exact → ∀ s', ∀ x ∈ d.orders s', x.id ≠ ref)
    (shares wire : ℕ) : ∃ d', Lands exact v d ref none (v.mirrorReplace orig ref shares wire) d' := by
  have hcount := Tells.count v fun m => { m with replaces := inc64 m.replaces }
  have hs₁ := hs.tells hcount
  unfold mirrorReplace
  simp only
  generalize v.count _ = w at hcount hs₁ ⊢
  have hcalms : Calms exact v d w d := .of_count hs hcount
  cases hl : w.live.get? orig with
  | none => exact ⟨d, (hcalms.trans (.of_count hs₁ (Tells.count w _))).lands ref⟩
  | some l =>
      obtain ⟨o, ho, -, hf⟩ := removeReal_calms hs₁ horig hl horigNone
      have hleft : Calms exact w d (w.removeReal orig l) (d.leave l.side o) := hf.calms (by simp [Deed.Calm]) rfl
      have hcount₂ := Tells.count (w.removeReal orig l) fun m => { m with adds := dec64 m.adds }
      have hall := (hcalms.trans hleft).trans (.of_count hleft.stands hcount₂)
      have hnone' : (d.leave l.side o).owner ref = none := by
        unfold Desk.leave
        by_cases hr : ref = o.id
        · simp [hr]
        · simpa [hr] using hnone
      obtain ⟨d', hlands⟩ := mirrorAdd_lands hall.stands href hnone'
        (fun he s' x hx => hfresh he s' x ((Sides.mem_without hs.sound.distinct ho).mp hx).1) l.side wire shares
      exact ⟨d', hall.trans_lands hlands⟩

/-! ### The end of a day and synthetic orders -/

theorem length_dropRef {refs : List ℕ} (h : ref ∈ refs) : (dropRef refs ref).length + 1 = refs.length := by
  obtain ⟨pre, post, rfl, hperm⟩ := dropRef_perm h
  rw [hperm.length_eq]
  simp
  omega

theorem clientRefs_dropClient (v : Venue) (ref : ℕ) (l : LiveOrder) :
    (v.dropClient ref l).clientRefs = dropRef v.clientRefs ref := by
  unfold dropClient eraseLive eraseUserRef
  cases v.byUserRef.erase l.userRef <;> simp only <;> cases v.live.erase ref <;> rfl

/-- **The loop of `resetDay` cancels all orders of the clients.** -/
theorem closeClients_calms (hs : Stands exact v d) (fuel : ℕ) (hfuel : v.clientRefs.length ≤ fuel) :
    ∃ d', Calms exact v d (closeClients fuel v) d' ∧ (closeClients fuel v).clientRefs = [] := by
  induction fuel generalizing v d with
  | zero => exact ⟨d, .refl hs, List.eq_nil_of_length_eq_zero (Nat.le_zero.mp hfuel)⟩
  | succ fuel ih =>
      unfold closeClients
      cases hlast : v.clientRefs.getLast? with
      | none => exact ⟨d, .refl hs, List.getLast?_eq_none_iff.mp hlast⟩
      | some ref =>
          have hmem := List.mem_of_getLast? hlast
          obtain ⟨l, hl, hclient, href⟩ := hs.client hmem
          simp only [hl]
          obtain ⟨o, -, -, hf⟩ := cancelClient_follows hs hl hclient href .closed
          have hlen : ((((v.engineCancel l.handle).2.emitItchDelete ref).emitCanceled l.userRef
              (v.engineCancel l.handle).1 .closed).dropClient ref l).clientRefs.length ≤ fuel := by
            rw [clientRefs_dropClient]
            have hsame : (((v.engineCancel l.handle).2.emitItchDelete ref).emitCanceled l.userRef
                (v.engineCancel l.handle).1 .closed).clientRefs = v.clientRefs := by
              cases l.handle <;> rfl
            rw [hsame]
            have := length_dropRef hmem
            omega
          obtain ⟨d', hcalms, hnil⟩ := ih hf.stands hlen
          exact ⟨d', (hf.calms (by simp [Deed.Calm]) rfl).trans hcalms, hnil⟩

theorem resetDay_calms (hs : Stands exact v d) : ∃ d', Calms exact v d v.resetDay d' := by
  obtain ⟨d', hcalms, hnil⟩ := closeClients_calms hs v.clientRefs.length (Nat.le_refl _)
  unfold resetDay
  simp only
  generalize closeClients v.clientRefs.length v = w at hcalms hnil
  have hs' := hcalms.stands
  have hnone : ∀ ref, d'.owner ref = none := by
    intro ref
    cases hu : d'.owner ref with
    | none => rfl
    | some u =>
        have hmem := (hs'.clients ref).mpr (by simp [hu])
        rw [hnil] at hmem
        cases hmem
  have hf : Follows exact w d' [.clear]
      { w with engine := w.engine.clear, live := w.live.clear, byUserRef := w.byUserRef.clear }
      { d' with orders := fun _ => [] } :=
    ⟨Performs.of_tells (Tells.refl w) (hs'.toTables.clear hnone) ⟨hnone, rfl⟩
      ⟨rfl, ⟨rfl, rfl, rfl, rfl, rfl, rfl, rfl⟩⟩ rfl rfl, OrderBook.queued_new ..⟩
  exact ⟨_, hcalms.trans (hf.calms (by simp [Deed.Calm]) rfl)⟩

/-- **A synthetic order is cancelled.** -/
theorem cancelSynthetic_calms (hs : Stands exact v d) (hnone : d.owner ref = none) :
    ∃ d', Calms exact v d (v.cancelSynthetic ref) d' := by
  unfold cancelSynthetic
  obtain ⟨herase, -⟩ | ⟨l, m, herase, hl, hwf, hlookup⟩ := hs.liveWF.lookup_erase ref
  · rw [herase]
    exact ⟨d, .refl hs⟩
  · rw [herase]
    simp only
    obtain ⟨o, ho, rfl, hhandle, -, -⟩ := hs.order_of_live hl
    obtain ⟨b, heq, hb, hrange⟩ := hs.queued.cancel ho
    have hsame : v.eraseLive o.id = { v with live := m } := by
      unfold eraseLive
      rw [herase]
    have ht := hs.toTables.eraseLive ho hnone
    rw [hsame] at ht
    simp only [hhandle, engineCancel, heq]
    have htells : Tells v [.marketData ⟨v.stockLocate, .orderDelete o.id⟩] (v.emitItchDelete o.id) := Tells.sendMd v _
    have hf : Follows exact v d [.leave l.side o none .deleted] (emitItchDelete { v with live := m, engine := b } o.id)
        (d.leave l.side o) := ⟨Performs.of_tells htells
      (ht.congr rfl rfl rfl rfl rfl) ⟨ho, hnone.symm, fun _ => rfl, rfl⟩
      ⟨rfl, ⟨rfl, rfl, rfl, rfl, rfl, hrange.1, hrange.2⟩⟩ rfl rfl, hb⟩
    exact ⟨_, hf.calms (by simp [Deed.Calm]) rfl⟩

end

end TickToTrade.Sim.Venue
