import TickToTrade.Sim.VenueRequests

/-!
# What the calls of a venue are made of

A call sends, counts, takes the next match number, changes the engine and takes entries out
of the tables, again and again; only a new order puts some in. So a relation between venues
that is kept by each of these is kept by the functions that the calls share (`Stepwise`).
-/

namespace TickToTrade.Sim.Venue

/-- A preorder on venues that holds from before to after every change but a new entry. -/
structure Stepwise (R : Venue → Venue → Prop) : Prop where
  refl : ∀ v, R v v
  trans : ∀ {v w x}, R v w → R w x → R v x
  sends : ∀ v m, R v { v with sent := v.sent ++ [m] }
  counts : ∀ v f, R v (v.count f)
  takeMatch : ∀ v, R v v.takeMatch.2
  engine : ∀ v b, R v { v with engine := b }
  eraseLive : ∀ v ref, R v (v.eraseLive ref)
  eraseUserRef : ∀ v user, R v (v.eraseUserRef user)
  clientRefs : ∀ v refs, R v { v with clientRefs := refs }

namespace Stepwise

variable {R : Venue → Venue → Prop} (hR : Stepwise R)

include hR

theorem dropClient (v : Venue) (ref : ℕ) (l : LiveOrder) : R v (v.dropClient ref l) :=
  hR.trans (hR.trans (hR.eraseUserRef v l.userRef) (hR.eraseLive _ ref)) (hR.clientRefs _ _)

theorem engineCancel (v : Venue) (h : Option ℕ) : R v (v.engineCancel h).2 := by
  cases h with
  | none => exact hR.refl v
  | some h => exact hR.engine v _

theorem engineReduce (v : Venue) (h : Option ℕ) (q : ℕ) : R v (v.engineReduce h q).2 := by
  cases h with
  | none => exact hR.refl v
  | some h => exact hR.engine v _

theorem removeReal (v : Venue) (ref : ℕ) (l : LiveOrder) : R v (v.removeReal ref l) :=
  hR.trans (hR.engineCancel v l.handle) (hR.eraseLive _ ref)

/-! ### Trades -/

theorem reportTrade (client : Bool) (user : ℕ) (v : Venue) (t : Trade) : R v (reportTrade client user v t) := by
  have hexecuted : ∀ w : Venue, ∀ u, R w (w.emitExecuted u t.qty t.price v.nextMatch) := fun w u => hR.sends w _
  have hstart : R v (v.takeMatch.2.emitItchExecuted t.restingId t.qty v.nextMatch) :=
    hR.trans (hR.takeMatch v) (hR.sends _ _)
  unfold Venue.reportTrade
  simp only
  generalize v.takeMatch.2.emitItchExecuted t.restingId t.qty v.nextMatch = w at hstart ⊢
  have hagg : R v (if client then w.emitExecuted user t.qty t.price v.nextMatch else w) := by
    split_ifs
    · exact hR.trans hstart (hexecuted w user)
    · exact hstart
  generalize (if client then w.emitExecuted user t.qty t.price v.nextMatch else w) = x at hagg ⊢
  cases v.live.get? t.restingId with
  | none => exact hagg
  | some l =>
      simp only
      split_ifs
      · exact hR.trans hagg (hR.trans (hexecuted x l.userRef) (hR.counts _ _))
      · exact hR.trans hagg (hexecuted x l.userRef)
      · exact hR.trans hagg (hR.counts x _)
      · exact hagg

theorem settleTrade (v : Venue) (t : Trade) : R v (v.settleTrade t) := by
  unfold Venue.settleTrade
  cases v.live.get? t.restingId with
  | none => exact hR.refl v
  | some l =>
      simp only
      split_ifs
      · exact hR.dropClient ..
      · exact hR.eraseLive ..
      · exact hR.refl v

/-- The engine trades. -/
theorem trades (client : Bool) (user : ℕ) (ts : List Trade) (v : Venue) : R v (ts.foldl (handleTrade client user) v) := by
  induction ts generalizing v with
  | nil => exact hR.refl v
  | cons t ts ih =>
      refine hR.trans ?_ (ih _)
      rw [handleTrade_eq]
      exact hR.trans (hR.reportTrade client user v t) (hR.settleTrade _ t)

theorem processImmediate (v : Venue) (ref : ℕ) (s : Side) (tick : ℤ) (q user : ℕ) :
    R v (v.processImmediate ref s tick q user) := by
  have htrades := hR.trans (hR.engine v (v.engine.match ref s tick q).1)
    (hR.trades true user (v.engine.match ref s tick q).2.2 _)
  unfold Venue.processImmediate
  simp only
  split_ifs
  · exact hR.trans htrades (hR.sends _ _)
  · exact htrades

/-! ### The tape trades with clients -/

theorem fillClient (v : Venue) (ref q : ℕ) : R v (v.fillClient ref q) := by
  unfold Venue.fillClient
  cases v.live.get? ref with
  | none => exact hR.refl v
  | some l =>
      simp only
      have htold : R v ((v.takeMatch.2.emitItchExecuted ref q v.takeMatch.1).emitExecuted l.userRef q l.tick v.takeMatch.1) :=
        hR.trans (hR.takeMatch v) (hR.trans (hR.sends _ _) (hR.sends _ _))
      generalize (v.takeMatch.2.emitItchExecuted ref q v.takeMatch.1).emitExecuted l.userRef q l.tick v.takeMatch.1 = w at htold ⊢
      split_ifs
      · exact hR.refl v
      · exact hR.trans htold (hR.trans (hR.engineCancel w l.handle) (hR.dropClient _ ref l))
      · exact hR.trans htold (hR.engineReduce w l.handle _)

theorem crossLoop (s : Side) (tick : ℤ) (fuel : ℕ) (v : Venue) (q : ℕ) : R v (Venue.crossLoop s tick fuel v q).2 := by
  induction fuel generalizing v q with
  | zero => exact hR.refl v
  | succ fuel ih =>
      unfold Venue.crossLoop
      simp only
      split_ifs
      · exact hR.refl v
      · exact hR.refl v
      all_goals exact hR.trans (hR.trans (hR.counts v _) (hR.fillClient _ _ _)) (ih _ _)

theorem shadowLoop (s : Side) (tick : ℤ) (realRef fuel i : ℕ) (v : Venue) (q : ℕ) :
    R v (Venue.shadowLoop s tick realRef fuel i v q) := by
  induction fuel generalizing v i q with
  | zero => exact hR.refl v
  | succ fuel ih =>
      unfold Venue.shadowLoop
      simp only
      by_cases hgo : i < v.clientRefs.length ∧ q > 0
      · rw [if_pos hgo]
        cases v.live.get? (v.clientRefs.getD i 0) with
        | none => exact ih ..
        | some l =>
            simp only
            by_cases hskip : l.side ≠ s ∨ ¬ v.isAhead s tick realRef (v.clientRefs.getD i 0) l
            · rw [if_pos hskip]
              exact ih ..
            · rw [if_neg hskip]
              exact hR.trans (hR.trans (hR.counts v _) (hR.fillClient _ _ _)) (ih _ _ _)
      · rw [if_neg hgo]
        exact hR.refl v

theorem takeShares (v : Venue) (ref q : ℕ) (l : LiveOrder) : R v (v.takeShares ref q l) := by
  unfold Venue.takeShares
  simp only
  have hcount : R v (if q > v.qtyAt l.handle then v.count fun m => { m with overReduce := inc64 m.overReduce } else v) := by
    split_ifs
    · exact hR.counts v _
    · exact hR.refl v
  generalize (if q > v.qtyAt l.handle then v.count fun m => { m with overReduce := inc64 m.overReduce } else v) = w at hcount ⊢
  split_ifs
  · exact hR.trans hcount (hR.removeReal w ref l)
  · exact hR.trans hcount (hR.engineReduce w l.handle _)

/-! ### The tape's own orders -/

/-- A message of the tape about an order that the table has, or has not. -/
theorem known (v : Venue) (f : MirrorStats → MirrorStats) (ref : ℕ) (g : Venue → LiveOrder → Venue)
    (hg : ∀ w l, R w (g w l)) :
    R v (match (v.count f).live.get? ref with
      | none => (v.count f).count fun m => { m with unknownRef := inc64 m.unknownRef }
      | some l => g (v.count f) l) := by
  refine hR.trans (hR.counts v f) ?_
  cases (v.count f).live.get? ref with
  | none => exact hR.counts _ _
  | some l => exact hg _ l

theorem mirrorExecute (v : Venue) (ref shares : ℕ) : R v (v.mirrorExecute ref shares) := by
  refine hR.known v (fun m => { m with executes := inc64 m.executes }) ref (fun w l =>
    (if w.clientRefs ≠ [] then w.shadowFill l.side l.tick ref shares else w).takeShares ref shares l) fun w l => ?_
  refine hR.trans ?_ (hR.takeShares _ ref shares l)
  split_ifs
  · exact hR.shadowLoop ..
  · exact hR.refl w

theorem mirrorCancel (v : Venue) (ref shares : ℕ) : R v (v.mirrorCancel ref shares) :=
  hR.known v (fun m => { m with cancels := inc64 m.cancels }) ref _ fun w l => hR.takeShares w ref shares l

theorem mirrorDelete (v : Venue) (ref : ℕ) : R v (v.mirrorDelete ref) :=
  hR.known v (fun m => { m with deletes := inc64 m.deletes }) ref _ fun w l => hR.removeReal w ref l

/-- A new order of the tape trades with clients and rests: with what is left of it. -/
theorem mirrorAdd (v : Venue) (ref : ℕ) (s : Side) (wire q : ℕ) :
    ∃ w, R v w ∧ (v.mirrorAdd ref s wire q = w ∨ ∃ l, v.mirrorAdd ref s wire q = w.setLive ref l) := by
  have hcount := hR.counts v fun m => { m with adds := inc64 m.adds }
  unfold Venue.mirrorAdd
  simp only
  generalize (v.count fun m => { m with adds := inc64 m.adds }) = w at hcount ⊢
  cases w.validPrice wire with
  | none => exact ⟨_, hR.trans hcount (hR.counts w _), .inl rfl⟩
  | some tick =>
      simp only
      have hcross : R v (if w.clientRefs ≠ [] then w.crossClients s tick q else (q, w)).2 := by
        refine hR.trans hcount ?_
        split_ifs
        · exact hR.crossLoop ..
        · exact hR.refl w
      generalize (if w.clientRefs ≠ [] then w.crossClients s tick q else (q, w)) = x at hcross ⊢
      split_ifs
      · exact ⟨_, hcross, .inl rfl⟩
      · have hplace := hR.trans hcross (hR.engine x.2 (x.2.engine.place ref s tick x.1).2)
        generalize x.2.engine.place ref s tick x.1 = placed at hplace ⊢
        obtain ⟨k, b⟩ := placed
        cases k with
        | none => exact ⟨_, hplace, .inl rfl⟩
        | some k => exact ⟨_, hplace, .inr ⟨_, rfl⟩⟩

theorem mirrorReplace (v : Venue) (orig ref shares wire : ℕ) :
    ∃ w, R v w ∧ (v.mirrorReplace orig ref shares wire = w ∨ ∃ l, v.mirrorReplace orig ref shares wire = w.setLive ref l) := by
  have hcount := hR.counts v fun m => { m with replaces := inc64 m.replaces }
  unfold Venue.mirrorReplace
  simp only
  generalize (v.count fun m => { m with replaces := inc64 m.replaces }) = w at hcount ⊢
  cases w.live.get? orig with
  | none => exact ⟨_, hR.trans hcount (hR.counts w _), .inl rfl⟩
  | some l =>
      have hremove := hR.trans hcount (hR.trans (hR.removeReal w orig l) (hR.counts _ fun m => { m with adds := dec64 m.adds }))
      obtain ⟨x, hx, hadd⟩ := hR.mirrorAdd ((w.removeReal orig l).count fun m => { m with adds := dec64 m.adds }) ref l.side
        wire shares
      exact ⟨x, hR.trans hremove hx, hadd⟩

/-! ### Orders leave -/

theorem cancelSynthetic (v : Venue) (ref : ℕ) : R v (v.cancelSynthetic ref) := by
  have herase := hR.eraseLive v ref
  unfold Venue.eraseLive at herase
  unfold Venue.cancelSynthetic
  cases hlive : v.live.erase ref with
  | none => exact hR.refl v
  | some e =>
      rw [hlive] at herase
      exact hR.trans (hR.trans herase (hR.engineCancel _ e.1.handle)) (hR.sends _ _)

theorem closeClients (fuel : ℕ) (v : Venue) : R v (Venue.closeClients fuel v) := by
  induction fuel generalizing v with
  | zero => exact hR.refl v
  | succ fuel ih =>
      unfold Venue.closeClients
      cases v.clientRefs.getLast? with
      | none => exact hR.refl v
      | some ref =>
          simp only
          cases v.live.get? ref with
          | none => exact hR.trans (hR.clientRefs v _) (ih _)
          | some l =>
              refine hR.trans (hR.trans ?_ (hR.dropClient _ ref l)) (ih _)
              exact hR.trans (hR.engineCancel v l.handle) (hR.trans (hR.sends _ _) (hR.sends _ _))

end Stepwise

/-- A preorder on venues that holds from before to after every change, where new orders come
in from the clients `users` alone. -/
structure Everywhere (users : Set ℕ) (R : Venue → Venue → Prop) : Prop extends Stepwise R where
  setLive : ∀ v ref l, R v (v.setLive ref l)
  setUserRef : ∀ v, ∀ user ∈ users, ∀ ref, R v { v with byUserRef := v.byUserRef.insertOrAssign user ref }
  takeRef : ∀ v, R v v.takeRef.2
  clear : ∀ v, R v { v with engine := v.engine.clear, live := v.live.clear, byUserRef := v.byUserRef.clear }

namespace Everywhere

variable {users : Set ℕ} {R : Venue → Venue → Prop} (hR : Everywhere users R)

include hR

theorem trackClient (v : Venue) (ref : ℕ) (h : Option ℕ) (s : Side) (tick : ℤ) {user : ℕ} (hu : user ∈ users) :
    R v (v.trackClient ref h s tick user) :=
  hR.trans (hR.setLive v ref _) (hR.trans (hR.setUserRef _ user hu ref) (hR.clientRefs _ _))

/-! ### New orders -/

theorem processOrder (v : Venue) (ref : ℕ) (s : Side) (tick : ℤ) (q : ℕ) (client : Bool) {user : ℕ}
    (hu : client = true → user ∈ users) : R v (v.processOrder ref s tick q client user) := by
  have htrades := hR.trans (hR.engine v (v.engine.add ref s tick q).2.1)
    (hR.trades client user (v.engine.add ref s tick q).2.2 _)
  unfold Venue.processOrder
  simp only
  generalize (v.engine.add ref s tick q).2.2.foldl (handleTrade client user)
    { v with engine := (v.engine.add ref s tick q).2.1 } = w at htrades ⊢
  cases (v.engine.add ref s tick q).1 with
  | none => exact htrades
  | some h =>
      have hadd : R v (w.emitItchAdd ref s tick (w.engine.order h).qty) := hR.trans htrades (hR.sends w _)
      cases client
      · exact hR.trans hadd (hR.setLive _ ref _)
      · exact hR.trans hadd (hR.trackClient _ ref (some h) s tick (hu rfl))

theorem arriveReplaced (v : Venue) (origRef ref : ℕ) (s : Side) (tick : ℤ) (q : ℕ) {user : ℕ} (hu : user ∈ users) :
    R v (v.arriveReplaced origRef ref s tick q user) := by
  unfold Venue.arriveReplaced
  split_ifs
  · exact hR.trans (hR.sends v _) (hR.processOrder _ ref s tick q true fun _ => hu)
  · have hadd : R v (emitItchReplace { v with engine := (v.engine.add ref s tick q).2.1 } origRef ref q tick) :=
      hR.trans (hR.engine v _) (hR.sends _ _)
    simp only
    cases (v.engine.add ref s tick q).1 with
    | none => exact hadd
    | some h => exact hR.trans hadd (hR.trackClient _ ref (some h) s tick hu)

theorem onEnterOrder (v : Venue) (m : Ouch.EnterOrder) (hu : m.userRefNum ∈ users) : R v (v.onEnterOrder m) := by
  have htaken : ∀ st, R v (v.takeRef.2.emitAccepted m v.nextOrderRef st) := fun st =>
    hR.trans (hR.takeRef v) (hR.sends _ _)
  unfold Venue.onEnterOrder
  simp only
  cases parseSide m.side with
  | none => exact hR.sends v _
  | some s =>
      simp only
      by_cases hq : m.quantity = 0
      · rw [if_pos hq]
        exact hR.sends v _
      rw [if_neg hq]
      by_cases hsymbol : m.symbol ≠ v.symbol
      · rw [if_pos hsymbol]
        exact hR.sends v _
      rw [if_neg hsymbol]
      cases v.validPrice m.price with
      | none => exact hR.sends v _
      | some tick =>
          simp only
          split_ifs
          · exact hR.trans (htaken .dead) (hR.processImmediate _ v.nextOrderRef s tick m.quantity m.userRefNum)
          · exact hR.trans (htaken .live) (hR.processOrder _ v.nextOrderRef s tick m.quantity true fun _ => hu)

theorem onCancelOrder (v : Venue) (m : Ouch.CancelOrder) : R v (v.onCancelOrder m) := by
  unfold Venue.onCancelOrder
  simp only
  cases v.byUserRef.get? m.userRefNum with
  | none => exact hR.sends v _
  | some ref =>
      simp only
      cases v.live.get? ref with
      | none => exact hR.sends v _
      | some l =>
          simp only
          split_ifs
          · exact hR.sends v _
          · refine hR.trans ?_ (hR.dropClient _ ref l)
            exact hR.trans (hR.engineCancel v l.handle) (hR.trans (hR.sends _ _) (hR.sends _ _))
          · exact hR.trans (hR.engineReduce v l.handle m.quantity) (hR.trans (hR.sends _ _) (hR.sends _ _))

theorem onReplaceOrder (v : Venue) (m : Ouch.ReplaceOrder) (hu : m.userRefNum ∈ users) :
    R v (v.onReplaceOrder m) := by
  unfold Venue.onReplaceOrder
  simp only
  cases v.byUserRef.get? m.origUserRefNum with
  | none => exact hR.sends v _
  | some origRef =>
      simp only
      cases v.live.get? origRef with
      | none => exact hR.sends v _
      | some l =>
          simp only
          by_cases hq : m.quantity = 0
          · rw [if_pos hq]
            exact hR.sends v _
          rw [if_neg hq]
          cases v.validPrice m.price with
          | none => exact hR.sends v _
          | some tick =>
              have hgone := hR.trans (hR.engineCancel v l.handle) (hR.dropClient _ origRef l)
              simp only
              generalize (v.engineCancel l.handle).2.dropClient origRef l = w at hgone ⊢
              have hreplaced : R v (w.takeRef.2.emitReplaced m w.nextOrderRef l.side) :=
                hR.trans hgone (hR.trans (hR.takeRef w) (hR.sends _ _))
              exact hR.trans hreplaced (hR.arriveReplaced _ origRef w.nextOrderRef l.side tick m.quantity hu)

theorem injectSynthetic (v : Venue) (s : Side) (tick : ℤ) (q : ℕ) : R v (v.injectSynthetic s tick q).2 :=
  hR.trans (hR.takeRef v) (hR.processOrder _ v.nextOrderRef s tick q false fun h => nomatch h)

theorem resetDay (v : Venue) : R v v.resetDay := hR.trans (hR.closeClients v.clientRefs.length v) (hR.clear _)

/-- What is kept when a new order of the tape may come in. -/
theorem of_setLive {v w : Venue} {ref : ℕ} (h : ∃ x, R v x ∧ (w = x ∨ ∃ l, w = x.setLive ref l)) : R v w := by
  obtain ⟨x, hx, rfl | ⟨l, rfl⟩⟩ := h
  · exact hx
  · exact hR.trans hx (hR.setLive x ref l)

end Everywhere

end TickToTrade.Sim.Venue
