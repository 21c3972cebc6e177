import TickToTrade.Lob.LevelRoom
import TickToTrade.Sim.VenueRuns

/-!
# The best prices of a venue

Whatever a venue admits, its engine's best prices are the best ones at which an order
rests, and no level with orders looks empty, in every run in which the levels have room
for the shares of their orders. Nothing is asked of the references: the calls may give the
engine any handle.
-/

namespace TickToTrade.Sim.Venue

open OrderBook

variable {v w : Venue} {s : Side} {l : LiveOrder} {ref q : ℕ} {tick : ℤ}

/-! ### What leaves the engine alone -/

theorem engine_count (v : Venue) (f : MirrorStats → MirrorStats) : (v.count f).engine = v.engine := rfl

theorem engine_eraseLive (v : Venue) (ref : ℕ) : (v.eraseLive ref).engine = v.engine := by
  unfold eraseLive
  cases v.live.erase ref <;> rfl

theorem engine_dropClient (v : Venue) (ref : ℕ) (l : LiveOrder) : (v.dropClient ref l).engine = v.engine := by
  refine (engine_eraseLive (v.eraseUserRef l.userRef) ref).trans ?_
  unfold eraseUserRef
  cases v.byUserRef.erase l.userRef <;> rfl

theorem engine_trades (client : Bool) (user : ℕ) (ts : List Trade) (v : Venue) :
    (ts.foldl (handleTrade client user) v).engine = v.engine := by
  induction ts generalizing v with
  | nil => rfl
  | cons t ts ih => exact (ih _).trans (handleTrade_engine ..)

/-! ### Orders leave and lose shares -/

theorem upright_engineCancel (h : Upright v.engine) (k : Option ℕ) : Upright (v.engineCancel k).2.engine := by
  cases k with
  | none => exact h
  | some k => exact h.cancel k

theorem upright_engineReduce (h : Upright v.engine) (k : Option ℕ) (q : ℕ) : Upright (v.engineReduce k q).2.engine := by
  cases k with
  | none => exact h
  | some k => exact h.reduce k q

theorem upright_removeReal (h : Upright v.engine) (ref : ℕ) (l : LiveOrder) : Upright (v.removeReal ref l).engine := by
  rw [removeReal, engine_eraseLive]
  exact upright_engineCancel h l.handle

theorem upright_fillClient (h : Upright v.engine) (ref q : ℕ) : Upright (v.fillClient ref q).engine := by
  unfold fillClient
  cases v.live.get? ref with
  | none => exact h
  | some l =>
      have htold : Upright ((v.takeMatch.2.emitItchExecuted ref q v.takeMatch.1).emitExecuted l.userRef q l.tick v.takeMatch.1).engine := h
      simp only
      generalize (v.takeMatch.2.emitItchExecuted ref q v.takeMatch.1).emitExecuted l.userRef q l.tick v.takeMatch.1 = w at htold ⊢
      split_ifs
      · exact h
      · rw [engine_dropClient]
        exact upright_engineCancel htold l.handle
      · exact upright_engineReduce htold l.handle _

theorem upright_crossLoop (h : Upright v.engine) (s : Side) (tick : ℤ) (fuel q : ℕ) :
    Upright (crossLoop s tick fuel v q).2.engine := by
  induction fuel generalizing v q with
  | zero => exact h
  | succ fuel ih =>
      rw [crossLoop]
      split_ifs
      · exact h
      · simp only
        split_ifs
        · exact h
        all_goals exact ih (upright_fillClient (v := v.count _) h _ _) _

theorem upright_shadowLoop (h : Upright v.engine) (s : Side) (tick : ℤ) (realRef fuel i q : ℕ) :
    Upright (shadowLoop s tick realRef fuel i v q).engine := by
  induction fuel generalizing v i q with
  | zero => exact h
  | succ fuel ih =>
      rw [shadowLoop]
      split_ifs
      · simp only
        cases v.live.get? (v.clientRefs.getD i 0) with
        | none => exact ih h _ _
        | some l =>
            simp only
            split_ifs
            · exact ih h _ _
            all_goals exact ih (upright_fillClient (v := v.count _) h _ _) _ _
      · exact h

theorem upright_takeShares (h : Upright v.engine) (ref q : ℕ) (l : LiveOrder) : Upright (v.takeShares ref q l).engine := by
  unfold takeShares
  simp only
  generalize hw : (if q > v.qtyAt l.handle then v.count fun m => { m with overReduce := inc64 m.overReduce } else v) = w
  have hup : Upright w.engine := by
    rw [← hw]
    split_ifs <;> exact h
  split_ifs
  · exact upright_removeReal hup ref l
  · exact upright_engineReduce hup l.handle _

theorem upright_closeClients (h : Upright v.engine) (fuel : ℕ) : Upright (closeClients fuel v).engine := by
  induction fuel generalizing v with
  | zero => exact h
  | succ fuel ih =>
      rw [closeClients]
      cases v.clientRefs.getLast? with
      | none => exact h
      | some ref =>
          simp only
          cases v.live.get? ref with
          | none => exact ih h
          | some l =>
              refine ih ?_
              rw [engine_dropClient]
              exact upright_engineCancel h l.handle

/-! ### Orders arrive -/

theorem upright_processOrder (h : Upright v.engine) (ref : ℕ) (s : Side) (tick : ℤ) (q : ℕ) (client : Bool) (user : ℕ)
    (hroomy : Roomy (v.processOrder ref s tick q client user).engine) :
    Upright (v.processOrder ref s tick q client user).engine := by
  have hengine : (v.processOrder ref s tick q client user).engine = (v.engine.add ref s tick q).2.1 := by
    unfold processOrder
    simp only
    cases (v.engine.add ref s tick q).1 with
    | none => exact engine_trades ..
    | some k =>
        simp only
        split_ifs <;> exact engine_trades client user _ _
  rw [hengine] at hroomy ⊢
  exact h.add ref s tick q hroomy

theorem upright_processImmediate (h : Upright v.engine) (ref : ℕ) (s : Side) (tick : ℤ) (q user : ℕ) :
    Upright (v.processImmediate ref s tick q user).engine := by
  have hengine : (v.processImmediate ref s tick q user).engine = (v.engine.match ref s tick q).1 := by
    unfold processImmediate
    simp only
    split_ifs <;> exact engine_trades true user _ _
  rw [hengine]
  exact (h.match ref s tick q).1

/-- The end of `mirrorAdd`: what is left of an order of the tape rests. -/
theorem upright_mirrorAdd (h : Upright v.engine) (ref : ℕ) (s : Side) (wire q : ℕ)
    (hroomy : Roomy (v.mirrorAdd ref s wire q).engine) : Upright (v.mirrorAdd ref s wire q).engine := by
  unfold mirrorAdd at hroomy ⊢
  simp only at hroomy ⊢
  generalize hw : (v.count fun m => { m with adds := inc64 m.adds }) = w at hroomy ⊢
  have hup : Upright w.engine := by rwa [← hw, engine_count]
  cases ht : w.validPrice wire with
  | none => exact hup
  | some tick =>
      rw [ht] at hroomy
      simp only at hroomy ⊢
      generalize hx : (if w.clientRefs ≠ [] then w.crossClients s tick q else (q, w)) = x at hroomy ⊢
      have hcross : Upright x.2.engine := by
        rw [← hx]
        split_ifs
        · exact upright_crossLoop hup s tick _ q
        · exact hup
      split_ifs at hroomy ⊢ with hrem
      · exact hcross
      · have hplace := hcross.place ref s tick x.1
        generalize x.2.engine.place ref s tick x.1 = r at hroomy hplace ⊢
        obtain ⟨k | k, b⟩ := r
        · exact hplace hroomy
        · exact hplace hroomy

/-! ### Calls and runs -/

theorem upright_onEnterOrder (h : Upright v.engine) (m : Ouch.EnterOrder) (hroomy : Roomy (v.onEnterOrder m).engine) :
    Upright (v.onEnterOrder m).engine := by
  unfold onEnterOrder at hroomy ⊢
  simp only at hroomy ⊢
  cases hs : parseSide m.side with
  | none => exact h
  | some s =>
      rw [hs] at hroomy
      simp only at hroomy ⊢
      cases hp : v.validPrice m.price with
      | none => split_ifs <;> exact h
      | some tick =>
          rw [hp] at hroomy
          simp only at hroomy ⊢
          split_ifs at hroomy ⊢
          · exact h
          · exact h
          · exact upright_processImmediate (v := v.takeRef.2.emitAccepted m v.takeRef.1 .dead) h _ _ _ _ _
          · exact upright_processOrder (v := v.takeRef.2.emitAccepted m v.takeRef.1 .live) h _ _ _ _ _ _ hroomy

theorem upright_onCancelOrder (h : Upright v.engine) (m : Ouch.CancelOrder) : Upright (v.onCancelOrder m).engine := by
  unfold onCancelOrder
  simp only
  cases v.byUserRef.get? m.userRefNum with
  | none => exact h
  | some ref =>
      simp only
      cases v.live.get? ref with
      | none => exact h
      | some l =>
          simp only
          split_ifs
          · exact h
          · rw [engine_dropClient]
            exact upright_engineCancel h l.handle
          · exact upright_engineReduce h l.handle _

theorem upright_onReplaceOrder (h : Upright v.engine) (m : Ouch.ReplaceOrder)
    (hroomy : Roomy (v.onReplaceOrder m).engine) : Upright (v.onReplaceOrder m).engine := by
  unfold onReplaceOrder at hroomy ⊢
  simp only at hroomy ⊢
  cases hu : v.byUserRef.get? m.origUserRefNum with
  | none => exact h
  | some origRef =>
      rw [hu] at hroomy
      simp only at hroomy ⊢
      cases hl : v.live.get? origRef with
      | none => exact h
      | some l =>
          rw [hl] at hroomy
          simp only at hroomy ⊢
          cases hp : v.validPrice m.price with
          | none => split_ifs <;> exact h
          | some tick =>
              rw [hp] at hroomy
              simp only at hroomy ⊢
              have hgone : Upright ((v.engineCancel l.handle).2.dropClient origRef l).engine := by
                rw [engine_dropClient]
                exact upright_engineCancel h l.handle
              generalize (v.engineCancel l.handle).2.dropClient origRef l = w at hroomy hgone ⊢
              split_ifs at hroomy ⊢
              · exact h
              · exact upright_processOrder (v := (w.takeRef.2.emitReplaced m w.takeRef.1 l.side).emitItchDelete origRef) hgone
                  _ _ _ _ _ _ hroomy
              · have hadd := hgone.add w.takeRef.1 l.side tick m.quantity
                have hsame : (w.takeRef.2.emitReplaced m w.takeRef.1 l.side).engine = w.engine := rfl
                rw [hsame] at hroomy ⊢
                generalize w.engine.add w.takeRef.1 l.side tick m.quantity = r at hroomy hadd ⊢
                obtain ⟨k | k, b, ts⟩ := r
                · exact hadd hroomy
                · exact hadd hroomy

theorem upright_injectSynthetic (h : Upright v.engine) (s : Side) (tick : ℤ) (q : ℕ)
    (hroomy : Roomy (v.injectSynthetic s tick q).2.engine) : Upright (v.injectSynthetic s tick q).2.engine := by
  have htake : Upright v.takeRef.2.engine := h
  exact upright_processOrder htake v.takeRef.1 s tick q false 0 hroomy

theorem upright_cancelSynthetic (h : Upright v.engine) (ref : ℕ) : Upright (v.cancelSynthetic ref).engine := by
  unfold cancelSynthetic
  cases v.live.erase ref with
  | none => exact h
  | some e =>
      have herase : Upright { v with live := e.2 }.engine := h
      exact upright_engineCancel herase e.1.handle

theorem upright_mirrorExecute (h : Upright v.engine) (ref shares : ℕ) : Upright (v.mirrorExecute ref shares).engine := by
  unfold mirrorExecute
  simp only
  generalize hw : (v.count fun m => { m with executes := inc64 m.executes }) = w
  have hup : Upright w.engine := by rwa [← hw, engine_count]
  cases w.live.get? ref with
  | none => exact hup
  | some l =>
      refine upright_takeShares ?_ ref shares l
      split_ifs
      · exact upright_shadowLoop hup ..
      · exact hup

theorem upright_mirrorCancel (h : Upright v.engine) (ref shares : ℕ) : Upright (v.mirrorCancel ref shares).engine := by
  unfold mirrorCancel
  simp only
  generalize hw : (v.count fun m => { m with cancels := inc64 m.cancels }) = w
  have hup : Upright w.engine := by rwa [← hw, engine_count]
  cases w.live.get? ref with
  | none => exact hup
  | some l => exact upright_takeShares hup ref shares l

theorem upright_mirrorDelete (h : Upright v.engine) (ref : ℕ) : Upright (v.mirrorDelete ref).engine := by
  unfold mirrorDelete
  simp only
  generalize hw : (v.count fun m => { m with deletes := inc64 m.deletes }) = w
  have hup : Upright w.engine := by rwa [← hw, engine_count]
  cases w.live.get? ref with
  | none => exact hup
  | some l => exact upright_removeReal hup ref l

theorem upright_mirrorReplace (h : Upright v.engine) (origRef newRef shares wire : ℕ)
    (hroomy : Roomy (v.mirrorReplace origRef newRef shares wire).engine) :
    Upright (v.mirrorReplace origRef newRef shares wire).engine := by
  unfold mirrorReplace at hroomy ⊢
  simp only at hroomy ⊢
  generalize hw : (v.count fun m => { m with replaces := inc64 m.replaces }) = w at hroomy ⊢
  have hup : Upright w.engine := by rwa [← hw, engine_count]
  cases hl : w.live.get? origRef with
  | none => exact hup
  | some l =>
      rw [hl] at hroomy
      simp only at hroomy ⊢
      generalize hx : ((w.removeReal origRef l).count fun m => { m with adds := dec64 m.adds }) = x at hroomy ⊢
      have hgone : Upright x.engine := by
        rw [← hx, engine_count]
        exact upright_removeReal hup origRef l
      exact upright_mirrorAdd hgone newRef l.side wire shares hroomy

theorem upright_resetDay (h : Upright v.engine) : Upright v.resetDay.engine := by
  have hclosed := upright_closeClients h v.clientRefs.length
  unfold resetDay
  generalize closeClients v.clientRefs.length v = w at hclosed
  exact hclosed.clear

/-- **A call keeps the best prices right**, if the levels have room after it. -/
theorem upright_step (h : Upright v.engine) (op : Op) (hroomy : Roomy (v.step op).engine) :
    Upright (v.step op).engine := by
  cases op with
  | request m =>
      cases m with
      | enterOrder m => exact upright_onEnterOrder h m hroomy
      | replaceOrder m => exact upright_onReplaceOrder h m hroomy
      | cancelOrder m => exact upright_onCancelOrder h m
  | injectSynthetic s tick q => exact upright_injectSynthetic h s tick q hroomy
  | cancelSynthetic ref => exact upright_cancelSynthetic h ref
  | mirrorAdd ref s wire q => exact upright_mirrorAdd h ref s wire q hroomy
  | mirrorExecute ref shares => exact upright_mirrorExecute h ref shares
  | mirrorCancel ref shares => exact upright_mirrorCancel h ref shares
  | mirrorDelete ref => exact upright_mirrorDelete h ref
  | mirrorReplace origRef newRef shares wire => exact upright_mirrorReplace h origRef newRef shares wire hroomy
  | resetDay => exact upright_resetDay h

theorem upright_new (symbol : List UInt8) (stockLocate : ℕ) {minTick : ℤ} (hmark : kNoPrice < minTick) (maxTick : ℤ)
    (wirePerTick firstOrderRef liveReserve stray : ℕ) :
    Upright (new symbol stockLocate minTick maxTick wirePerTick firstOrderRef liveReserve stray).engine :=
  OrderBook.upright_new hmark maxTick

/-- A run keeps the best prices right: the induction takes the run's last call off. -/
theorem upright_run (h : Upright v.engine) (ops : List Op) (hroomy : ∀ n, Roomy (v.run (ops.take n)).engine) :
    Upright (v.run ops).engine := by
  induction ops using List.reverseRecOn with
  | nil => exact h
  | append_singleton ops op ih =>
      have hlast := hroomy (ops ++ [op]).length
      rw [List.take_length] at hlast
      have hbefore : ∀ n, Roomy (v.run (ops.take n)).engine := by
        intro n
        rcases Nat.le_total n ops.length with hn | hn
        · have htake := hroomy n
          rwa [List.take_append_of_le_length hn] at htake
        · have htake := hroomy ops.length
          rw [List.take_append_of_le_length (Nat.le_refl _), List.take_length] at htake
          rwa [List.take_of_length_le hn]
      rw [run_append] at hlast ⊢
      exact upright_step (ih hbefore) op hlast

/-- **The best prices are right and no level with orders looks empty**, in every state that
a run reaches, if the orders' shares fit the word of their level in each of these states. -/
theorem levels_judged (symbol : List UInt8) (stockLocate : ℕ) (minTick maxTick : ℤ)
    (wirePerTick firstOrderRef liveReserve stray : ℕ) (hmark : kNoPrice < minTick) (ops : List Op)
    (hroomy : ∀ n, Roomy
      ((new symbol stockLocate minTick maxTick wirePerTick firstOrderRef liveReserve stray).run (ops.take n)).engine) (n : ℕ) :
    Judged ((new symbol stockLocate minTick maxTick wirePerTick firstOrderRef liveReserve stray).run (ops.take n)).engine := by
  refine (upright_run (upright_new symbol stockLocate hmark maxTick wirePerTick firstOrderRef liveReserve stray) _
    fun k => ?_).judged
  rw [List.take_take]
  exact hroomy _

/-- A venue with one price. -/
def oneTickVenue : Venue := new [65] 1 1 1 100 1001 1 0

/-- Orders of the tape and of a client, and one of them leaves. -/
def roomyOps : List Op :=
  [.mirrorAdd 7 .sell 100 (2 ^ 31), .request (.enterOrder ⟨1, .sell, 20, [65], 100, .day⟩), .mirrorDelete 7]

theorem roomy_roomyOps (n : ℕ) : Roomy (oneTickVenue.run (roomyOps.take n)).engine := by
  have hlevel : ∀ n < 4, ∀ s, (oneTickVenue.run (roomyOps.take n)).engine.queuedAt s 1 < 2 ^ 32 ∧
      (oneTickVenue.run (roomyOps.take n)).engine.minPrice = 1 ∧ (oneTickVenue.run (roomyOps.take n)).engine.maxPrice = 1 := by
    intro n hn s
    obtain rfl | rfl | rfl | rfl : n = 0 ∨ n = 1 ∨ n = 2 ∨ n = 3 := by omega
    all_goals cases s <;> decide +kernel
  have hfew : ∃ k < 4, roomyOps.take n = roomyOps.take k := by
    rcases Nat.lt_or_ge n 4 with hn | hn
    · exact ⟨n, hn, rfl⟩
    · exact ⟨3, by decide, List.take_of_length_le (Nat.le_of_succ_le hn)⟩
  obtain ⟨k, hk, heq⟩ := hfew
  intro s p
  obtain ⟨hsum, hmin, hmax⟩ := hlevel k hk s
  rw [heq]
  by_cases hp : p = 1
  · rw [hp]
    exact hsum
  · rw [queuedAt, ordersAtLevel, if_neg (by rw [OrderBook.InRange, hmin, hmax]; omega)]
    decide

theorem levels_judged_sample : Judged (oneTickVenue.run (roomyOps.take 3)).engine :=
  levels_judged [65] 1 1 1 100 1001 1 0 (by decide) roomyOps roomy_roomyOps 3

/-- Two orders with `2 ^ 31` shares at one price, and a better one that leaves. -/
def hiddenOps : List Op :=
  [.mirrorAdd 7 .sell 5000 (2 ^ 31), .mirrorAdd 8 .sell 5000 (2 ^ 31), .mirrorAdd 9 .sell 4900 5, .mirrorDelete 9]

/-- **A full level looks empty**: two orders rest at a price, its word of shares is zero, and
the venue sees no offer. -/
theorem orders_hidden :
    let b := ((new [65] 1 1 60 100 1001 16 0).run hiddenOps).engine
    (b.ordersAtLevel .sell 50).map Order.qty = [2 ^ 31, 2 ^ 31] ∧ b.volumeAt .sell 50 = 0 ∧ b.bestAsk = kNoPrice ∧
      ¬ Judged b := by
  intro b
  have hqueue : (b.ordersAtLevel .sell 50).map Order.qty = [2 ^ 31, 2 ^ 31] ∧ b.volumeAt .sell 50 = 0 ∧
      b.bestAsk = kNoPrice := by decide +kernel
  obtain ⟨horders, hvolume, hbest⟩ := hqueue
  refine ⟨horders, hvolume, hbest, fun h => ?_⟩
  rw [(h.empty .sell 50).mp hvolume] at horders
  cases horders

end TickToTrade.Sim.Venue
