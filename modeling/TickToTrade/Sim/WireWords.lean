import TickToTrade.Lob.OrderWords
import TickToTrade.Protocol.Overlays
import TickToTrade.Sim.VenueMoves
import TickToTrade.Sim.VenueTape
import TickToTrade.Util.MapValues

/-!
# What a venue sends fits the wire

The fields of a message are words of the struct that it is written into, and a venue takes them
from its tables, from the orders of its engine, from its counters and from the call. `Words` says
that all of these are words of the right widths, and that what has been sent so far fits. Every
call keeps it whose own arguments are words (`Op.Words`): of the tables and of the engine nothing
else is asked, so that no order of the calls and no reference in them matters.

## What is proved

* `Words.step`, `Words.run` — every call and every run keeps `Words`.
-/

namespace TickToTrade.Sim

open Util

/-- The fields of the message fit their widths. -/
def Sent.Fits : Sent → Prop
  | .marketData m => m.Fits
  | .orderEntry m => m.Fits

namespace Venue

/-- The arguments of a call are words of the widths that the program has for them. -/
def Op.Words : Op → Prop
  | .request m => m.Fits
  | .injectSynthetic _ _ qty => qty < 2 ^ 32
  | .cancelSynthetic ref => ref < 2 ^ 64
  | .mirrorAdd ref _ _ qty => ref < 2 ^ 64 ∧ qty < 2 ^ 32
  | .mirrorReplace _ newRef shares _ => newRef < 2 ^ 64 ∧ shares < 2 ^ 32
  | _ => True

/-- What a venue takes the fields of its messages from are words, and what it has sent fits. -/
structure Words (v : Venue) : Prop where
  stockLocate : v.stockLocate < 2 ^ 16
  stray : v.stray < 2 ^ 32
  engine : v.engine.Words
  nextOrderRef : v.nextOrderRef < 2 ^ 64
  nextMatch : v.nextMatch < 2 ^ 64
  live : v.live.Values (·.userRef < 2 ^ 32)
  byUserRef : v.byUserRef.Values (· < 2 ^ 64)
  clientRefs : ∀ ref ∈ v.clientRefs, ref < 2 ^ 64
  sent : ∀ m ∈ v.sent, m.Fits

namespace Words

variable {v w : Venue} {ref q user : ℕ} {l : LiveOrder}

/-! ### Sending and counting -/

theorem sends (hv : v.Words) {m : Sent} (hm : m.Fits) : Words { v with sent := v.sent ++ [m] } :=
  { hv with
    sent := fun m' hm' => by
      obtain hm' | hm' := List.mem_append.mp hm'
      · exact hv.sent m' hm'
      · exact List.mem_singleton.mp hm' ▸ hm }

theorem sendMd (hv : v.Words) {b : Itch.Body} (hb : b.Fits) : (v.sendMd b).Words :=
  hv.sends (m := .marketData ⟨v.stockLocate, b⟩) ⟨hv.stockLocate, hb⟩

theorem sendOe (hv : v.Words) {m : Ouch.Out} (hm : m.Fits) : (v.sendOe m).Words := hv.sends (m := .orderEntry m) hm

theorem tickToWire_lt (v : Venue) (tick : ℤ) : v.tickToWire tick < 2 ^ 32 := Nat.mod_lt _ (Nat.two_pow_pos 32)

theorem emitExecuted (hv : v.Words) (huser : user < 2 ^ 32) (hq : q < 2 ^ 32) (tick : ℤ) {matchNumber : ℕ}
    (hmatch : matchNumber < 2 ^ 64) : (v.emitExecuted user q tick matchNumber).Words :=
  hv.sendOe ⟨huser, hq, Nat.lt_trans (tickToWire_lt v tick) (by decide), hmatch⟩

theorem count (hv : v.Words) (f : MirrorStats → MirrorStats) : (v.count f).Words := { hv with }

theorem takeMatch (hv : v.Words) : v.takeMatch.2.Words := { hv with nextMatch := Nat.mod_lt _ (Nat.two_pow_pos 64) }

theorem takeRef (hv : v.Words) : v.takeRef.2.Words := { hv with nextOrderRef := Nat.mod_lt _ (Nat.two_pow_pos 64) }

/-! ### The engine -/

theorem withEngine (hv : v.Words) {b : OrderBook} (hb : b.Words) : Words { v with engine := b } := { hv with engine := hb }

theorem qtyAt_lt (hv : v.Words) (h : Option ℕ) : v.qtyAt h < 2 ^ 32 := by
  cases h with
  | none => exact hv.stray
  | some h => exact (hv.engine h).2

theorem engineCancel (hv : v.Words) (h : Option ℕ) : (v.engineCancel h).1 < 2 ^ 32 ∧ (v.engineCancel h).2.Words := by
  cases h with
  | none => exact ⟨Nat.two_pow_pos 32, hv⟩
  | some h => exact ⟨(hv.engine.cancel h).1, hv.withEngine (hv.engine.cancel h).2⟩

theorem engineReduce (hv : v.Words) (h : Option ℕ) (q : ℕ) :
    (v.engineReduce h q).1 < 2 ^ 32 ∧ (v.engineReduce h q).2.Words := by
  cases h with
  | none => exact ⟨Nat.two_pow_pos 32, hv⟩
  | some h => exact ⟨(hv.engine.reduce h q).1, hv.withEngine (hv.engine.reduce h q).2⟩

/-! ### The tables -/

theorem userRef_lt (hv : v.Words) (hl : v.live.get? ref = some l) : l.userRef < 2 ^ 32 := hv.live.of_get? hl

theorem setLive (hv : v.Words) (ref : ℕ) (hl : l.userRef < 2 ^ 32) : (v.setLive ref l).Words :=
  { hv with live := hv.live.insertOrAssign (Nat.two_pow_pos 32) ref hl }

theorem eraseLive (hv : v.Words) (ref : ℕ) : (v.eraseLive ref).Words := by
  unfold Venue.eraseLive
  cases herase : v.live.erase ref with
  | none => exact hv
  | some e => exact { hv with live := (hv.live.erase (Nat.two_pow_pos 32) herase).2 }

theorem eraseUserRef (hv : v.Words) (user : ℕ) : (v.eraseUserRef user).Words := by
  unfold Venue.eraseUserRef
  cases herase : v.byUserRef.erase user with
  | none => exact hv
  | some e => exact { hv with byUserRef := (hv.byUserRef.erase (Nat.two_pow_pos 64) herase).2 }

theorem withRefs (hv : v.Words) {refs : List ℕ} (hrefs : refs ⊆ v.clientRefs) : Words { v with clientRefs := refs } :=
  { hv with clientRefs := fun ref href => hv.clientRefs ref (hrefs href) }

theorem dropRef_subset (refs : List ℕ) (ref : ℕ) : dropRef refs ref ⊆ refs := by
  by_cases hmem : ref ∈ refs
  · obtain ⟨pre, post, rfl, hperm⟩ := dropRef_perm hmem
    refine fun r hr => ?_
    obtain hr | hr := List.mem_append.mp (hperm.mem_iff.mp hr)
    · exact List.mem_append_left _ hr
    · exact List.mem_append_right _ (List.mem_cons_of_mem _ hr)
  · rw [dropRef, if_neg hmem]
    exact List.Subset.refl _

theorem dropClient (hv : v.Words) (ref : ℕ) (l : LiveOrder) : (v.dropClient ref l).Words :=
  ((hv.eraseUserRef l.userRef).eraseLive ref).withRefs (dropRef_subset _ ref)

theorem trackClient (hv : v.Words) (href : ref < 2 ^ 64) (h : Option ℕ) (s : Side) (tick : ℤ) (huser : user < 2 ^ 32) :
    (v.trackClient ref h s tick user).Words :=
  { hv.setLive ref (l := ⟨h, s, tick, true, user⟩) huser with
    byUserRef := hv.byUserRef.insertOrAssign (Nat.two_pow_pos 64) user href
    clientRefs := fun r hr => by
      obtain hr | hr := List.mem_append.mp hr
      · exact hv.clientRefs r hr
      · exact List.mem_singleton.mp hr ▸ href }

theorem removeReal (hv : v.Words) (ref : ℕ) (l : LiveOrder) : (v.removeReal ref l).Words :=
  (hv.engineCancel l.handle).2.eraseLive ref

/-! ### Trades -/

variable {t : Trade} {client : Bool}

theorem reportTrade (hv : v.Words) (ht : t.Words) (huser : client = true → user < 2 ^ 32) :
    (reportTrade client user v t).Words := by
  have hstart : (v.takeMatch.2.emitItchExecuted t.restingId t.qty v.nextMatch).Words :=
    hv.takeMatch.sendMd (b := .orderExecuted t.restingId t.qty v.nextMatch) ⟨ht.1, ht.2, hv.nextMatch⟩
  unfold Venue.reportTrade
  simp only
  generalize v.takeMatch.2.emitItchExecuted t.restingId t.qty v.nextMatch = w at hstart ⊢
  have hagg : (if client then w.emitExecuted user t.qty t.price v.nextMatch else w).Words := by
    split_ifs with hclient
    · exact hstart.emitExecuted (huser hclient) ht.2 t.price hv.nextMatch
    · exact hstart
  generalize (if client then w.emitExecuted user t.qty t.price v.nextMatch else w) = x at hagg ⊢
  cases hl : v.live.get? t.restingId with
  | none => exact hagg
  | some l =>
      have htold := hagg.emitExecuted (hv.userRef_lt hl) ht.2 t.price hv.nextMatch
      simp only
      split_ifs
      · exact htold.count _
      · exact htold
      · exact hagg.count _
      · exact hagg

theorem settleTrade (hv : v.Words) (t : Trade) : (v.settleTrade t).Words := by
  unfold Venue.settleTrade
  cases v.live.get? t.restingId with
  | none => exact hv
  | some l =>
      simp only
      split_ifs
      · exact hv.dropClient ..
      · exact hv.eraseLive ..
      · exact hv

/-- The engine trades. -/
theorem trades (hv : v.Words) {ts : List Trade} (hts : ∀ t ∈ ts, t.Words) (huser : client = true → user < 2 ^ 32) :
    (ts.foldl (handleTrade client user) v).Words := by
  refine List.foldlRecOn (motive := Words) _ _ hv fun w hw t ht => ?_
  rw [handleTrade_eq]
  exact (hw.reportTrade (hts t ht) huser).settleTrade t

theorem processImmediate (hv : v.Words) (ref : ℕ) (s : Side) (tick : ℤ) (hq : q < 2 ^ 32) (huser : user < 2 ^ 32) :
    (v.processImmediate ref s tick q user).Words := by
  obtain ⟨hengine, hleft, hts⟩ := hv.engine.match ref s tick q
  have htrades := (hv.withEngine hengine).trades hts fun _ : true = true => huser
  unfold Venue.processImmediate
  simp only
  split_ifs
  · exact htrades.sendOe ⟨huser, Nat.lt_of_le_of_lt hleft hq⟩
  · exact htrades

theorem processOrder (hv : v.Words) (href : ref < 2 ^ 64) (s : Side) (tick : ℤ) (hq : q < 2 ^ 32)
    (huser : client = true → user < 2 ^ 32) : (v.processOrder ref s tick q client user).Words := by
  obtain ⟨hengine, hts⟩ := hv.engine.add s tick href hq
  have htrades := (hv.withEngine hengine).trades hts huser
  unfold Venue.processOrder
  simp only
  generalize (v.engine.add ref s tick q).2.2.foldl (handleTrade client user)
    { v with engine := (v.engine.add ref s tick q).2.1 } = w at htrades ⊢
  cases (v.engine.add ref s tick q).1 with
  | none => exact htrades
  | some h =>
      have hadd : (w.emitItchAdd ref s tick (w.engine.order h).qty).Words :=
        htrades.sendMd (b := .addOrder ref s _ _) ⟨href, (htrades.engine h).2, tickToWire_lt w tick⟩
      cases client
      · exact hadd.setLive ref (Nat.two_pow_pos 32)
      · exact hadd.trackClient href (some h) s tick (huser rfl)

/-! ### The tape trades with clients -/

theorem fillClient (hv : v.Words) (href : ref < 2 ^ 64) (hq : q < 2 ^ 32) : (v.fillClient ref q).Words := by
  unfold Venue.fillClient
  cases hl : v.live.get? ref with
  | none => exact hv
  | some l =>
      simp only
      have htold : ((v.takeMatch.2.emitItchExecuted ref q v.takeMatch.1).emitExecuted l.userRef q l.tick v.takeMatch.1).Words :=
        (hv.takeMatch.sendMd (b := .orderExecuted ref q _) ⟨href, hq, hv.nextMatch⟩).emitExecuted (hv.userRef_lt hl) hq l.tick
          hv.nextMatch
      generalize (v.takeMatch.2.emitItchExecuted ref q v.takeMatch.1).emitExecuted l.userRef q l.tick v.takeMatch.1 = w at htold ⊢
      split_ifs
      · exact hv
      · exact (htold.engineCancel l.handle).2.dropClient ref l
      · exact (htold.engineReduce l.handle _).2

theorem crossLoop (hv : v.Words) (s : Side) (tick : ℤ) (fuel : ℕ) (hq : q < 2 ^ 32) :
    (Venue.crossLoop s tick fuel v q).1 < 2 ^ 32 ∧ (Venue.crossLoop s tick fuel v q).2.Words := by
  induction fuel generalizing v q with
  | zero => exact ⟨hq, hv⟩
  | succ fuel ih =>
      unfold Venue.crossLoop
      simp only
      have hcur := hv.qtyAt_lt (v.bestClient s tick).2.1
      split_ifs with hzero hnone hless
      · exact ⟨hq, hv⟩
      · exact ⟨hq, hv⟩
      all_goals
        have href := hv.clientRefs _ (bestClient_mem v s tick hnone).1
        have hcount := hv.count fun m => { m with crossFills := inc64 m.crossFills }
      · exact ih (hcount.fillClient href hq) (by omega)
      · exact ih (hcount.fillClient href hcur) (by omega)

theorem shadowLoop (hv : v.Words) (s : Side) (tick : ℤ) (realRef fuel i q : ℕ) :
    (Venue.shadowLoop s tick realRef fuel i v q).Words := by
  induction fuel generalizing v i q with
  | zero => exact hv
  | succ fuel ih =>
      unfold Venue.shadowLoop
      simp only
      by_cases hgo : i < v.clientRefs.length ∧ q > 0
      · rw [if_pos hgo]
        have href : v.clientRefs.getD i 0 < 2 ^ 64 := by
          rw [List.getD_eq_getElem _ _ hgo.1]
          exact hv.clientRefs _ (List.getElem_mem _)
        cases v.live.get? (v.clientRefs.getD i 0) with
        | none => exact ih hv ..
        | some l =>
            simp only
            by_cases hskip : l.side ≠ s ∨ ¬ v.isAhead s tick realRef (v.clientRefs.getD i 0) l
            · rw [if_pos hskip]
              exact ih hv ..
            · rw [if_neg hskip]
              have hcur := hv.qtyAt_lt l.handle
              refine ih ((hv.count _).fillClient href ?_) ..
              split_ifs
              · omega
              · exact hcur
      · rw [if_neg hgo]
        exact hv

theorem takeShares (hv : v.Words) (ref q : ℕ) (l : LiveOrder) : (v.takeShares ref q l).Words := by
  unfold Venue.takeShares
  simp only
  have hcount : (if q > v.qtyAt l.handle then v.count fun m => { m with overReduce := inc64 m.overReduce } else v).Words := by
    split_ifs
    · exact hv.count _
    · exact hv
  generalize (if q > v.qtyAt l.handle then v.count fun m => { m with overReduce := inc64 m.overReduce } else v) = w at hcount ⊢
  split_ifs
  · exact hcount.removeReal ref l
  · exact (hcount.engineReduce l.handle _).2

/-! ### The tape's own orders -/

/-- A message of the tape about an order that the table has, or has not. -/
theorem known (hv : v.Words) (f : MirrorStats → MirrorStats) (ref : ℕ) {g : Venue → LiveOrder → Venue}
    (hg : ∀ w l, w.Words → (g w l).Words) :
    (match (v.count f).live.get? ref with
      | none => (v.count f).count fun m => { m with unknownRef := inc64 m.unknownRef }
      | some l => g (v.count f) l).Words := by
  cases (v.count f).live.get? ref with
  | none => exact (hv.count f).count _
  | some l => exact hg _ l (hv.count f)

theorem mirrorExecute (hv : v.Words) (ref shares : ℕ) : (v.mirrorExecute ref shares).Words := by
  refine hv.known (fun m => { m with executes := inc64 m.executes }) ref (g := fun w l =>
    (if w.clientRefs ≠ [] then w.shadowFill l.side l.tick ref shares else w).takeShares ref shares l) fun w l hw => ?_
  refine takeShares ?_ ref shares l
  split_ifs
  · exact hw.shadowLoop ..
  · exact hw

theorem mirrorCancel (hv : v.Words) (ref shares : ℕ) : (v.mirrorCancel ref shares).Words :=
  hv.known (fun m => { m with cancels := inc64 m.cancels }) ref fun _ l hw => hw.takeShares ref shares l

theorem mirrorDelete (hv : v.Words) (ref : ℕ) : (v.mirrorDelete ref).Words :=
  hv.known (fun m => { m with deletes := inc64 m.deletes }) ref fun _ l hw => hw.removeReal ref l

theorem mirrorAdd (hv : v.Words) (href : ref < 2 ^ 64) (s : Side) (wire : ℕ) (hq : q < 2 ^ 32) :
    (v.mirrorAdd ref s wire q).Words := by
  have hcount := hv.count fun m => { m with adds := inc64 m.adds }
  unfold Venue.mirrorAdd
  simp only
  generalize (v.count fun m => { m with adds := inc64 m.adds }) = w at hcount ⊢
  cases w.validPrice wire with
  | none => exact hcount.count _
  | some tick =>
      simp only
      have hcross : (if w.clientRefs ≠ [] then w.crossClients s tick q else (q, w)).1 < 2 ^ 32 ∧
          (if w.clientRefs ≠ [] then w.crossClients s tick q else (q, w)).2.Words := by
        split_ifs
        · exact hcount.crossLoop s tick _ hq
        · exact ⟨hq, hcount⟩
      generalize (if w.clientRefs ≠ [] then w.crossClients s tick q else (q, w)) = x at hcross ⊢
      split_ifs
      · exact hcross.2
      · have hplace := hcross.2.withEngine (hcross.2.engine.place s tick href hcross.1)
        generalize x.2.engine.place ref s tick x.1 = placed at hplace ⊢
        obtain ⟨k, b⟩ := placed
        cases k with
        | none => exact hplace
        | some k => exact hplace.setLive ref (Nat.two_pow_pos 32)

theorem mirrorReplace (hv : v.Words) (origRef : ℕ) (href : ref < 2 ^ 64) (hq : q < 2 ^ 32) (wire : ℕ) :
    (v.mirrorReplace origRef ref q wire).Words := by
  refine hv.known (fun m => { m with replaces := inc64 m.replaces }) origRef (g := fun w l =>
    ((w.removeReal origRef l).count fun m => { m with adds := dec64 m.adds }).mirrorAdd ref l.side wire q) fun w l hw => ?_
  exact ((hw.removeReal origRef l).count _).mirrorAdd href l.side wire hq

/-! ### Orders leave -/

theorem cancelSynthetic (hv : v.Words) (href : ref < 2 ^ 64) : (v.cancelSynthetic ref).Words := by
  unfold Venue.cancelSynthetic
  cases herase : v.live.erase ref with
  | none => exact hv
  | some e =>
      have hgone : Words { v with live := e.2 } := { hv with live := (hv.live.erase (Nat.two_pow_pos 32) herase).2 }
      exact (hgone.engineCancel e.1.handle).2.sendMd href

/-- A client's order is cancelled and leaves the tables. -/
theorem closeClient (hv : v.Words) (href : ref < 2 ^ 64) (l : LiveOrder) (r : Ouch.CancelReason)
    (huser : user < 2 ^ 32) :
    ((((v.engineCancel l.handle).2.emitItchDelete ref).emitCanceled user (v.engineCancel l.handle).1 r).dropClient ref l).Words :=
  (((hv.engineCancel l.handle).2.sendMd (b := .orderDelete ref) href).sendOe
    (m := .canceled ⟨user, (v.engineCancel l.handle).1, r⟩) ⟨huser, (hv.engineCancel l.handle).1⟩).dropClient ref l

theorem closeClients (hv : v.Words) (fuel : ℕ) : (Venue.closeClients fuel v).Words := by
  induction fuel generalizing v with
  | zero => exact hv
  | succ fuel ih =>
      unfold Venue.closeClients
      cases hlast : v.clientRefs.getLast? with
      | none => exact hv
      | some ref =>
          have href := hv.clientRefs ref (List.mem_of_getLast? hlast)
          simp only
          cases hl : v.live.get? ref with
          | none => exact ih (hv.withRefs (List.dropLast_subset _))
          | some l => exact ih (hv.closeClient href l .closed (hv.userRef_lt hl))

theorem resetDay (hv : v.Words) : v.resetDay.Words := by
  have hclosed := hv.closeClients v.clientRefs.length
  exact { hclosed with
    engine := OrderBook.Words.clear _
    live := FlatHashMap.Values.clear (Nat.two_pow_pos 32) _
    byUserRef := FlatHashMap.Values.clear (Nat.two_pow_pos 64) _ }

/-! ### Requests -/

theorem onEnterOrder (hv : v.Words) {o : Ouch.EnterOrder} (ho : (Ouch.In.enterOrder o).Fits) : (v.onEnterOrder o).Words := by
  obtain ⟨huser, hq, -, hprice⟩ := ho
  have htaken : ∀ st, (v.takeRef.2.emitAccepted o v.nextOrderRef st).Words := fun st =>
    hv.takeRef.sendOe (m := .accepted _) ⟨huser, hq, hprice, hv.nextOrderRef⟩
  have hreject : ∀ r, (v.emitRejected o.userRefNum r).Words := fun r => hv.sendOe (m := .rejected _) huser
  unfold Venue.onEnterOrder
  simp only
  cases parseSide o.side with
  | none => exact hreject _
  | some s =>
      simp only
      by_cases hzero : o.quantity = 0
      · rw [if_pos hzero]
        exact hreject _
      rw [if_neg hzero]
      by_cases hsymbol : o.symbol ≠ v.symbol
      · rw [if_pos hsymbol]
        exact hreject _
      rw [if_neg hsymbol]
      cases v.validPrice o.price with
      | none => exact hreject _
      | some tick =>
          simp only
          split_ifs
          · exact (htaken .dead).processImmediate v.nextOrderRef s tick hq huser
          · exact (htaken .live).processOrder hv.nextOrderRef s tick hq fun _ => huser

theorem onCancelOrder (hv : v.Words) {x : Ouch.CancelOrder} (hx : (Ouch.In.cancelOrder x).Fits) : (v.onCancelOrder x).Words := by
  obtain ⟨huser, -⟩ := hx
  have hreject : (v.emitCancelReject x.userRefNum).Words := hv.sendOe (m := .cancelReject _) huser
  unfold Venue.onCancelOrder
  simp only
  cases hget : v.byUserRef.get? x.userRefNum with
  | none => exact hreject
  | some ref =>
      have href : ref < 2 ^ 64 := hv.byUserRef.of_get? hget
      simp only
      cases v.live.get? ref with
      | none => exact hreject
      | some l =>
          have hreduced := hv.engineReduce l.handle x.quantity
          simp only
          split_ifs
          · exact hreject
          · exact hv.closeClient href l .userRequested huser
          · exact (hreduced.2.sendMd (b := .orderCancel ref _) ⟨href, hreduced.1⟩).sendOe (m := .canceled _) ⟨huser, hreduced.1⟩

theorem arriveReplaced (hv : v.Words) {origRef : ℕ} (horig : origRef < 2 ^ 64) (href : ref < 2 ^ 64) (s : Side) (tick : ℤ)
    (hq : q < 2 ^ 32) (huser : user < 2 ^ 32) : (v.arriveReplaced origRef ref s tick q user).Words := by
  unfold Venue.arriveReplaced
  split_ifs
  · exact (hv.sendMd (b := .orderDelete origRef) horig).processOrder href s tick hq fun _ => huser
  · have hadd : (emitItchReplace { v with engine := (v.engine.add ref s tick q).2.1 } origRef ref q tick).Words :=
      (hv.withEngine (hv.engine.add s tick href hq).1).sendMd (b := .orderReplace origRef ref q _)
        ⟨horig, href, hq, tickToWire_lt v tick⟩
    simp only
    cases (v.engine.add ref s tick q).1 with
    | none => exact hadd
    | some h => exact hadd.trackClient href (some h) s tick huser

theorem onReplaceOrder (hv : v.Words) {u : Ouch.ReplaceOrder} (hu : (Ouch.In.replaceOrder u).Fits) :
    (v.onReplaceOrder u).Words := by
  obtain ⟨horigUser, huser, hq, hprice⟩ := hu
  have hreject : ∀ r, (v.emitRejected u.userRefNum r).Words := fun r => hv.sendOe (m := .rejected _) huser
  unfold Venue.onReplaceOrder
  simp only
  cases hget : v.byUserRef.get? u.origUserRefNum with
  | none => exact hreject _
  | some origRef =>
      have horig : origRef < 2 ^ 64 := hv.byUserRef.of_get? hget
      simp only
      cases v.live.get? origRef with
      | none => exact hreject _
      | some l =>
          simp only
          split_ifs
          · exact hreject _
          cases v.validPrice u.price with
          | none => exact hreject _
          | some tick =>
              have hgone := (hv.engineCancel l.handle).2.dropClient origRef l
              simp only
              generalize (v.engineCancel l.handle).2.dropClient origRef l = w at hgone ⊢
              have hreplaced : (w.takeRef.2.emitReplaced u w.nextOrderRef l.side).Words :=
                hgone.takeRef.sendOe (m := .replaced _) ⟨horigUser, huser, hq, hprice, hgone.nextOrderRef⟩
              exact hreplaced.arriveReplaced horig hgone.nextOrderRef l.side tick hq huser

/-! ### Calls -/

/-- **Every call** with words for its arguments keeps the words and sends what fits. -/
theorem step (hv : v.Words) {op : Op} (hop : op.Words) : (v.step op).Words := by
  cases op with
  | request m =>
      cases m with
      | enterOrder o => exact hv.onEnterOrder hop
      | replaceOrder u => exact hv.onReplaceOrder hop
      | cancelOrder x => exact hv.onCancelOrder hop
  | injectSynthetic s tick qty => exact hv.takeRef.processOrder hv.nextOrderRef s tick hop fun h => nomatch h
  | cancelSynthetic ref => exact hv.cancelSynthetic hop
  | mirrorAdd ref s wire qty => exact hv.mirrorAdd hop.1 s wire hop.2
  | mirrorExecute ref shares => exact hv.mirrorExecute ref shares
  | mirrorCancel ref shares => exact hv.mirrorCancel ref shares
  | mirrorDelete ref => exact hv.mirrorDelete ref
  | mirrorReplace origRef newRef shares wire => exact hv.mirrorReplace origRef hop.1 hop.2 wire
  | resetDay => exact hv.resetDay

theorem run (hv : v.Words) {ops : List Op} (hops : ∀ op ∈ ops, op.Words) : (v.run ops).Words :=
  List.foldlRecOn (motive := Words) ops Venue.step hv fun _ hw op hop => hw.step (hops op hop)

theorem emitStockDirectory (hv : v.Words) : v.emitStockDirectory.Words :=
  hv.sendMd (b := .stockDirectory _) (Itch.fitsAlpha_alphaView 8 v.symbol)

theorem sessionEvent (hv : v.Words) (code : Itch.SystemEventCode) : (v.sessionEvent code).Words :=
  hv.sends (m := .marketData ⟨0, .systemEvent code⟩) ⟨Nat.two_pow_pos 16, trivial⟩

theorem bindLocate (hv : v.Words) {locate : ℕ} (hlocate : locate < 2 ^ 16) : (v.bindLocate locate).Words :=
  { hv with stockLocate := hlocate }

theorem new (symbol : List UInt8) {stockLocate firstOrderRef stray : ℕ} (minTick maxTick : ℤ) (wirePerTick liveReserve : ℕ)
    (hlocate : stockLocate < 2 ^ 16) (hfirst : firstOrderRef < 2 ^ 64) (hstray : stray < 2 ^ 32) :
    (Venue.new symbol stockLocate minTick maxTick wirePerTick firstOrderRef liveReserve stray).Words where
  stockLocate := hlocate
  stray := hstray
  engine := OrderBook.Words.new minTick maxTick
  nextOrderRef := by
    change (if firstOrderRef = 0 then 1 else firstOrderRef) < 2 ^ 64
    split_ifs
    · decide
    · exact hfirst
  nextMatch := Nat.one_lt_two_pow (by decide)
  live := FlatHashMap.Values.empty (Nat.two_pow_pos 32) _
  byUserRef := FlatHashMap.Values.empty (Nat.two_pow_pos 64) _
  clientRefs := fun ref href => absurd href List.not_mem_nil
  sent := fun m hm => absurd hm List.not_mem_nil

end Words

end Venue

end TickToTrade.Sim
