import TickToTrade.Sim.DirectoryRouting
import TickToTrade.Sim.PublishedBook

/-!
# The tape on both ends

A session sends every message of the tape on as it is and then lets the venue of its symbol
mirror it; what the venue has to say goes out behind it (`Relay`). So there are two books of the
tape's orders: the venue's engine, and the table that a reader of the feed keeps. They part
where a tape order does not come to rest with all of its shares: the clients take some on its
arrival, it is outside the band, or it replaces an order that the venue has lost. `shortfall` is
what the venue has never had of a tape order.

## What is proved

* `replayMessage_relays`, `atVenue_relays` — the session does what the relay does.
* `mirrored_both_ends` — after every step of an orderly day, the order that rests under a reference
  is the reader's less the shortfall, at the same price on the same side, and what the reader alone has is
  within the shortfall; the venue's own orders have none.
-/

namespace TickToTrade.Sim

open Util
open Dut.BookBuilder (account)

namespace Venue

/-! ### A day of a session with one venue -/

/-- What a message of the tape asks of a venue. -/
def opOf : Itch.Body → Option Op
  | .addOrder ref side shares price => some (.mirrorAdd ref side price shares)
  | .orderExecuted ref shares _ => some (.mirrorExecute ref shares)
  | .orderExecutedWithPrice ref shares _ _ => some (.mirrorExecute ref shares)
  | .orderCancel ref shares => some (.mirrorCancel ref shares)
  | .orderDelete ref => some (.mirrorDelete ref)
  | .orderReplace origRef newRef shares price => some (.mirrorReplace origRef newRef shares price)
  | _ => none

theorem mirrorOf_eq (body : Itch.Body) : ExchangeSession.mirrorOf body = (opOf body).map fun op v => v.step op := by
  cases body <;> rfl

/-- What reaches a venue on a day. -/
inductive Event where
  | request (m : Ouch.In)
  | injectSynthetic (side : Side) (tick : ℤ) (qty : ℕ)
  | cancelSynthetic (ref : ℕ)
  | tape (body : Itch.Body)
deriving DecidableEq, Repr

/-- The call of the venue. -/
def Event.op? : Event → Option Op
  | request m => some (.request m)
  | injectSynthetic side tick qty => some (.injectSynthetic side tick qty)
  | cancelSynthetic ref => some (.cancelSynthetic ref)
  | tape body => opOf body

/-- What goes out before the call. -/
def Event.forwarded : Event → List Itch.Body
  | tape body => [body]
  | _ => []

/-- What a venue says between two states. -/
def told (v w : Venue) : List Itch.Body := w.bodies.drop v.bodies.length

/-- A venue behind the tape, and what has gone out. -/
structure Relay where
  venue : Venue
  feed : List Itch.Body := []

/-- One event. -/
def Relay.take (x : Relay) (e : Event) : Relay :=
  let w := e.op?.elim x.venue x.venue.step
  ⟨w, x.feed ++ (e.forwarded ++ told x.venue w)⟩

/-- A day. -/
def Relay.run (x : Relay) (events : List Event) : Relay := events.foldl Relay.take x

/-- The calls of a day. -/
def callsOf (events : List Event) : List Op := events.filterMap Event.op?

theorem Relay.venue_run (x : Relay) (events : List Event) : (x.run events).venue = x.venue.run (callsOf events) := by
  induction events generalizing x with
  | nil => rfl
  | cons e events ih =>
      have htake : (x.take e).venue = x.venue.run e.op?.toList := by
        unfold take
        cases e.op? <;> rfl
      have hcalls : callsOf (e :: events) = e.op?.toList ++ callsOf events := by
        unfold callsOf
        rw [List.filterMap_cons]
        cases e.op? <;> rfl
      exact (ih (x.take e)).trans (by rw [htake, hcalls, run_append])

/-- A call adds to what is sent. -/
theorem sent_grows (v : Venue) (op : Op) : v.sent <+: (v.step op).sent := by
  have hR : Everywhere Set.univ fun v w : Venue => v.sent <+: w.sent := {
    refl := fun v => List.prefix_refl v.sent
    trans := fun h h' => h.trans h'
    sends := fun v m => List.prefix_append v.sent [m]
    counts := fun v f => List.prefix_refl v.sent
    takeMatch := fun v => List.prefix_refl v.sent
    engine := fun v b => List.prefix_refl v.sent
    eraseLive := fun v ref => by rw [(eraseLive_same v ref).1]
    eraseUserRef := fun v user => by rw [(eraseUserRef_same v user).1]
    clientRefs := fun v refs => List.prefix_refl v.sent
    setLive := fun v ref l => List.prefix_refl v.sent
    setUserRef := fun v user _ ref => List.prefix_refl v.sent
    takeRef := fun v => List.prefix_refl v.sent
    clear := fun v => List.prefix_refl v.sent }
  cases op with
  | request m =>
      cases m with
      | enterOrder m => exact hR.onEnterOrder v m trivial
      | replaceOrder m => exact hR.onReplaceOrder v m trivial
      | cancelOrder m => exact hR.onCancelOrder v m
  | injectSynthetic s tick q => exact hR.injectSynthetic v s tick q
  | cancelSynthetic ref => exact hR.cancelSynthetic v ref
  | mirrorAdd ref s wire q => exact hR.of_setLive (hR.mirrorAdd v ref s wire q)
  | mirrorExecute ref q => exact hR.mirrorExecute v ref q
  | mirrorCancel ref q => exact hR.mirrorCancel v ref q
  | mirrorDelete ref => exact hR.mirrorDelete v ref
  | mirrorReplace orig ref q wire => exact hR.of_setLive (hR.mirrorReplace v orig ref q wire)
  | resetDay => exact hR.resetDay v

/-! ### What the venue has never had -/

/-- The shares of the executions in a list of messages. -/
def executedShares (ms : List Itch.Body) : ℕ :=
  (ms.map fun
    | .orderExecuted _ shares _ => shares
    | _ => 0).sum

/-- Of a tape order that arrives, the shares that do not come to rest: those that the clients
take, or all. -/
def missed (v : Venue) (op : Op) : ℕ :=
  match op with
  | .mirrorAdd _ _ wire shares => if (v.validPrice wire).isSome then executedShares (told v (v.step op)) else shares
  | .mirrorReplace origRef _ shares wire =>
      if (v.live.get? origRef).isSome ∧ (v.validPrice wire).isSome then executedShares (told v (v.step op)) else shares
  | _ => 0

/-- The shares of each tape order that the venue never had. -/
def shortfall : Venue → List Op → ℕ → ℕ
  | _, [], _ => 0
  | v, op :: ops, ref => if ref ∈ op.tapeNew then v.missed op else shortfall (v.step op) ops ref

section

variable {exact : Prop} {rd : Reader} {debt : ℕ → ℕ} {v w x : Venue} {d : Desk ℕ} {f f' : FiniteMap Dut.Resting} {s : Side}
  {l : LiveOrder} {ref q n n' : ℕ}

/-! ### What the clients take -/

/-- Between the two states the venue tells of executions alone, of so many shares and of orders
other than `ref`. -/
def Fills (ref : ℕ) (v w : Venue) (n : ℕ) : Prop :=
  ∃ ms : List (ℕ × ℕ × ℕ), w.bodies = v.bodies ++ ms.map (fun m => .orderExecuted m.1 m.2.1 m.2.2) ∧
    (∀ m ∈ ms, m.1 ≠ ref) ∧ (ms.map fun m => m.2.1).sum = n

namespace Fills

theorem of_sent (h : w.sent = v.sent) : Fills ref v w 0 := ⟨[], by simp [bodies_of_sent h], by simp, rfl⟩

theorem trans (h : Fills ref v w n) (h' : Fills ref w x n') : Fills ref v x (n + n') := by
  obtain ⟨ms, hbodies, hne, rfl⟩ := h
  obtain ⟨ms', hbodies', hne', rfl⟩ := h'
  refine ⟨ms ++ ms', by rw [hbodies', hbodies, List.map_append, List.append_assoc], fun m hm => ?_, by simp⟩
  exact (List.mem_append.mp hm).elim (hne m) (hne' m)

theorem told_eq (h : Fills ref v w n) : executedShares (told v w) = n := by
  obtain ⟨ms, hbodies, -, rfl⟩ := h
  rw [told, hbodies, List.drop_left, executedShares, List.map_map]
  rfl

theorem fillClient {r : ℕ} (hl : v.live.get? r = some l) (hq : q ≠ 0) (hne : r ≠ ref) : Fills ref v (v.fillClient r q) q := by
  have hsent : (v.fillClient r q).sent = (v.reportFill r q l).sent := by
    have hcancel : ∀ (w : Venue) (h : Option ℕ), (w.engineCancel h).2.sent = w.sent := fun w h => by cases h <;> rfl
    have hreduce : ∀ (w : Venue) (h : Option ℕ) (k : ℕ), (w.engineReduce h k).2.sent = w.sent := fun w h k => by
      cases h <;> rfl
    rw [fillClient_eq hl hq]
    split_ifs
    · exact (dropClient_same ..).1.trans (hcancel ..)
    · exact hreduce ..
  refine ⟨[(r, q, v.nextMatch)], ?_, by simpa using hne, by simp⟩
  rw [bodies_of_sent hsent, (tells_reportFill v r q l).bodies]
  rfl

/-- Executions leave other references alone. -/
theorem fold_aside (ms : List (ℕ × ℕ × ℕ)) (hms : ∀ m ∈ ms, m.1 ≠ ref) (hf : ∀ k ≠ ref, f'.lookup k = f.lookup k) :
    let fold := (ms.map fun m => Itch.Body.orderExecuted m.1 m.2.1 m.2.2).foldl (account 0)
    (∀ k ≠ ref, (fold f').lookup k = (fold f).lookup k) ∧ (fold f').lookup ref = f'.lookup ref := by
  induction ms generalizing f f' with
  | nil => exact ⟨hf, rfl⟩
  | cons m ms ih =>
      have hne := hms m List.mem_cons_self
      have hstep : ∀ k ≠ ref, (Dut.BookBuilder.lessen f' m.1 m.2.1).lookup k = (Dut.BookBuilder.lessen f m.1 m.2.1).lookup k :=
        fun k hk => by rw [lookup_lessen, lookup_lessen, hf m.1 hne, hf k hk]
      obtain ⟨hother, hsame⟩ := ih (fun m' hm => hms m' (List.mem_cons_of_mem _ hm)) hstep
      refine ⟨hother, hsame.trans ?_⟩
      rw [lookup_lessen, if_neg hne.symm]

/-- The tables of two readers that part under `ref` alone go on to do so. -/
theorem aside (h : Fills ref v w n) {rd' : Reader} (hr : rd.read ≤ v.bodies.length) (hr' : rd'.read ≤ v.bodies.length)
    (hf : ∀ k ≠ ref, (v.listed rd').lookup k = (v.listed rd).lookup k) :
    (∀ k ≠ ref, (w.listed rd').lookup k = (w.listed rd).lookup k) ∧
      (w.listed rd').lookup ref = (v.listed rd').lookup ref := by
  obtain ⟨ms, hbodies, hne, -⟩ := h
  rw [(listed_of_bodies hr hbodies).1, (listed_of_bodies hr' hbodies).1]
  exact fold_aside ms hne hf

end Fills

/-- A client's order is not the tape's. -/
theorem Stands.client_ne (hs : Stands exact v d) {r : ℕ} (hr : r ∈ v.clientRefs) (hnone : d.owner ref = none) : r ≠ ref := by
  rintro rfl
  exact (hs.clients r).mp hr hnone

theorem crossLoop_fills (hs : Stands exact v d) (hnone : d.owner ref = none) (s : Side) (tick : ℤ) (fuel q : ℕ) :
    ∃ n, Fills ref v (crossLoop s tick fuel v q).2 n ∧ (crossLoop s tick fuel v q).1 + n = q := by
  induction fuel generalizing v d q with
  | zero => exact ⟨0, .of_sent rfl, rfl⟩
  | succ fuel ih =>
      unfold crossLoop
      simp only
      by_cases hq : q = 0
      · rw [if_pos hq]
        exact ⟨0, .of_sent rfl, rfl⟩
      rw [if_neg hq]
      by_cases hbest : (v.bestClient s tick).1 = 0
      · rw [if_pos hbest]
        exact ⟨0, .of_sent rfl, rfl⟩
      · rw [if_neg hbest]
        obtain ⟨hmem, l, hl, hhandle⟩ := bestClient_mem v s tick hbest
        rw [← hhandle]
        have hpos := hs.client_pos hl hmem
        have hcount := Tells.count v fun m => { m with crossFills := inc64 m.crossFills }
        generalize hf : (if q < v.qtyAt l.handle then q else v.qtyAt l.handle) = fill
        have hfill : 0 < fill ∧ fill ≤ v.qtyAt l.handle ∧ fill ≤ q := by
          rw [← hf]
          split_ifs <;> omega
        obtain ⟨d₁, hcalms, hspares⟩ := fillClient_moves (hs.tells hcount) hl hmem hfill.1 hfill.2.1
        obtain ⟨n, hfills, hsum⟩ := ih hcalms.stands (hspares.owner ref hnone) (q - fill)
        have hone : Fills ref (v.count fun m => { m with crossFills := inc64 m.crossFills }) _ fill :=
          .fillClient hl hfill.1.ne' (hs.client_ne hmem hnone)
        refine ⟨fill + n, ?_, by omega⟩
        exact (Nat.zero_add fill ▸ (Fills.of_sent rfl).trans hone).trans hfills

theorem shadowLoop_fills (hs : Stands exact v d) (hnone : d.owner ref = none) (s : Side) (tick : ℤ) (fuel i q : ℕ) :
    ∃ n, Fills ref v (shadowLoop s tick ref fuel i v q) n := by
  induction fuel generalizing v d i q with
  | zero => exact ⟨0, .of_sent rfl⟩
  | succ fuel ih =>
      unfold shadowLoop
      by_cases hgo : i < v.clientRefs.length ∧ q > 0
      · rw [if_pos hgo]
        have hmem : v.clientRefs.getD i 0 ∈ v.clientRefs := by
          rw [List.getD_eq_getElem _ _ hgo.1]
          exact List.getElem_mem hgo.1
        simp only
        cases hl : v.live.get? (v.clientRefs.getD i 0) with
        | none => exact ih hs hnone (i + 1) q
        | some l =>
            simp only
            by_cases hskip : l.side ≠ s ∨ ¬ v.isAhead s tick ref (v.clientRefs.getD i 0) l
            · rw [if_pos hskip]
              exact ih hs hnone (i + 1) q
            rw [if_neg hskip]
            have hpos := hs.client_pos hl hmem
            generalize hf : (if q < v.qtyAt l.handle then q else v.qtyAt l.handle) = fill
            have hfill : 0 < fill ∧ fill ≤ v.qtyAt l.handle := by
              rw [← hf]
              split_ifs <;> omega
            have hcount := Tells.count v fun m =>
              { m with shadowFills := inc64 m.shadowFills, shadowShares := (m.shadowShares + fill) % 2 ^ 64 }
            obtain ⟨d₁, hcalms, hspares⟩ := fillClient_moves (hs.tells hcount) hl hmem hfill.1 hfill.2
            obtain ⟨n, hfills⟩ := ih hcalms.stands (hspares.owner ref hnone) (if fill < v.qtyAt l.handle then i + 1 else i)
              (q - fill)
            have hone : Fills ref (v.count fun m =>
                { m with shadowFills := inc64 m.shadowFills, shadowShares := (m.shadowShares + fill) % 2 ^ 64 }) _ fill :=
              .fillClient hl hfill.1.ne' (hs.client_ne hmem hnone)
            exact ⟨0 + fill + n, ((Fills.of_sent rfl).trans hone).trans hfills⟩
      · rw [if_neg hgo]
        exact ⟨0, .of_sent rfl⟩

/-! ### Both books after a message of the tape -/

/-- A reference without an entry has no order. -/
theorem Stands.no_order (hs : Stands True v d) (href : ref ≠ 0) (hl : v.live.get? ref = none) : ∀ s, ∀ o ∈ d.orders s, o.id ≠ ref := by
  rintro s o ho rfl
  obtain ⟨l, hl', -⟩ := hs.listed trivial s o ho
  rw [FlatHashMap.lookup_eq_get? _ href, hl] at hl'
  cases hl'

/-- Shares of a tape order leave both books. -/
theorem takeShares_lists (hs : Stands True v d) (h : Lists Set.univ debt v.wirePerTick f d.orders) (href : ref ≠ 0)
    (hl : v.live.get? ref = some l) (hnone : d.owner ref = none) (shares : ℕ) :
    ∃ A', (v.takeShares ref shares l).engine.Queued A' ∧ Lists Set.univ debt v.wirePerTick (Dut.BookBuilder.lessen f ref shares) A' ∧
      (v.takeShares ref shares l).sent = v.sent ∧ (v.takeShares ref shares l).wirePerTick = v.wirePerTick := by
  obtain ⟨o, ho, hid, hhandle, -, hqty⟩ := hs.order_of_live (by rwa [FlatHashMap.lookup_eq_get? _ href])
  have hremove : ∀ w, Tells v [] w → (w.removeReal ref l).engine.Queued (d.orders.without l.side o.key) ∧
      (w.removeReal ref l).sent = v.sent ∧ (w.removeReal ref l).wirePerTick = v.wirePerTick := by
    intro w htells
    obtain ⟨b, heq, hb, -⟩ := engineCancel_eq (hs.tells htells) ho
    obtain ⟨hsent, hengine, hsteady⟩ := eraseLive_same { w with engine := b } ref
    unfold removeReal
    rw [hhandle, heq, hengine, hsent, hsteady.wirePerTick]
    exact ⟨hb, htells.sent.trans (List.append_nil _), htells.steady.wirePerTick⟩
  unfold takeShares
  simp only [hqty]
  generalize hw : (if shares > o.qty then v.count fun m => { m with overReduce := inc64 m.overReduce } else v) = w
  have htells : Tells v [] w := by
    rw [← hw]
    split_ifs
    · exact Tells.count v _
    · exact Tells.refl v
  split_ifs with hall
  · obtain ⟨hb, hsent, hwire⟩ := hremove w htells
    exact ⟨_, hb, hid ▸ h.lessen_all hs.sound.distinct ho hall, hsent, hwire⟩
  · have hsw := hs.tells htells
    have hsent : w.sent = v.sent := htells.sent.trans (List.append_nil _)
    rw [hhandle]
    by_cases hzero : shares = 0
    · have hsame : (w.engineReduce (some o.key) (o.qty - shares)).2 = w := by
        simp only [engineReduce, hsw.queued.reduce_of_le ho (show o.qty ≤ o.qty - shares by omega)]
      rw [hsame]
      refine ⟨_, hsw.queued, h.congr (fun _ _ _ => Iff.rfl) fun k _ => ?_, hsent, htells.steady.wirePerTick⟩
      rw [lookup_lessen]
      split_ifs with hk
      · rw [hk, ← hid, h.record _ o ho trivial, hzero, Option.bind_some, if_neg]
        · rfl
        · have := hs.sound.pos _ o ho
          simp only [recordOf]
          omega
      · rfl
    · obtain ⟨b, heq, hb, -⟩ := engineReduce_eq hsw ho (q := o.qty - shares) (by omega) (by omega)
      rw [heq]
      exact ⟨_, hb, hid ▸ h.lessen_some hs.sound.distinct ho (by omega), hsent, htells.steady.wirePerTick⟩

/-- Nothing is told of the engine's changes. -/
theorem listed_at (f : FiniteMap Dut.Resting) (hsent : w.sent = v.sent) : w.listed ⟨f, v.bodies.length⟩ = f := by
  rw [listed, bodies_of_sent hsent, List.drop_length]
  rfl

theorem Stands.reader (hs : Stands exact v d) (h : Lists Set.univ debt v.wirePerTick f d.orders) :
    Listed ⟨f, v.bodies.length⟩ Set.univ debt v :=
  ⟨Nat.le_refl _, d.orders, hs.queued, by rw [listed_at f rfl]; exact h⟩

/-- A message about an order that the venue does not know. -/
theorem Stands.unknown (hs : Stands True v d) (h : Lists Set.univ debt v.wirePerTick f d.orders) (href : ref ≠ 0)
    (hl : v.live.get? ref = none) (hf : ∀ k ≠ ref, f'.lookup k = f.lookup k)
    (hle : ∀ r, f'.lookup ref = some r → ∃ r', f.lookup ref = some r' ∧ r.shares ≤ r'.shares) :
    Lists Set.univ debt v.wirePerTick f' d.orders := by
  have hno := hs.no_order href hl
  refine h.aside hno hf fun r hr => ?_
  obtain ⟨r', hr', hrr⟩ := hle r hr
  exact hrr.trans (h.absent ref trivial hno r' hr')

theorem mirrorCancel_listed (hs : Stands True v d) (h : Lists Set.univ debt v.wirePerTick f d.orders) (href : ref ≠ 0)
    (hnone : d.owner ref = none) (shares : ℕ) :
    Listed ⟨Dut.BookBuilder.lessen f ref shares, v.bodies.length⟩ Set.univ debt (v.mirrorCancel ref shares) := by
  have hcount := Tells.count v fun m => { m with cancels := inc64 m.cancels }
  have hs₁ := hs.tells hcount
  rw [← hcount.steady.wirePerTick] at h
  rw [← hcount.bodies_nil]
  unfold mirrorCancel
  simp only
  generalize (v.count fun m => { m with cancels := inc64 m.cancels }) = w at hs₁ h ⊢
  cases hl : w.live.get? ref with
  | none =>
      exact (hs₁.reader (hs₁.unknown h href hl (fun k hk => by rw [lookup_lessen, if_neg hk])
        fun r hr => shares_le_of_lessen hr)).tells (Tells.count _ _) rfl
  | some l =>
      simp only
      obtain ⟨A', hb, hlists, hsent, hwire⟩ := takeShares_lists hs₁ h href hl hnone shares
      refine ⟨by rw [bodies_of_sent hsent], A', hb, ?_⟩
      rw [listed_at _ hsent, hwire]
      exact hlists

theorem mirrorDelete_listed (hs : Stands True v d) (h : Lists Set.univ debt v.wirePerTick f d.orders) (href : ref ≠ 0)
    (hnone : d.owner ref = none) : Listed ⟨f.erase ref, v.bodies.length⟩ Set.univ debt (v.mirrorDelete ref) := by
  have hcount := Tells.count v fun m => { m with deletes := inc64 m.deletes }
  have hs₁ := hs.tells hcount
  rw [← hcount.steady.wirePerTick] at h
  rw [← hcount.bodies_nil]
  unfold mirrorDelete
  simp only
  generalize (v.count fun m => { m with deletes := inc64 m.deletes }) = w at hs₁ h ⊢
  cases hl : w.live.get? ref with
  | none =>
      refine (hs₁.reader (hs₁.unknown h href hl (fun k hk => Finmap.lookup_erase_ne hk) fun r hr => ?_)).tells
        (Tells.count _ _) rfl
      rw [Finmap.lookup_erase] at hr
      cases hr
  | some l =>
      simp only
      obtain ⟨o, ho, rfl, hf⟩ := removeReal_calms hs₁ href hl hnone
      obtain ⟨hlisted, hread⟩ := hf.listed (Nat.le_refl _ : (Reader.mk (f.erase o.id) w.bodies.length).read ≤ _)
      refine ⟨hread, _, hf.queued, ?_⟩
      rw [hlisted, hf.steady.wirePerTick, listed_at _ rfl]
      exact h.erase hs₁.sound.distinct ho

/-- **An execution of the tape**: the clients before the order are filled first, and the reader
has lessened the order before. -/
theorem mirrorExecute_listed (hs : Stands True v d) (h : Lists Set.univ debt v.wirePerTick f d.orders) (href : ref ≠ 0)
    (hnone : d.owner ref = none) (shares : ℕ) :
    Listed ⟨Dut.BookBuilder.lessen f ref shares, v.bodies.length⟩ Set.univ debt (v.mirrorExecute ref shares) := by
  have hcount := Tells.count v fun m => { m with executes := inc64 m.executes }
  have hs₁ := hs.tells hcount
  rw [← hcount.steady.wirePerTick] at h
  rw [← hcount.bodies_nil]
  unfold mirrorExecute
  simp only
  generalize (v.count fun m => { m with executes := inc64 m.executes }) = w at hs₁ h ⊢
  cases hl : w.live.get? ref with
  | none =>
      exact (hs₁.reader (hs₁.unknown h href hl (fun k hk => by rw [lookup_lessen, if_neg hk])
        fun r hr => shares_le_of_lessen hr)).tells (Tells.count _ _) rfl
  | some l =>
      simp only
      have hread := hs₁.reader h
      have hshadow : ∃ n d₁ x, (if w.clientRefs ≠ [] then w.shadowFill l.side l.tick ref shares else w) = x ∧
          Listed ⟨f, w.bodies.length⟩ Set.univ debt x ∧ Fills ref w x n ∧ Stands True x d₁ ∧ Spares w d x d₁ := by
        split_ifs
        · obtain ⟨d₁, hcalms, hspares⟩ := shadowLoop_calms hs₁ l.side l.tick ref w.clientRefs.length 0 shares
          obtain ⟨n, hfills⟩ := shadowLoop_fills hs₁ hnone l.side l.tick w.clientRefs.length 0 shares
          exact ⟨n, d₁, _, rfl, hread.shadowLoop hs₁ .., hfills, hcalms.stands, hspares⟩
        · exact ⟨0, d, w, rfl, hread, .of_sent rfl, hs₁, .refl w d⟩
      obtain ⟨n, d₁, x, hx, hlisted, hfills, hsx, hspares⟩ := hshadow
      rw [hx]
      -- the message goes out before the fills, which leave its order alone
      have hpart : ∀ g : FiniteMap Dut.Resting, (∀ k ≠ ref, g.lookup k = f.lookup k) →
          (∀ k ≠ ref, (x.listed ⟨g, w.bodies.length⟩).lookup k = (x.listed ⟨f, w.bodies.length⟩).lookup k) ∧
            (x.listed ⟨g, w.bodies.length⟩).lookup ref = g.lookup ref := by
        intro g hg
        obtain ⟨hother, hsame⟩ := hfills.aside (Nat.le_refl _ : (Reader.mk f w.bodies.length).read ≤ _)
          (Nat.le_refl _ : (Reader.mk g w.bodies.length).read ≤ _) (by rw [listed_at f rfl, listed_at g rfl]; exact hg)
        exact ⟨hother, by rw [hsame, listed_at g rfl]⟩
      obtain ⟨A', hb, hlists, hsent, hwire⟩ := takeShares_lists hsx (hlisted.lists hsx.queued) href
        ((hspares.live ref href hnone).trans hl) (hspares.owner ref hnone) shares
      refine ⟨by rw [bodies_of_sent hsent]; exact hlisted.read, A', hb, ?_⟩
      rw [listed_of_sent hsent, hwire]
      refine hlists.congr (fun _ _ _ => Iff.rfl) fun k _ => ?_
      obtain ⟨hother, hsame⟩ := hpart (Dut.BookBuilder.lessen f ref shares) fun k hk => by rw [lookup_lessen, if_neg hk]
      rw [lookup_lessen]
      split_ifs with hk
      · rw [hk, hsame, lookup_lessen, if_pos rfl, (hpart f fun _ _ => rfl).2]
      · exact hother k hk

/-- A valid price is that of its tick. -/
theorem validPrice_wire {wire : ℕ} {tick : ℤ} (hp : v.validPrice wire = some tick) (hwire : wire < 2 ^ 32) :
    wireOf v.wirePerTick tick = wire := by
  unfold validPrice at hp
  simp only at hp
  split_ifs at hp with hgrid hrange
  cases hp
  have hmul : wire / v.wirePerTick * v.wirePerTick = wire := by
    rw [Nat.mul_comm]
    exact Nat.mul_div_cancel' (Nat.dvd_of_mod_eq_zero (not_not.mp hgrid))
  have hlt : wire / v.wirePerTick < 2 ^ 32 := Nat.lt_of_le_of_lt (Nat.div_le_self ..) hwire
  have hu : u32 (toPrice (wire / v.wirePerTick)) = wire / v.wirePerTick := by
    unfold u32 toPrice
    split_ifs <;> omega
  rw [wireOf, hu, hmul, Nat.mod_eq_of_lt hwire]

theorem Steady.validPrice (h : Steady v w) (wire : ℕ) : w.validPrice wire = v.validPrice wire := by
  unfold Venue.validPrice
  rw [h.wirePerTick, h.minTick, h.maxTick]

/-- **A new order of the tape**: the clients that it crosses take some of it, and what is left
rests, while the reader has all of it. -/
theorem mirrorAdd_listed (hs : Stands True v d) (hfair : v.Fair) (h : Lists Set.univ debt v.wirePerTick f d.orders)
    (hnone : d.owner ref = none) (hfresh : ∀ s', ∀ x ∈ d.orders s', x.id ≠ ref) {wire : ℕ} (hwire : wire < 2 ^ 32)
    (hf : ∀ k ≠ ref, f'.lookup k = f.lookup k) (hr : q ≠ 0 → f'.lookup ref = some ⟨toPrice wire, q, s, false⟩)
    (hzero : q = 0 → ∀ r, f'.lookup ref = some r → r.shares ≤ debt ref)
    (hdebt : debt ref = v.missed (.mirrorAdd ref s wire q)) :
    Listed ⟨f', v.bodies.length⟩ Set.univ debt (v.mirrorAdd ref s wire q) := by
  have hcount := Tells.count v fun m => { m with adds := inc64 m.adds }
  have hs₁ := hs.tells hcount
  have hfair₁ := hfair.of_steady hcount.steady
  rw [← hcount.steady.wirePerTick] at h
  have hmissed : v.missed (.mirrorAdd ref s wire q) =
      if (v.validPrice wire).isSome then executedShares (told v (v.mirrorAdd ref s wire q)) else q := rfl
  rw [hmissed, ← hcount.steady.validPrice wire] at hdebt
  unfold told at hdebt
  rw [← hcount.bodies_nil] at hdebt ⊢
  unfold mirrorAdd at hdebt ⊢
  simp only at hdebt ⊢
  generalize (v.count fun m => { m with adds := inc64 m.adds }) = w at hs₁ hfair₁ h hdebt ⊢
  -- what the reader has of the order, and none of it rests
  have howed : ∀ {g : FiniteMap Dut.Resting}, g.lookup ref = f'.lookup ref → q ≤ debt ref → ∀ r, g.lookup ref = some r →
      r.shares ≤ debt ref := by
    intro g hg hle r hgr
    rw [hg] at hgr
    by_cases hq : q = 0
    · exact hzero hq r hgr
    · rw [hr hq] at hgr
      rw [← Option.some.inj hgr]
      exact hle
  cases hp : w.validPrice wire with
  | none =>
      simp only [hp, Option.isSome_none, Bool.false_eq_true, if_false] at hdebt
      exact (hs₁.reader (h.aside hfresh hf (howed rfl hdebt.ge))).tells (Tells.count _ _) rfl
  | some tick =>
      simp only [hp, Option.isSome_some, if_true] at hdebt ⊢
      have hcross : ∃ n d₁ rem x, (if w.clientRefs ≠ [] then w.crossClients s tick q else (q, w)) = (rem, x) ∧
          Listed ⟨f, w.bodies.length⟩ Set.univ debt x ∧ Fills ref w x n ∧ rem + n = q ∧ Calms True w d x d₁ := by
        split_ifs
        · obtain ⟨d₁, hcalms, -⟩ := crossLoop_calms hs₁ s tick (w.clientRefs.length + 1) q
          obtain ⟨n, hfills, hsum⟩ := crossLoop_fills hs₁ hnone s tick (w.clientRefs.length + 1) q
          have hlisted := (hs₁.reader h).crossLoop hs₁ s tick (w.clientRefs.length + 1) q
          exact ⟨n, d₁, _, _, (Prod.mk.eta (p := w.crossClients s tick q)).symm, hlisted, hfills, hsum, hcalms⟩
        · exact ⟨0, d, q, w, rfl, hs₁.reader h, .of_sent rfl, rfl, .refl hs₁⟩
      obtain ⟨n, d₁, rem, x, hx, hlisted, hfills, hsum, hcalms⟩ := hcross
      rw [hx] at hdebt ⊢
      simp only at hdebt ⊢
      obtain ⟨hother, hsame⟩ := hfills.aside (Nat.le_refl _ : (Reader.mk f w.bodies.length).read ≤ _)
        (Nat.le_refl _ : (Reader.mk f' w.bodies.length).read ≤ _) (by rw [listed_at f rfl, listed_at f' rfl]; exact hf)
      rw [listed_at f' rfl] at hsame
      have hfresh₁ : ∀ s', ∀ y ∈ d₁.orders s', y.id ≠ ref := by
        intro s' y hy
        obtain ⟨xs, hf, hxs, -⟩ := hcalms
        obtain ⟨y₀, hy₀, hid⟩ | ⟨c, hc⟩ := hf.does.mem hs₁.sound hy
        · rw [← hid]
          exact hfresh s' y₀ hy₀
        · rw [Desk.arrivals_calm hxs] at hc
          cases hc
      have hlists := hlisted.lists hcalms.stands.queued
      have htold := hfills.told_eq
      by_cases hrem : rem = 0
      · rw [if_pos hrem] at hdebt ⊢
        rw [← told, htold] at hdebt
        refine ⟨hlisted.read, d₁.orders, hcalms.stands.queued, hlists.aside hfresh₁ hother (howed hsame ?_)⟩
        omega
      rw [if_neg hrem] at hdebt ⊢
      have hrange : x.engine.InRange tick := hcalms.steady.inRange.mpr (hfair₁.inRange hp)
      obtain ⟨k, b, heq, hkey, hb, -⟩ := hcalms.stands.queued.place ref s hrem hrange
      rw [heq] at hdebt ⊢
      simp only at hdebt ⊢
      have hdebt : debt ref = n := hdebt.trans htold
      refine ⟨hlisted.read, _, hb, ?_⟩
      refine hlists.rest hfresh₁ hother ?_
      refine hsame.trans ((hr (by omega)).trans ?_)
      have hprice : wireOf x.wirePerTick tick = wire := by
        rw [hcalms.steady.wirePerTick]
        exact validPrice_wire hp hwire
      simp only [recordOf]
      rw [hdebt, hprice, hsum]

/-- **An order of the tape replaces another**: one that the venue has lost stays lost. -/
theorem mirrorReplace_listed (hs : Stands True v d) (hfair : v.Fair) (h : Lists Set.univ debt v.wirePerTick f d.orders)
    {orig : ℕ} (horig : orig ≠ 0) (horigNone : d.owner orig = none) (hnone : d.owner ref = none)
    (hfresh : ∀ s', ∀ x ∈ d.orders s', x.id ≠ ref) {wire : ℕ} (hwire : wire < 2 ^ 32) (shares : ℕ)
    (hdebt : debt ref = v.missed (.mirrorReplace orig ref shares wire)) :
    Listed ⟨account 0 f (.orderReplace orig ref shares wire), v.bodies.length⟩ Set.univ debt
      (v.mirrorReplace orig ref shares wire) := by
  have hcount := Tells.count v fun m => { m with replaces := inc64 m.replaces }
  have hs₁ := hs.tells hcount
  have hfair₁ := hfair.of_steady hcount.steady
  rw [← hcount.steady.wirePerTick] at h
  have hmissed : v.missed (.mirrorReplace orig ref shares wire) =
      if (v.live.get? orig).isSome ∧ (v.validPrice wire).isSome then
        executedShares (told v (v.mirrorReplace orig ref shares wire)) else shares := rfl
  rw [hmissed, ← hcount.steady.validPrice wire, ← hcount.live] at hdebt
  unfold told at hdebt
  rw [← hcount.bodies_nil] at hdebt ⊢
  unfold mirrorReplace at hdebt ⊢
  simp only at hdebt ⊢
  generalize (v.count fun m => { m with replaces := inc64 m.replaces }) = w at hs₁ hfair₁ h hdebt ⊢
  cases hl : w.live.get? orig with
  | none =>
      simp only [hl, Option.isSome_none, Bool.false_eq_true, false_and, if_false] at hdebt
      have hno := hs₁.no_order horig hl
      refine (hs₁.reader ?_).tells (Tells.count _ _) rfl
      cases hr : f.lookup orig with
      | none =>
          simp only [account, hr]
          exact h
      | some r =>
          simp only [account, hr]
          have herase : Lists Set.univ debt w.wirePerTick (f.erase orig) d.orders :=
            h.aside hno (fun k hk => Finmap.lookup_erase_ne hk) fun r' hr' => by
              rw [Finmap.lookup_erase] at hr'
              cases hr'
          split_ifs
          · exact herase
          · refine herase.aside hfresh (fun k hk => Finmap.lookup_insert_of_ne _ hk) fun r' hr' => ?_
            rw [Finmap.lookup_insert] at hr'
            rw [← Option.some.inj hr', hdebt]
  | some l =>
      simp only [hl, Option.isSome_some, true_and] at hdebt ⊢
      obtain ⟨o, ho, rfl, hf⟩ := removeReal_calms hs₁ horig hl horigNone
      have hcount₂ := Tells.count (w.removeReal o.id l) fun m => { m with adds := dec64 m.adds }
      have hs₂ := hf.stands.tells hcount₂
      have hsteady := hf.steady.trans hcount₂.steady
      have hbodies : ((w.removeReal o.id l).count fun m => { m with adds := dec64 m.adds }).bodies = w.bodies :=
        hcount₂.bodies_nil.trans ((hf.md).trans (List.append_nil _))
      have hnone' : (d.leave l.side o).owner ref = none := by
        unfold Desk.leave
        by_cases hr : ref = o.id
        · simp [hr]
        · simpa [hr] using hnone
      have hwithout : ∀ s', ∀ x ∈ (d.leave l.side o).orders s', x.id ≠ ref := fun s' x hx =>
        hfresh s' x ((Sides.mem_without hs₁.sound.distinct ho).mp hx).1
      have hlists := h.erase hs₁.sound.distinct ho
      rw [← hsteady.wirePerTick] at hlists
      rw [← hsteady.validPrice wire, ← hbodies] at hdebt
      rw [← hbodies]
      generalize ((w.removeReal o.id l).count fun m => { m with adds := dec64 m.adds }) = y at hs₂ hsteady hlists hdebt ⊢
      have hrecord : f.lookup o.id = some (recordOf w.wirePerTick (debt o.id) l.side o) := h.record _ o ho trivial
      have htable : account 0 f (.orderReplace o.id ref shares wire) =
          if shares = 0 then f.erase o.id else (f.erase o.id).insert ref ⟨toPrice wire, shares, l.side, false⟩ := by
        simp only [account, hrecord]
        rfl
      refine mirrorAdd_listed hs₂ (hfair₁.of_steady hsteady) hlists hnone' hwithout hwire (fun k hk => ?_) (fun hq => ?_)
        (fun hq r hr => ?_) hdebt
      · rw [htable]
        split_ifs
        · rfl
        · exact Finmap.lookup_insert_of_ne _ hk
      · rw [htable, if_neg hq]
        exact Finmap.lookup_insert _
      · rw [htable, if_pos hq] at hr
        exact hlists.absent ref trivial hwithout r hr

/-! ### A day -/

/-- The price of an order that a message tells of. -/
def priceOf : Itch.Body → ℕ
  | .addOrder _ _ _ price => price
  | .orderReplace _ _ _ price => price
  | _ => 0

/-- The prices of the tape are 32-bit words. -/
def Priced (events : List Event) : Prop := ∀ e ∈ events, ∀ body ∈ e.forwarded, priceOf body < 2 ^ 32

instance (events : List Event) : Decidable (Priced events) :=
  inferInstanceAs (Decidable (∀ e ∈ events, ∀ body ∈ e.forwarded, priceOf body < 2 ^ 32))

/-- **An event keeps the two books together**, when what the venue misses of a new tape order is
its debt. -/
theorem Listed.take (hs : Stands True v d) (hfair : v.Fair) (h : Lists Set.univ debt v.wirePerTick f d.orders) {e : Event}
    (hready : ∀ op, e.op? = some op → Ready True v d op) (hpriced : ∀ body ∈ e.forwarded, priceOf body < 2 ^ 32)
    (hnew : ∀ op, e.op? = some op → ∀ ref ∈ op.tapeNew, debt ref = v.missed op)
    (hown : ∀ op, e.op? = some op → (v.step op).nextOrderRef ≠ v.nextOrderRef → debt v.nextOrderRef = 0) :
    Listed ⟨e.forwarded.foldl (account 0) f, v.bodies.length⟩ Set.univ debt (e.op?.elim v v.step) := by
  have hread := hs.reader h
  cases e with
  | request m =>
      exact hread.step hs (hready _ rfl) hfair (fun _ href => absurd href List.not_mem_nil) (fun _ _ _ => trivial)
        (hown _ rfl) fun hday => by cases hday
  | injectSynthetic s tick q =>
      exact hread.step hs (hready _ rfl) hfair (fun _ href => absurd href List.not_mem_nil) (fun _ _ _ => trivial)
        (hown _ rfl) fun hday => by cases hday
  | cancelSynthetic ref =>
      exact hread.step hs (hready _ rfl) hfair (fun _ href => absurd href List.not_mem_nil) (fun _ _ _ => trivial)
        (hown _ rfl) fun hday => by cases hday
  | tape body =>
      have hpriced := hpriced body List.mem_cons_self
      change Listed ⟨account 0 f body, _⟩ _ _ ((opOf body).elim v v.step)
      cases body with
      | addOrder ref s shares wire =>
          have hready := hready _ rfl
          obtain ⟨-, hnone⟩ := hready.tape ref List.mem_cons_self
          have hfresh := hready.unique trivial ref List.mem_cons_self
          refine mirrorAdd_listed hs hfair h hnone hfresh hpriced (fun k hk => ?_) (fun hq => ?_) (fun hq r hr => ?_)
            (hnew _ rfl ref List.mem_cons_self)
          · simp only [account]
            split_ifs
            · rfl
            · exact Finmap.lookup_insert_of_ne _ hk
          · simp only [account, if_neg hq, Finmap.lookup_insert]
            rfl
          · simp only [account, if_pos hq] at hr
            exact h.absent ref trivial hfresh r hr
      | orderExecuted ref shares mn =>
          obtain ⟨href, hnone⟩ := (hready _ rfl).tape ref List.mem_cons_self
          exact mirrorExecute_listed hs h href hnone shares
      | orderExecutedWithPrice ref shares mn price =>
          obtain ⟨href, hnone⟩ := (hready _ rfl).tape ref List.mem_cons_self
          exact mirrorExecute_listed hs h href hnone shares
      | orderCancel ref shares =>
          obtain ⟨href, hnone⟩ := (hready _ rfl).tape ref List.mem_cons_self
          exact mirrorCancel_listed hs h href hnone shares
      | orderDelete ref =>
          obtain ⟨href, hnone⟩ := (hready _ rfl).tape ref List.mem_cons_self
          exact mirrorDelete_listed hs h href hnone
      | orderReplace orig ref shares wire =>
          have hready := hready _ rfl
          obtain ⟨horig, horigNone⟩ := hready.tape orig List.mem_cons_self
          obtain ⟨-, hnone⟩ := hready.tape ref (List.mem_cons_of_mem _ List.mem_cons_self)
          exact mirrorReplace_listed hs hfair h horig horigNone hnone (hready.unique trivial ref List.mem_cons_self) hpriced
            shares (hnew _ rfl ref List.mem_cons_self)
      | _ => exact hread

/-- The book of a reader of what has gone out. -/
def Relay.book (x : Relay) : FiniteMap Dut.Resting := x.feed.foldl (account 0) ∅

theorem Relay.run_append (x : Relay) (events events' : List Event) : x.run (events ++ events') = (x.run events).run events' :=
  List.foldl_append ..

theorem callsOf_append (events events' : List Event) : callsOf (events ++ events') = callsOf events ++ callsOf events' :=
  List.filterMap_append ..

/-- The shortfall of a reference that the tape uses once. -/
theorem shortfall_of_new {ops : List Op} (hunique : TapeUnique ops) {pre post : List Op} {op : Op} (heq : ops = pre ++ op :: post)
    (href : ref ∈ op.tapeNew) : shortfall v ops ref = (v.run pre).missed op := by
  subst heq
  induction pre generalizing v with
  | nil => exact if_pos href
  | cons op' pre ih =>
      rw [List.cons_append, TapeUnique, List.flatMap_cons] at hunique
      obtain ⟨-, hnodup, hdisj⟩ := List.nodup_append.mp hunique
      have hmem : ref ∈ (pre ++ op :: post).flatMap Op.tapeNew :=
        List.mem_flatMap.mpr ⟨op, List.mem_append_right _ List.mem_cons_self, href⟩
      rw [List.cons_append, shortfall, if_neg fun hm => hdisj ref hm ref hmem rfl]
      exact ih hnodup

theorem shortfall_of_other {ops : List Op} (h : ∀ op ∈ ops, ref ∉ op.tapeNew) : shortfall v ops ref = 0 := by
  induction ops generalizing v with
  | nil => rfl
  | cons op ops ih =>
      rw [shortfall, if_neg (h op List.mem_cons_self)]
      exact ih fun op' hop' => h op' (List.mem_cons_of_mem _ hop')

/-- **Along a day the reader's book stands for the engine.** The induction is on the day, from
its end, with the desk that the calls before it leave. -/
theorem mirrored_run {d₀ : Desk ℕ} (hkept : Kept True v.nextOrderRef [] [] [] [] v d₀) (hpos : 0 < v.nextOrderRef)
    (hfair : v.Fair) (hlisted : Listed ⟨∅, v.bodies.length⟩ Set.univ debt v) {events : List Event}
    (h : Orderly v (callsOf events)) (hunique : TapeUnique (callsOf events)) (hwrap : NoWrap v (callsOf events))
    (hpriced : Priced events)
    (hnew : ∀ pre op post, callsOf events = pre ++ op :: post → ∀ ref ∈ op.tapeNew, debt ref = (v.run pre).missed op)
    (hown : ∀ ref ∈ v.handedOut (callsOf events), debt ref = 0) :
    Listed ⟨((Relay.mk v []).run events).book, ((Relay.mk v []).run events).venue.bodies.length⟩ Set.univ debt
      ((Relay.mk v []).run events).venue := by
  induction events using List.reverseRecOn with
  | nil => exact hlisted
  | append_singleton events e ih =>
      have hcall : ∀ op, e.op? = some op → callsOf [e] = [op] := fun op hop => by
        rw [callsOf, List.filterMap_cons, hop]
        rfl
      rw [callsOf_append] at h hunique hwrap hnew hown
      have hlisted := ih h.of_append hunique.of_append hwrap.of_append
        (fun e' he => hpriced e' (List.mem_append_left _ he))
        (fun pre op post heq => hnew pre op (post ++ callsOf [e]) (by rw [heq]; simp))
        (fun ref href => hown ref (by rw [handedOut_append]; exact List.mem_append_left _ href))
      obtain ⟨xs, d, hf, hk, -⟩ := kept_run hkept hpos h.of_append hwrap.of_append fun _ => hunique.of_append
      have hready : ∀ op, e.op? = some op → Ready True (v.run (callsOf events)) d op := fun op hop => by
        rw [hcall op hop] at h hwrap hunique
        exact (hk.ready_next hpos h hwrap fun _ => hunique).1
      have hfair' : Fair { v with nextOrderRef := (v.run (callsOf events)).nextOrderRef } :=
        ⟨hfair.least, hfair.greatest, hfair.low, hfair.ordered, hfair.high⟩
      have hvenue : ((Relay.mk v []).run events).venue = v.run (callsOf events) := Relay.venue_run ..
      rw [Relay.run_append]
      generalize (Relay.mk v []).run events = x at hlisted hvenue ⊢
      have hnew' : ∀ op, e.op? = some op → ∀ ref ∈ op.tapeNew, debt ref = x.venue.missed op := fun op hop ref href => by
        rw [hvenue]
        exact hnew (callsOf events) op [] (by rw [hcall op hop]) ref href
      have hown' : ∀ op, e.op? = some op → (x.venue.step op).nextOrderRef ≠ x.venue.nextOrderRef →
          debt x.venue.nextOrderRef = 0 := fun op hop hne => by
        refine hown _ ?_
        rw [handedOut_append, hcall op hop, ← hvenue, handedOut_one, if_neg hne]
        exact List.mem_append_right _ List.mem_cons_self
      rw [← hvenue] at hk hf hready hfair'
      have hlists := hlisted.lists hk.queued
      rw [listed_at _ rfl] at hlists
      obtain ⟨hread, A, hb, hl⟩ := Listed.take hk.toStands (hfair'.of_steady hf.steady) hlists hready
        (hpriced e (List.mem_append_right _ List.mem_cons_self)) hnew' hown'
      -- the reader has read what has gone out before, and now the rest
      have hbook : (x.take e).book = (x.take e).venue.listed ⟨e.forwarded.foldl (account 0) x.book, x.venue.bodies.length⟩ := by
        simp only [Relay.book, Relay.take, List.foldl_append]
        rfl
      change Listed ⟨(x.take e).book, (x.take e).venue.bodies.length⟩ Set.univ debt (x.take e).venue
      refine ⟨Nat.le_refl _, A, hb, ?_⟩
      rw [listed_at _ rfl, hbook]
      exact hl

/-- The orders of a venue and those of its reader, in terms of the levels of the engine. -/
theorem Listed.both (h : Listed ⟨f, v.bodies.length⟩ Set.univ debt v) (hf : Positive f) :
    (∀ s p, ∀ o ∈ v.engine.ordersAtLevel s p, f.lookup o.id = some ⟨toPrice (wireOf v.wirePerTick p), o.qty + debt o.id, s, false⟩) ∧
      ∀ ref r, f.lookup ref = some r → ¬ v.Rests ref → 0 < r.shares ∧ r.shares ≤ debt ref := by
  obtain ⟨-, A, hb, hl⟩ := h
  rw [listed_at f rfl] at hl
  refine ⟨fun s p c hc => ?_, fun ref r hr hno => ⟨hf ref r hr, hl.absent ref trivial (fun s o ho hid => ?_) r hr⟩⟩
  · rw [OrderBook.ordersAtLevel_eq_map] at hc
    obtain ⟨k, hk, rfl⟩ := List.mem_map.mp hc
    obtain ⟨o, ho, rfl, rfl⟩ := hb.mem_handles.mp hk
    rw [(hb.cell ho).1, hl.record s o ho trivial, recordOf, hb.order_qty ho]
  · exact hno ((rests_iff hb).mpr ⟨s, o, ho, hid⟩)

end

/-- **The tape on both ends**: along an orderly day the reader of the feed has every order that
rests in the engine, on the same side, at the same price and with the same shares but for those
that the venue never had of it. What the reader has beyond that is within what the venue never
had, which is nothing of the venue's own orders. -/
theorem mirrored_both_ends (symbol : List UInt8) (stockLocate : ℕ) (minTick maxTick : ℤ)
    (wirePerTick firstOrderRef liveReserve stray : ℕ) (hfirst : firstOrderRef < 2 ^ 64) (hlow : -2 ^ 31 ≤ minTick)
    (hordered : minTick ≤ maxTick) (hhigh : maxTick < 2 ^ 31) (events : List Event)
    (h : Orderly (new symbol stockLocate minTick maxTick wirePerTick firstOrderRef liveReserve stray) (callsOf events))
    (hunique : TapeUnique (callsOf events))
    (hwrap : NoWrap (new symbol stockLocate minTick maxTick wirePerTick firstOrderRef liveReserve stray) (callsOf events))
    (hpriced : Priced events) :
    let v := new symbol stockLocate minTick maxTick wirePerTick firstOrderRef liveReserve stray
    let x := (Relay.mk v []).run events
    let short := shortfall v (callsOf events)
    (∀ s p, ∀ o ∈ x.venue.engine.ordersAtLevel s p,
        x.book.lookup o.id = some ⟨toPrice (wireOf x.venue.wirePerTick p), o.qty + short o.id, s, false⟩) ∧
      (∀ ref r, x.book.lookup ref = some r → ¬ x.venue.Rests ref → 0 < r.shares ∧ r.shares ≤ short ref) ∧
      ∀ ref ∈ v.handedOut (callsOf events), short ref = 0 := by
  simp only
  obtain ⟨hkept, hpos⟩ := @kept_new True symbol stockLocate minTick maxTick wirePerTick firstOrderRef liveReserve stray
    hfirst
  have hlisted : ∀ debt, Listed
      ⟨∅, (new symbol stockLocate minTick maxTick wirePerTick firstOrderRef liveReserve stray).bodies.length⟩ Set.univ debt
      (new symbol stockLocate minTick maxTick wirePerTick firstOrderRef liveReserve stray) := fun debt => listed_new ..
  have hfair : (new symbol stockLocate minTick maxTick wirePerTick firstOrderRef liveReserve stray).Fair :=
    ⟨rfl, rfl, hlow, hordered, hhigh⟩
  generalize new symbol stockLocate minTick maxTick wirePerTick firstOrderRef liveReserve stray = v at h hwrap hkept hpos hlisted hfair ⊢
  have hown : ∀ ref ∈ v.handedOut (callsOf events), shortfall v (callsOf events) ref = 0 := fun ref href =>
    shortfall_of_other fun op hop hnew => (h.tape op hop ref (op.tapeNew_subset hnew)).2 href
  have hrun := mirrored_run hkept hpos hfair (hlisted _) h hunique hwrap hpriced
    (fun pre op post heq ref href => shortfall_of_new hunique heq href) hown
  obtain ⟨hboth, hnone⟩ := hrun.both (positive_fold _ positive_empty)
  exact ⟨hboth, hnone, hown⟩

/-- A tape order that meets a client's on its arrival, and is traded with. -/
def sampleEvents : List Event :=
  [.request (.enterOrder ⟨1, .buy, 30, [65], 4900, .day⟩), .tape (.addOrder 7 .sell 60 4800), .tape (.orderExecuted 7 10 1)]

theorem sampleEvents_orderly : Orderly sampleVenue (callsOf sampleEvents) ∧ TapeUnique (callsOf sampleEvents) ∧
    NoWrap sampleVenue (callsOf sampleEvents) := by
  refine ⟨⟨by decide +kernel, by decide +kernel, by decide +kernel, synthetics_of_split (by decide +kernel)⟩,
    by decide +kernel, by decide +kernel⟩

/-- Of the sixty shares of the tape's order the client has taken thirty. -/
theorem mirrored_both_ends_sample :
    ((Relay.mk sampleVenue []).run sampleEvents).book.lookup 7 = some ⟨4800, 20 + 30, .sell, false⟩ := by
  obtain ⟨hboth, -⟩ := mirrored_both_ends [65] 1 1 100000 100 (2 ^ 62) 16 0 (by decide) (by decide) (by decide) (by decide)
    sampleEvents sampleEvents_orderly.1 sampleEvents_orderly.2.1 sampleEvents_orderly.2.2 (by decide)
  have hsample : new [65] 1 1 100000 100 (2 ^ 62) 16 0 = sampleVenue := rfl
  rw [Relay.venue_run, hsample] at hboth
  have hmem : (⟨7, 48, 20, .sell, none, none⟩ : Order) ∈
      (sampleVenue.run (callsOf sampleEvents)).engine.ordersAtLevel .sell 48 := by decide +kernel
  have hwire : toPrice (wireOf (sampleVenue.run (callsOf sampleEvents)).wirePerTick 48) = 4800 := by decide +kernel
  have hshort : shortfall sampleVenue (callsOf sampleEvents) 7 = 30 := by decide +kernel
  have hat := hboth .sell 48 _ hmem
  simp only [hwire, hshort] at hat
  exact hat

end Venue

/-! ### The session -/

/-- What a message that goes out says. -/
def Output.body? : Output → Option Itch.Body
  | .tape msg => some (Itch.decode msg).body
  | .venue m => m.data?.map Itch.Msg.body

namespace ExchangeSession

/-- The market data of a session. -/
def feed (s : ExchangeSession) : List Itch.Body := s.out.filterMap Output.body?

theorem filterMap_venue (ms : List Sent) :
    (ms.map Output.venue).filterMap Output.body? = (ms.filterMap Sent.data?).map Itch.Msg.body := by
  induction ms with
  | nil => rfl
  | cons m ms ih =>
      rw [List.map_cons, List.filterMap_cons, List.filterMap_cons, ih]
      cases hm : m.data? with
      | none => simp [Output.body?, hm]
      | some x => simp [Output.body?, hm]

/-- A call of a venue goes out as the relay says. -/
theorem atVenue_relays (s : ExchangeSession) {i : ℕ} {v : Venue} (hv : s.venues[i]? = some v) (op : Venue.Op) :
    (s.atVenue i (·.step op)).venues[i]? = some (v.step op) ∧
      (s.atVenue i (·.step op)).feed = s.feed ++ Venue.told v (v.step op) := by
  obtain ⟨hlt, -⟩ := List.getElem?_eq_some_iff.mp hv
  obtain ⟨msgs, hsent⟩ := Venue.sent_grows v op
  have htold : Venue.told v (v.step op) = (msgs.filterMap Sent.data?).map Itch.Msg.body := by
    rw [Venue.told, Venue.bodies, Venue.bodies, Venue.md, Venue.md, ← hsent, List.filterMap_append, List.map_append,
      List.drop_left]
  unfold atVenue
  rw [hv]
  refine ⟨List.getElem?_set_self hlt, ?_⟩
  simp only [feed]
  rw [htold, ← hsent, List.drop_left, List.filterMap_append, filterMap_venue]

/-- **A message of the tape** goes out and is mirrored as the relay says. -/
theorem replayMessage_relays (s : ExchangeSession) {msg : List UInt8} (hlen : 11 ≤ msg.length)
    (hdir : IsDirectory (Itch.decode msg).body = false) {i : ℕ} (hat : s.venueAt (Itch.decode msg).locate = some i) {v : Venue}
    (hv : s.venues[i]? = some v) :
    let x := (Venue.Relay.mk v s.feed).take (.tape (Itch.decode msg).body)
    (s.replayMessage msg).venues[i]? = some x.venue ∧ (s.replayMessage msg).feed = x.feed := by
  have hmirror : s.replayMessage msg = (s.forward msg).mirror i (Itch.decode msg).body := by
    rw [replayMessage_eq s hlen, hat]
    generalize (Itch.decode msg).body = body at hdir ⊢
    cases body <;> first | rfl | cases hdir
  have hforward : (s.forward msg).feed = s.feed ++ [(Itch.decode msg).body] := by
    unfold feed
    exact List.filterMap_append ..
  rw [hmirror, mirror, Venue.mirrorOf_eq]
  unfold Venue.Relay.take Venue.Event.op?
  simp only
  cases hop : Venue.opOf (Itch.decode msg).body with
  | none =>
      refine ⟨hv, hforward.trans ?_⟩
      simp [Venue.Event.forwarded, Venue.told]
  | some op =>
      obtain ⟨hvenue, hfeed⟩ := (s.forward msg).atVenue_relays (i := i) hv op
      refine ⟨hvenue, hfeed.trans ?_⟩
      rw [hforward, List.append_assoc]
      rfl

end ExchangeSession

end TickToTrade.Sim
