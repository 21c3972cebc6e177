import Mathlib.Data.List.Find
import TickToTrade.Sim.RestingRuns
import TickToTrade.Util.HandOut

/-!
# Clients' orders before an order of the tape

When the tape executes an order, the clients' orders that stand before it trade first:
those with a better price, and those before it in the queue of its level. The loop walks
the clients' list, from which it takes filled orders out. What it does is said of the
engine's queues (`Shadowed`) and does not depend on how the list is arranged: which orders
stand before the tape's order is the same all along for the orders that have not traded.
-/

namespace TickToTrade.Sim

open Util

section

variable {K : Type*} {L : List (Resting K)} {x y : Resting K}

/-! ### Before in a queue -/

/-- Does an order with the first reference come before all orders with the second? -/
def firstOf (L : List (Resting K)) (ref realRef : ℕ) : Bool :=
  match L.find? fun o => o.id = ref ∨ o.id = realRef with
  | some o => o.id = ref
  | none => false

/-- Of two elements of a list, the search for either finds the one before the other. -/
theorem find?_eq_iff_sublist {α : Type*} [DecidableEq α] {l : List α} (hnd : l.Nodup) {a b : α} (ha : a ∈ l) (hb : b ∈ l)
    (hne : a ≠ b) : (l.find? fun c => c = a ∨ c = b) = some a ↔ [a, b].Sublist l := by
  induction l with
  | nil => cases ha
  | cons c l ih =>
      obtain ⟨hout, hnd⟩ := List.nodup_cons.mp hnd
      by_cases hca : c = a
      · subst hca
        have hb' : b ∈ l := (List.mem_cons.mp hb).resolve_left hne.symm
        simpa using hb'
      · have ha' : a ∈ l := (List.mem_cons.mp ha).resolve_left (Ne.symm hca)
        by_cases hcb : c = b
        · subst hcb
          rw [List.find?_cons_of_pos (by simp), Option.some_inj]
          refine iff_of_false (Ne.symm hne) fun hsub => hout ?_
          cases hsub with
          | cons _ hsub => exact hsub.subset (List.mem_cons_of_mem _ List.mem_cons_self)
          | cons_cons _ _ => exact absurd rfl hca
        · have hb' : b ∈ l := (List.mem_cons.mp hb).resolve_left (Ne.symm hcb)
          rw [List.find?_cons_of_neg (by simp [hca, hcb]), ih hnd ha' hb']
          refine ⟨fun hsub => hsub.cons c, fun hsub => ?_⟩
          cases hsub with
          | cons _ hsub => exact hsub
          | cons_cons _ _ => exact absurd rfl hca

/-- In a queue with one order under each of the references, the first comes before the
second. -/
theorem firstOf_iff {L : List (Resting ℕ)} {x y : Resting ℕ} (hnd : (OrderBook.keys L).Nodup) (hx : x ∈ L) (hy : y ∈ L)
    (hne : x.id ≠ y.id) (hxs : ∀ z ∈ L, z.id = x.id → z = x) (hys : ∀ z ∈ L, z.id = y.id → z = y) :
    firstOf L x.id y.id = true ↔ [x.key, y.key].Sublist (OrderBook.keys L) := by
  have hinj : ∀ a ∈ L, ∀ b ∈ L, a.key = b.key → a = b := fun a ha b hb => List.inj_on_of_nodup_map hnd ha hb
  have hfind : (L.find? fun o => o.id = x.id ∨ o.id = y.id) = L.find? fun o => o = x ∨ o = y := by
    refine List.find?_congr fun z hz => ?_
    have hzx : z.id = x.id ↔ z = x := ⟨hxs z hz, fun h => h ▸ rfl⟩
    have hzy : z.id = y.id ↔ z = y := ⟨hys z hz, fun h => h ▸ rfl⟩
    simp only [hzx, hzy]
  have hsub : [x.key, y.key].Sublist (OrderBook.keys L) ↔ [x, y].Sublist L := by
    refine ⟨fun hsub => ?_, fun hsub => hsub.map Resting.key⟩
    obtain ⟨l', hl', heq⟩ := List.sublist_map_iff.mp hsub
    obtain ⟨a, b, rfl⟩ : ∃ a b, l' = [a, b] := by
      have hlen := congrArg List.length heq
      simp only [List.length_map] at hlen
      exact List.length_eq_two.mp hlen.symm
    simp only [List.map_cons, List.map_nil, List.cons.injEq, and_true] at heq
    rw [hinj x hx a (hl'.subset List.mem_cons_self) heq.1,
      hinj y hy b (hl'.subset (List.mem_cons_of_mem _ List.mem_cons_self)) heq.2]
    exact hl'
  rw [hsub, ← find?_eq_iff_sublist hnd.of_map hx hy fun h => hne (h ▸ rfl)]
  unfold firstOf
  rw [hfind]
  cases hz : L.find? fun o => o = x ∨ o = y with
  | none => simp
  | some z =>
      have hmem := List.mem_of_find?_eq_some hz
      simp only [decide_eq_true_eq, Option.some_inj]
      exact ⟨hxs z hmem, fun h => h ▸ rfl⟩

/-- Other orders that leave or lose shares do not matter. -/
theorem firstOf_less {A : Sides ℕ} {s s' : Side} {o : Resting ℕ} {q ref realRef : ℕ} (hd : A.Distinct) (ho : o ∈ A s')
    (href : o.id ≠ ref) (hreal : o.id ≠ realRef) (p : ℤ) :
    firstOf (level (A.less s' o q s) p) ref realRef = firstOf (level (A s) p) ref realRef := by
  unfold Sides.less
  by_cases hs : s = s'
  · subst hs
    split_ifs
    · unfold Sides.without firstOf
      rw [Function.update_self, level_remove]
      unfold remove
      rw [List.find?_filter]
      have hsame : ((level (A s) p).find? fun x => decide (x.key ≠ o.key) = true ∧ decide (x.id = ref ∨ x.id = realRef) = true) =
          (level (A s) p).find? fun x => x.id = ref ∨ x.id = realRef := by
        refine List.find?_congr fun x hx => ?_
        by_cases hk : x.key = o.key
        · rw [(hd (mem_level.mp hx).1 ho hk).2]
          simp [href, hreal]
        · simp [hk]
      rw [hsame]
    · unfold Sides.resized firstOf
      rw [Function.update_self, level_resize]
      unfold resize
      rw [List.find?_map]
      have hid : ∀ x : Resting ℕ, (if x.key = o.key then { x with qty := o.qty - q } else x).id = x.id := by
        intro x
        split_ifs <;> rfl
      simp only [Function.comp_def, hid]
      cases (level (A s) p).find? fun x => x.id = ref ∨ x.id = realRef with
      | none => rfl
      | some x => simp only [Option.map_some, hid]
  · have hsame : ∀ l, Function.update A s' l s = A s := fun l => Function.update_of_ne hs _ _
    split_ifs
    · unfold Sides.without
      rw [hsame]
    · unfold Sides.resized
      rw [hsame]

end

namespace Venue

section

variable {own tape : Set ℕ} {v w x : Venue} {A A' A'' : Sides ℕ} {s : Side} {o : Resting ℕ} {l : LiveOrder}
  {ref realRef r q : ℕ} {tick : ℤ} {fills fills' : List (ℕ × ℕ)}

/-! ### What is told -/

/-- The executions that the market data tells, by the order references and the shares. -/
def executions (md : List Itch.Msg) : List (ℕ × ℕ) :=
  md.filterMap fun m => match m.body with
    | .orderExecuted ref shares _ => some (ref, shares)
    | _ => none

/-- The executions that the clients are told, by the user references and the shares. -/
def clientExecutions (oe : List Ouch.Out) : List (ℕ × ℕ) :=
  oe.filterMap fun m => match m with
    | .executed m => some (m.userRefNum, m.quantity)
    | _ => none

/-- The client of an entry. -/
def userAt (v : Venue) (ref : ℕ) : ℕ := ((v.live.lookup ref).map LiveOrder.userRef).getD 0

/-- What the trades of clients' orders are told as. -/
structure Told (v w : Venue) (fills : List (ℕ × ℕ)) : Prop where
  md : executions w.md = executions v.md ++ fills
  oe : clientExecutions w.oe = clientExecutions v.oe ++ fills.map fun f => (v.userAt f.1, f.2)

/-! ### One client's order trades -/

/-- A client's order that is found trades `q` shares with the tape. -/
structure FillsOrder (own tape : Set ℕ) (v : Venue) (A : Sides ℕ) (l : LiveOrder) (o : Resting ℕ) (q : ℕ) (w : Venue) :
    Prop where
  filed : Filed own tape w (A.less l.side o q)
  queued : w.engine.Queued (A.less l.side o q)
  lookup : w.live.lookup = if q = o.qty then Function.update v.live.lookup o.id none else v.live.lookup
  clientRefs : w.clientRefs = if q = o.qty then dropRef v.clientRefs o.id else v.clientRefs
  told : Told v w [(o.id, q)]

/-- Once a client's order is out of the queues, none is left under its reference. -/
theorem Filed.gone (hf : Filed own tape v A) (hmem : o.id ∈ v.clientRefs) (ho : o ∈ A s) {s' : Side} {y : Resting ℕ}
    (hy : y ∈ A.without s o.key s') : y.id ≠ o.id := by
  obtain ⟨hy, hk⟩ := (Sides.mem_without hf.distinct ho).mp hy
  exact fun hid => hk (hf.alone o.id hmem s' y s o hy ho hid rfl)

theorem fillClient_order (hf : Filed own tape v A) (hb : v.engine.Queued A) (hl : v.live.lookup o.id = some l)
    (ho : o ∈ A l.side) (hhandle : l.handle = some o.key) (hq : 0 < q) (hle : q ≤ o.qty) :
    FillsOrder own tape v A l o q (v.fillClient o.id q) := by
  have hget : v.live.get? o.id = some l := by rw [← FlatHashMap.lookup_eq_get? _ (hf.nonzero _ o ho), hl]
  have htells := tells_reportFill v o.id q l
  have huser : v.userAt o.id = l.userRef := by
    unfold userAt
    rw [hl]
    rfl
  have htold : ∀ w : Venue, w.sent = (v.reportFill o.id q l).sent → Told v w [(o.id, q)] := by
    intro w hw
    constructor
    · rw [Venue.md, hw, ← Venue.md, htells.md_eq, executions, List.filterMap_append]
      rfl
    · rw [Venue.oe, hw, ← Venue.oe, htells.oe_eq, clientExecutions, List.filterMap_append, List.map_singleton, huser]
      rfl
  have hstart := hf.tells htells
  have hb' : (v.reportFill o.id q l).engine.Queued A := by
    rw [htells.engine]
    exact hb
  rw [fillClient_eq hget hq.ne', hhandle]
  generalize v.reportFill o.id q l = w at htells htold hstart hb' ⊢
  have hcur : w.qtyAt (some o.key) = o.qty := hb'.order_qty ho
  rw [hcur]
  by_cases he : q = o.qty
  · obtain ⟨b, heq, hqueued, -⟩ := hb'.cancel ho
    rw [if_pos he.ge]
    simp only [engineCancel, heq]
    have hdrop := (hstart.congr rfl rfl : Filed own tape { w with engine := b } A).dropClient ho l
    have hengine := (dropClient_same { w with engine := b } o.id l).2.1
    refine ⟨?_, ?_, ?_, ?_, htold _ (dropClient_same ..).1⟩
    · rw [Sides.less, if_pos he]
      exact hdrop
    · rw [Sides.less, if_pos he, hengine]
      exact hqueued
    · rw [if_pos he, lookup_dropClient (v := { w with engine := b }) hstart.liveWF, ← htells.live]
    · rw [if_pos he, clientRefs_dropClient, ← htells.clientRefs]
  · obtain ⟨b, heq, hqueued, -⟩ := hb'.reduce ho (q := o.qty - q) (by omega) (by omega)
    rw [if_neg (by omega)]
    simp only [engineReduce, heq]
    refine ⟨?_, ?_, ?_, ?_, htold _ rfl⟩
    · rw [Sides.less, if_neg he]
      exact (hstart.congr rfl rfl : Filed own tape { w with engine := b } A).shrink ho (q := o.qty - q) (by omega)
    · rw [Sides.less, if_neg he]
      exact hqueued
    · rw [if_neg he, ← htells.live]
    · rw [if_neg he, ← htells.clientRefs]

/-! ### Which orders have to trade first -/

theorem aheadInLevel_eq (hb : v.engine.Queued A) (s : Side) (tick : ℤ) (ref realRef : ℕ) :
    v.aheadInLevel s tick ref realRef = firstOf (level (A s) tick) ref realRef := by
  have hid : ∀ o ∈ level (A s) tick, (v.engine.order o.key).id = o.id := fun o ho => (hb.cell (mem_level.mp ho).1).1
  unfold aheadInLevel firstOf
  rw [OrderBook.ordersAtLevel_eq_map, hb.handlesAtLevel_eq, OrderBook.keys, List.map_map, List.find?_map]
  have hfind : ((level (A s) tick).find? ((fun o : Order => decide (o.id = ref ∨ o.id = realRef)) ∘ v.engine.order ∘ Resting.key)) =
      (level (A s) tick).find? fun o => o.id = ref ∨ o.id = realRef := by
    refine List.find?_congr fun o ho => ?_
    simp only [Function.comp_apply, hid o ho]
  rw [hfind]
  cases hz : (level (A s) tick).find? fun o => o.id = ref ∨ o.id = realRef with
  | none => rfl
  | some o => simp only [Option.map_some, Function.comp_apply, hid o (List.mem_of_find?_eq_some hz)]

/-- The order of the reference has to trade before the tape's. -/
def Eligible (v : Venue) (s : Side) (tick : ℤ) (realRef ref : ℕ) : Prop :=
  ∃ l, v.live.lookup ref = some l ∧ l.side = s ∧ v.isAhead s tick realRef ref l = true

/-- Where the entry and its place before the tape's order are the same, so is that. -/
theorem eligible_congr (hlookup : w.live.lookup r = v.live.lookup r)
    (hahead : w.aheadInLevel s tick r realRef = v.aheadInLevel s tick r realRef) :
    Eligible w s tick realRef r ↔ Eligible v s tick realRef r := by
  unfold Eligible isAhead
  rw [hlookup, hahead]

theorem FillsOrder.eligible (h : FillsOrder own tape v A l o q w) (hf : Filed own tape v A) (hb : v.engine.Queued A)
    (ho : o ∈ A l.side) (hr : r ≠ o.id) (hreal : o.id ≠ realRef) :
    Eligible w s tick realRef r ↔ Eligible v s tick realRef r := by
  refine eligible_congr ?_ ?_
  · rw [h.lookup]
    split_ifs
    · exact Function.update_of_ne hr _ _
    · rfl
  · rw [aheadInLevel_eq h.queued, aheadInLevel_eq hb]
    exact firstOf_less hf.distinct ho hr.symm hreal tick

/-- `Eligible`, as the loop finds it out. -/
def hasToTrade (v : Venue) (s : Side) (tick : ℤ) (realRef ref : ℕ) : Bool :=
  match v.live.get? ref with
  | none => false
  | some l => l.side = s && v.isAhead s tick realRef ref l

theorem hasToTrade_iff (h0 : ref ≠ 0) : v.hasToTrade s tick realRef ref = true ↔ Eligible v s tick realRef ref := by
  unfold hasToTrade Eligible
  rw [FlatHashMap.lookup_eq_get? _ h0]
  cases v.live.get? ref with
  | none => exact iff_of_false Bool.false_ne_true fun ⟨l, hl, _⟩ => nomatch hl
  | some l => simp

/-- The shares of the order of an entry. -/
def entryShares (v : Venue) (ref : ℕ) : ℕ :=
  match v.live.get? ref with
  | none => 0
  | some l => v.qtyAt l.handle

namespace FillsOrder

theorem get? (h : FillsOrder own tape v A l o q w) (hr : r ≠ o.id) (h0 : r ≠ 0) : w.live.get? r = v.live.get? r := by
  rw [← FlatHashMap.lookup_eq_get? _ h0, ← FlatHashMap.lookup_eq_get? _ h0, h.lookup]
  split_ifs
  · exact Function.update_of_ne hr _ _
  · rfl

/-- The other orders keep their shares. -/
theorem entryShares (h : FillsOrder own tape v A l o q w) (hf : Filed own tape v A) (hb : v.engine.Queued A)
    (ho : o ∈ A l.side) (hr : r ≠ o.id) (h0 : r ≠ 0) : w.entryShares r = v.entryShares r := by
  have hget := h.get? hr h0
  unfold Venue.entryShares
  rw [hget]
  cases hl : v.live.get? r with
  | none => rfl
  | some l' =>
      rw [← FlatHashMap.lookup_eq_get? _ h0] at hl
      obtain ⟨y, hy, hid, hhandle, -, hcur⟩ := hf.order_of_live hb hl
      have hkey : y.key ≠ o.key := fun hk => hr (by rw [← hid, (hf.distinct hy ho hk).2])
      have hy' : y ∈ A.less l.side o q l'.side := by
        unfold Sides.less
        split_ifs
        · exact (Sides.mem_without hf.distinct ho).mpr ⟨hy, hkey⟩
        · exact (Sides.mem_resized hf.distinct ho).mpr (.inl ⟨hy, hkey⟩)
      simp only
      rw [hcur, hhandle]
      exact h.queued.order_qty hy'

end FillsOrder

/-! ### Clients' orders trade one after the other -/

/-- The clients' orders have traded `fills`: what is left of them, and of the other
orders. -/
structure Shadowed (own tape : Set ℕ) (v : Venue) (A : Sides ℕ) (fills : List (ℕ × ℕ)) (w : Venue) (A' : Sides ℕ) :
    Prop where
  filed : Filed own tape w A'
  queued : w.engine.Queued A'
  told : Told v w fills
  once : (fills.map Prod.fst).Nodup
  listed : ∀ f ∈ fills, f.1 ∈ v.clientRefs
  lookup : ∀ r ∉ fills.map Prod.fst, w.live.lookup r = v.live.lookup r
  orders : ∀ s', ∀ x : Resting ℕ, x.id ∉ fills.map Prod.fst → (x ∈ A' s' ↔ x ∈ A s')
  /-- An order that has traded all its shares is gone, another one keeps the rest. -/
  filled : ∀ f ∈ fills, ∃ l, ∃ x ∈ A l.side, x.id = f.1 ∧ v.live.lookup f.1 = some l ∧ l.handle = some x.key ∧ 0 < f.2 ∧
    (f.2 = x.qty ∧ w.live.lookup f.1 = none ∧ (∀ s', ∀ y ∈ A' s', y.id ≠ f.1) ∨
      f.2 < x.qty ∧ w.live.lookup f.1 = some l ∧ { x with qty := x.qty - f.2 } ∈ A' l.side)

namespace Shadowed

theorem nil (hf : Filed own tape v A) (hb : v.engine.Queued A) : Shadowed own tape v A [] v A where
  filed := hf
  queued := hb
  told := ⟨(List.append_nil _).symm, (List.append_nil _).symm⟩
  once := List.nodup_nil
  listed := by simp
  lookup _ _ := rfl
  orders _ _ _ := Iff.rfl
  filled := by simp

/-- One order has traded. -/
theorem one (h : FillsOrder own tape v A l o q w) (hf : Filed own tape v A) (hl : v.live.lookup o.id = some l)
    (ho : o ∈ A l.side) (hhandle : l.handle = some o.key) (hmem : o.id ∈ v.clientRefs) (hq : 0 < q) (hle : q ≤ o.qty) :
    Shadowed own tape v A [(o.id, q)] w (A.less l.side o q) where
  filed := h.filed
  queued := h.queued
  told := h.told
  once := List.nodup_singleton _
  listed f hf := by
    rw [List.mem_singleton.mp hf]
    exact hmem
  lookup r hr := by
    have hne : r ≠ o.id := by simpa using hr
    rw [h.lookup]
    split_ifs
    · exact Function.update_of_ne hne _ _
    · rfl
  orders s' x hx := by
    have hne : x.id ≠ o.id := by simpa using hx
    have hkey : x ∈ A s' → x.key ≠ o.key := fun hxA hk => hne (by rw [(hf.distinct hxA ho hk).2])
    unfold Sides.less
    split_ifs
    · rw [Sides.mem_without hf.distinct ho]
      exact ⟨fun hx => hx.1, fun hx => ⟨hx, hkey hx⟩⟩
    · rw [Sides.mem_resized hf.distinct ho]
      refine ⟨?_, fun hx => .inl ⟨hx, hkey hx⟩⟩
      rintro (hx | ⟨-, rfl⟩)
      · exact hx.1
      · exact absurd rfl hne
  filled f hfill := by
    rw [List.mem_singleton.mp hfill]
    refine ⟨l, o, ho, rfl, hl, hhandle, hq, ?_⟩
    rw [h.lookup]
    unfold Sides.less
    by_cases he : q = o.qty
    · rw [if_pos he, if_pos he]
      exact .inl ⟨he, Function.update_self .., fun s' y hy => hf.gone hmem ho hy⟩
    · rw [if_neg he, if_neg he]
      exact .inr ⟨by simp only; omega, hl, (Sides.mem_resized hf.distinct ho).mpr (.inr ⟨rfl, rfl⟩)⟩

/-- Other orders have traded after the first ones. -/
theorem trans (h : Shadowed own tape v A fills w A') (h' : Shadowed own tape w A' fills' x A'')
    (hlisted : ∀ f ∈ fills', f.1 ∈ v.clientRefs) (hdisjoint : ∀ r ∈ fills.map Prod.fst, r ∉ fills'.map Prod.fst) :
    Shadowed own tape v A (fills ++ fills') x A'' := by
  have hnot : ∀ r, r ∉ (fills ++ fills').map Prod.fst → r ∉ fills.map Prod.fst ∧ r ∉ fills'.map Prod.fst := by
    intro r hr
    rw [List.map_append, List.mem_append, not_or] at hr
    exact hr
  have hother : ∀ f ∈ fills', f.1 ∉ fills.map Prod.fst := fun f hf hmem =>
    hdisjoint f.1 hmem (List.mem_map_of_mem hf)
  refine ⟨h'.filed, h'.queued, ⟨?_, ?_⟩, ?_, fun f hf => ?_, fun r hr => ?_, fun s' y hy => ?_, fun f hf => ?_⟩
  · rw [h'.told.md, h.told.md, List.append_assoc]
  · rw [h'.told.oe, h.told.oe, List.append_assoc, List.map_append]
    refine congrArg _ (congrArg _ (List.map_congr_left fun f hf => ?_))
    unfold userAt
    rw [h.lookup f.1 (hother f hf)]
  · rw [List.map_append]
    exact List.nodup_append.mpr ⟨h.once, h'.once, fun a ha b hb he => hdisjoint a ha (he ▸ hb)⟩
  · obtain hf | hf := List.mem_append.mp hf
    · exact h.listed f hf
    · exact hlisted f hf
  · obtain ⟨hr₁, hr₂⟩ := hnot r hr
    rw [h'.lookup r hr₂, h.lookup r hr₁]
  · obtain ⟨hy₁, hy₂⟩ := hnot y.id hy
    rw [h'.orders s' y hy₂, h.orders s' y hy₁]
  · obtain hf | hf := List.mem_append.mp hf
    · -- an order of the first ones keeps what it had after them
      have hout := hdisjoint f.1 (List.mem_map_of_mem hf)
      obtain ⟨l, y, hy, hid, hl, hhandle, hpos, hend⟩ := h.filled f hf
      refine ⟨l, y, hy, hid, hl, hhandle, hpos, ?_⟩
      rw [h'.lookup f.1 hout]
      refine hend.imp (fun ⟨hall, hnone, hgone⟩ => ⟨hall, hnone, fun s' z hz hzid => ?_⟩)
        fun ⟨hlt, hsome, hrest⟩ => ⟨hlt, hsome, (h'.orders _ _ (by simpa only [hid] using hout)).mpr hrest⟩
      exact hgone s' z ((h'.orders s' z (by rw [hzid]; exact hout)).mp hz) hzid
    · obtain ⟨l, y, hy, hid, hl, hhandle, hpos, hend⟩ := h'.filled f hf
      have hout := hother f hf
      rw [h.lookup f.1 hout] at hl
      exact ⟨l, y, (h.orders _ y (by rw [hid]; exact hout)).mp hy, hid, hl, hhandle, hpos, hend⟩

end Shadowed

/-! ### The loop -/

/-- Before the place of the reference the list stays as it was. -/
theorem getElem?_dropRef {refs : List ℕ} (hnd : refs.Nodup) {i j : ℕ} (hi : refs[i]? = some ref) (hj : j < i) :
    (dropRef refs ref)[j]? = refs[j]? := by
  obtain ⟨hlt, rfl⟩ := List.getElem?_eq_some_iff.mp hi
  unfold dropRef
  rw [if_pos (List.getElem_mem hlt), hnd.idxOf_getElem, List.getElem?_dropLast, List.length_set, if_pos (by omega),
    List.getElem?_set_ne (by omega)]

theorem shadowLoop_zero (s : Side) (tick : ℤ) (realRef fuel i : ℕ) (v : Venue) :
    shadowLoop s tick realRef fuel i v 0 = v := by
  cases fuel with
  | zero => rfl
  | succ fuel =>
      unfold shadowLoop
      exact if_neg (by omega)

/-- Past the end of the list no order has to trade any more. -/
theorem not_eligible_of_done {i : ℕ} (hdone : ∀ j < i, ∀ r, v.clientRefs[j]? = some r → ¬ Eligible v s tick realRef r)
    (hle : v.clientRefs.length ≤ i) : ∀ r ∈ v.clientRefs, ¬ Eligible v s tick realRef r := by
  intro r hr
  obtain ⟨j, hj⟩ := List.mem_iff_getElem?.mp hr
  have hlt := (List.getElem?_eq_some_iff.mp hj).1
  exact hdone j (by omega) r hj

/-- Taking the reference at the index out of the list refills the rest of the list. -/
theorem drop_dropRef {refs : List ℕ} (hnd : refs.Nodup) {i : ℕ} (hi : refs[i]? = some ref) :
    (dropRef refs ref).drop i = refill (refs.drop (i + 1)) := by
  obtain ⟨hlt, rfl⟩ := List.getElem?_eq_some_iff.mp hi
  obtain ⟨before, x, rest, rfl, hlen⟩ : ∃ before x rest, refs = before ++ x :: rest ∧ before.length = i :=
    ⟨refs.take i, refs[i], refs.drop (i + 1), by rw [List.cons_getElem_drop_succ, List.take_append_drop], by simp; omega⟩
  subst hlen
  unfold dropRef
  rw [if_pos (List.getElem_mem hlt), hnd.idxOf_getElem, List.set_append_right _ _ (Nat.le_refl _), Nat.sub_self, List.set_cons_zero]
  obtain rfl | ⟨rest, z, rfl⟩ := rest.eq_nil_or_concat'
  · simp [refill]
  · have hlast : (before ++ x :: (rest ++ [z])).getLastD 0 = z := by
      rw [← List.cons_append, ← List.append_assoc, List.getLastD_concat]
    rw [hlast, ← List.cons_append, ← List.append_assoc, List.dropLast_concat]
    simp [refill]

/-- **The loop of `shadowFill`.** What stands before the index does not have to trade. The
induction is on the turns: each passes a reference or takes the order of one out. -/
theorem shadowLoop_shadowed (hf : Filed own tape v A) (hb : v.engine.Queued A) (hreal : realRef ∉ v.clientRefs)
    (fuel i q : ℕ) (hfuel : v.clientRefs.length ≤ fuel + i)
    (hdone : ∀ j < i, ∀ r, v.clientRefs[j]? = some r → ¬ Eligible v s tick realRef r) :
    ∃ fills A', Shadowed own tape v A fills (shadowLoop s tick realRef fuel i v q) A' ∧
      (∀ f ∈ fills, Eligible v s tick realRef f.1) ∧ (fills.map Prod.snd).sum ≤ q ∧
      ((fills.map Prod.snd).sum = q ∨
        ∀ r ∈ v.clientRefs, Eligible v s tick realRef r → ∀ s', ∀ y ∈ A' s', y.id ≠ r) ∧
      fills = handOut v.entryShares (walkOrder (v.hasToTrade s tick realRef) fuel (v.clientRefs.drop i)) q := by
  induction fuel generalizing v A i q with
  | zero =>
      exact ⟨[], A, .nil hf hb, by simp, Nat.zero_le q,
        .inr fun r hr he => absurd he (not_eligible_of_done hdone (by omega) r hr), rfl⟩
  | succ fuel ih =>
      by_cases hgo : i < v.clientRefs.length ∧ q > 0
      · obtain ⟨r, hr⟩ : ∃ r, v.clientRefs[i]? = some r := ⟨_, List.getElem?_eq_getElem hgo.1⟩
        have hget : v.clientRefs.getD i 0 = r := by
          rw [List.getD_eq_getElem?_getD, hr]
          rfl
        have hmem := List.mem_of_getElem? hr
        have hlookup := FlatHashMap.lookup_eq_get? v.live (hf.refs r hmem).1
        have hhas : v.hasToTrade s tick realRef r = true ↔ Eligible v s tick realRef r := hasToTrade_iff (hf.refs r hmem).1
        have hdrop : v.clientRefs.drop i = r :: v.clientRefs.drop (i + 1) := by
          obtain ⟨hlt, rfl⟩ := List.getElem?_eq_some_iff.mp hr
          exact List.drop_eq_getElem_cons hlt
        have hpass : ¬ Eligible v s tick realRef r → ∃ fills A',
            Shadowed own tape v A fills (shadowLoop s tick realRef fuel (i + 1) v q) A' ∧
              (∀ f ∈ fills, Eligible v s tick realRef f.1) ∧ (fills.map Prod.snd).sum ≤ q ∧
              ((fills.map Prod.snd).sum = q ∨
                ∀ r ∈ v.clientRefs, Eligible v s tick realRef r → ∀ s', ∀ y ∈ A' s', y.id ≠ r) ∧
              fills = handOut v.entryShares (walkOrder (v.hasToTrade s tick realRef) (fuel + 1) (v.clientRefs.drop i)) q := by
          intro hnot
          rw [hdrop, walkOrder, if_neg fun h => hnot (hhas.mp h)]
          refine ih hf hb hreal (i + 1) q (by omega) fun j hj r' hr' => ?_
          obtain hlt | rfl := Nat.lt_succ_iff_lt_or_eq.mp hj
          · exact hdone j hlt r' hr'
          · obtain rfl : r = r' := Option.some.inj (hr.symm.trans hr')
            exact hnot
        unfold shadowLoop
        rw [if_pos hgo]
        simp only [hget]
        cases hl : v.live.get? r with
        | none =>
            refine hpass ?_
            rintro ⟨l, hl', -⟩
            rw [hlookup, hl] at hl'
            cases hl'
        | some l =>
            rw [← hlookup] at hl
            simp only
            by_cases hskip : l.side ≠ s ∨ ¬ v.isAhead s tick realRef r l
            · rw [if_pos hskip]
              refine hpass ?_
              rintro ⟨l', hl', hside, hahead⟩
              obtain rfl : l = l' := Option.some.inj (hl.symm.trans hl')
              exact hskip.elim (fun h => h hside) fun h => h hahead
            rw [if_neg hskip]
            obtain ⟨hside, hahead⟩ := not_or.mp hskip
            obtain ⟨o, ho, rfl, hhandle, -, hcur⟩ := hf.order_of_live hb hl
            have helig : Eligible v s tick realRef o.id := ⟨l, hl, not_not.mp hside, not_not.mp hahead⟩
            have hpos := hf.pos _ o ho
            rw [hcur]
            have hshares : v.entryShares o.id = o.qty := by
              unfold entryShares
              rw [← hlookup, hl]
              exact hcur
            have hmin : (if q < o.qty then q else o.qty) = min q o.qty := by
              split_ifs <;> omega
            rw [hmin]
            generalize hf' : min q o.qty = fill
            have hfill : 0 < fill ∧ fill ≤ o.qty ∧ fill ≤ q ∧ (fill ≠ o.qty → fill = q) := by
              rw [← hf']
              omega
            have hone : FillsOrder own tape v A l o fill (fillClient (v.count fun m =>
                { m with shadowFills := inc64 m.shadowFills, shadowShares := (m.shadowShares + fill) % 2 ^ 64 }) o.id fill) := by
              have h := fillClient_order (v := v.count fun m =>
                { m with shadowFills := inc64 m.shadowFills, shadowShares := (m.shadowShares + fill) % 2 ^ 64 })
                (hf.congr rfl rfl) hb hl ho hhandle hfill.1 hfill.2.1
              exact ⟨h.filed, h.queued, h.lookup, h.clientRefs, ⟨h.told.md, h.told.oe⟩⟩
            generalize fillClient _ o.id fill = w at hone ⊢
            have hfirst := Shadowed.one hone hf hl ho hhandle hmem hfill.1 hfill.2.1
            by_cases he : fill = o.qty
            · -- the order is used up: the last reference of the list is at the index now
              rw [if_neg (by omega)]
              have hrefs : w.clientRefs = dropRef v.clientRefs o.id := by rw [hone.clientRefs, if_pos he]
              have hin : ∀ r', r' ∈ w.clientRefs ↔ r' ∈ v.clientRefs ∧ r' ≠ o.id := by
                intro r'
                rw [hrefs, mem_dropRef hf.nodup]
              have hsame : ∀ r', r' ≠ o.id → (Eligible w s tick realRef r' ↔ Eligible v s tick realRef r') := fun r' hr' =>
                hone.eligible hf hb ho hr' fun hid => hreal (hid ▸ hmem)
              obtain ⟨fills, A', hrest, hall, hsum, hout, hfills⟩ := ih hone.filed hone.queued (fun hmem => hreal ((hin _).mp hmem).1)
                i (q - fill)
                (by
                  have := length_dropRef hmem
                  rw [hrefs]
                  omega)
                fun j hj r' hr' => by
                  rw [hrefs, getElem?_dropRef hf.nodup hr hj] at hr'
                  rw [hsame r' ?_]
                  · exact hdone j hj r' hr'
                  · rintro rfl
                    exact hdone j hj o.id hr' helig
              refine ⟨(o.id, fill) :: fills, A', hfirst.trans hrest (fun f hf => ((hin f.1).mp (hrest.listed f hf)).1) ?_, ?_, ?_, ?_,
                ?_⟩
              · intro r' hr' hmem'
                obtain rfl : r' = o.id := by simpa using hr'
                obtain ⟨f, hf, hid⟩ := List.mem_map.mp hmem'
                exact ((hin _).mp (hrest.listed f hf)).2 hid
              · intro f hf
                obtain rfl | hf := List.mem_cons.mp hf
                · exact helig
                · exact (hsame f.1 ((hin f.1).mp (hrest.listed f hf)).2).mp (hall f hf)
              · rw [List.map_cons, List.sum_cons]
                simp only
                omega
              · refine hout.imp (fun hsum => ?_) fun hgone r' hr' he' => ?_
                · rw [List.map_cons, List.sum_cons, hsum]
                  simp only
                  omega
                · by_cases hid : r' = o.id
                  · subst hid
                    have hnot : o.id ∉ fills.map Prod.fst := fun hmem' => by
                      obtain ⟨f, hf, hid⟩ := List.mem_map.mp hmem'
                      exact ((hin _).mp (hrest.listed f hf)).2 hid
                    intro s' y hy hyid
                    have hy' := (hrest.orders s' y (by rw [hyid]; exact hnot)).mp hy
                    rw [Sides.less, if_pos he] at hy'
                    exact hf.gone hmem ho hy' hyid
                  · exact hgone r' ((hin r').mpr ⟨hr', hid⟩) ((hsame r' hid).mpr he')
              · have hkept : ∀ r' ∈ refill (v.clientRefs.drop (i + 1)), r' ≠ o.id ∧ r' ≠ 0 := by
                  intro r' hr'
                  rw [← drop_dropRef hf.nodup hr, ← hrefs] at hr'
                  have hr' := (hin r').mp (List.mem_of_mem_drop hr')
                  exact ⟨hr'.2, (hf.refs r' hr'.1).1⟩
                rw [hdrop, walkOrder, if_pos (hhas.mpr helig), handOut_cons (by omega), hshares, hf', hfills, hrefs,
                  drop_dropRef hf.nodup hr]
                refine congrArg _ ?_
                rw [show walkOrder (w.hasToTrade s tick realRef) fuel (refill (v.clientRefs.drop (i + 1))) =
                  walkOrder (v.hasToTrade s tick realRef) fuel (refill (v.clientRefs.drop (i + 1))) from
                  walkOrder_congr (fun r' hr' => ?_) fuel]
                · exact handOut_congr (fun r' hr' => hone.entryShares hf hb ho (hkept r' (mem_of_mem_walkOrder hr')).1
                    (hkept r' (mem_of_mem_walkOrder hr')).2) _
                · obtain ⟨hne, h0⟩ := hkept r' hr'
                  exact Bool.eq_iff_iff.mpr ((hasToTrade_iff h0).trans ((hsame r' hne).trans (hasToTrade_iff h0).symm))
            · -- the executed shares are used up
              rw [if_pos (by omega), hfill.2.2.2 he, Nat.sub_self, shadowLoop_zero]
              rw [hfill.2.2.2 he] at hfirst
              refine ⟨_, _, hfirst, by simpa using helig, by simp, .inl (by simp), ?_⟩
              rw [hdrop, walkOrder, if_pos (hhas.mpr helig), handOut_cons (by omega), hshares, hf', hfill.2.2.2 he, Nat.sub_self,
                handOut_zero]
      · have hstop : shadowLoop s tick realRef (fuel + 1) i v q = v := by
          unfold shadowLoop
          exact if_neg hgo
        rw [hstop]
        refine ⟨[], A, .nil hf hb, by simp, Nat.zero_le q, ?_, ?_⟩
        · by_cases hq : q = 0
          · exact .inl hq.symm
          · exact .inr fun r hr he => absurd he (not_eligible_of_done hdone (by omega) r hr)
        · by_cases hq : q = 0
          · rw [hq, handOut_zero]
          · rw [List.drop_eq_nil_of_le (by omega)]
            rfl

end

end Venue

end TickToTrade.Sim
