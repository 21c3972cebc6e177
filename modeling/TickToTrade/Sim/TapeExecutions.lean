import TickToTrade.Sim.ShadowFills
import TickToTrade.Sim.TablesAgree

/-!
# Executions of the tape

What `mirrorExecute` does in any state that a run reaches: it trades clients' orders that
stand before the executed order, each once, until the executed shares are used up, and
takes the executed shares from the order itself.
-/

namespace TickToTrade.Sim.Venue

open Util

/-- A handle denotes an order in the queue of a level. -/
def Denotes (v : Venue) (k : ℕ) (s : Side) (p : ℤ) (ref q : ℕ) : Prop :=
  k ∈ v.engine.handlesAtLevel s p ∧ v.engine.data k = ⟨ref, p, q, s⟩

/-- A client's order rests under the reference, at a better price than the order of the
entry, or before it in the queue of its level. -/
def Ahead (v : Venue) (l : LiveOrder) (ref : ℕ) : Prop :=
  ref ∈ v.clientRefs ∧ ∃ k', (v.engine.order k').id = ref ∧
    ((∃ p, ¬ l.side.atLeast l.tick p ∧ k' ∈ v.engine.handlesAtLevel l.side p) ∨
      ∃ k, l.handle = some k ∧ [k', k].Sublist (v.engine.handlesAtLevel l.side l.tick))

/-- No other order of its level has the reference of the entry. -/
def AloneInLevel (v : Venue) (ref : ℕ) (l : LiveOrder) : Prop :=
  ∀ k ∈ v.engine.handlesAtLevel l.side l.tick, (v.engine.order k).id = ref → l.handle = some k

instance (v : Venue) (ref : ℕ) (l : LiveOrder) : Decidable (AloneInLevel v ref l) :=
  inferInstanceAs (Decidable (∀ k ∈ v.engine.handlesAtLevel l.side l.tick, (v.engine.order k).id = ref → l.handle = some k))

/-- The venue when the clients' orders before the executed one have traded. -/
def shadowed (v : Venue) (ref shares : ℕ) (l : LiveOrder) : Venue :=
  (v.count fun m => { m with executes := inc64 m.executes }).shadowFill l.side l.tick ref shares

/-- The tape executes shares of the order of an entry: `fills` are the clients' orders that
trade, with their shares. -/
structure TapeExecuted (v : Venue) (ref : ℕ) (l : LiveOrder) (shares : ℕ) (fills : List (ℕ × ℕ)) : Prop where
  /-- The fills, and no other executions, are told to all and to their clients. -/
  told : Told v (v.mirrorExecute ref shares) fills
  once : (fills.map Prod.fst).Nodup
  ahead : ∀ f ∈ fills, Ahead v l f.1
  /-- An order that trades loses the shares of the fill, and is gone when none are left. -/
  amounts : ∀ f ∈ fills, ∃ s p k q, v.Denotes k s p f.1 q ∧ 0 < f.2 ∧
    (f.2 = q ∧ ¬ (v.mirrorExecute ref shares).Rests f.1 ∨
      f.2 < q ∧ (v.mirrorExecute ref shares).Denotes k s p f.1 (q - f.2))
  /-- Other orders than these and the executed one stay. -/
  others : ∀ k s p r q, l.handle ≠ some k → r ∉ fills.map Prod.fst →
    ((v.mirrorExecute ref shares).Denotes k s p r q ↔ v.Denotes k s p r q)
  quota : (fills.map Prod.snd).sum ≤ shares
  exhausted : (fills.map Prod.snd).sum = shares ∨ ∀ r, Ahead v l r → ¬ (v.mirrorExecute ref shares).Rests r
  /-- The handle of the executed order denotes it when the clients have traded, with all its
  shares; then it loses the executed ones. -/
  remaining : ∃ k q, l.handle = some k ∧ v.Denotes k l.side l.tick ref q ∧
    (v.shadowed ref shares l).Denotes k l.side l.tick ref q ∧
    ((v.mirrorExecute ref shares).engine.order k).qty = q - min shares q ∧
    if shares < q then
      (v.mirrorExecute ref shares).Denotes k l.side l.tick ref (q - shares) ∧
        (ref, l) ∈ (v.mirrorExecute ref shares).live.entries
    else ∀ s p r q', ¬ (v.mirrorExecute ref shares).Denotes k s p r q'

section

variable {own tape : Set ℕ} {v w : Venue} {A : Sides ℕ} {s : Side} {o x : Resting ℕ} {l l' : LiveOrder}
  {ref realRef k q shares : ℕ} {p tick : ℤ}

theorem denotes_iff (hb : v.engine.Queued A) : v.Denotes k s p ref q ↔ (⟨k, ref, p, q⟩ : Resting ℕ) ∈ A s := by
  unfold Denotes
  rw [hb.mem_handles]
  constructor
  · rintro ⟨⟨o, ho, rfl, rfl⟩, hdata⟩
    rw [hb.cells s o ho, OrderBook.Data.mk.injEq] at hdata
    obtain ⟨rfl, -, rfl, -⟩ := hdata
    exact ho
  · intro ho
    exact ⟨⟨_, ho, rfl, rfl⟩, hb.cells s _ ho⟩

/-! ### Which orders stand before -/

theorem isAhead_iff : v.isAhead s tick realRef ref l = true ↔
    ¬ s.atLeast tick l.tick ∨ l.tick = tick ∧ v.aheadInLevel s tick ref realRef = true := by
  unfold isAhead
  cases s <;> simp [Side.atLeast]

/-- In a level where both are alone under their references, the walk of `aheadInLevel`
tells which of two orders comes first. -/
theorem Filed.aheadInLevel_iff (hf : Filed own tape v A) (hb : v.engine.Queued A) (hx : x ∈ A s) (ho : o ∈ A s)
    (hprice : x.price = o.price) (hmem : x.id ∈ v.clientRefs) (hne : x.id ≠ o.id)
    (halone : ∀ y ∈ A s, y.price = o.price → y.id = o.id → y = o) :
    v.aheadInLevel s o.price x.id o.id = true ↔ [x.key, o.key].Sublist (v.engine.handlesAtLevel s o.price) := by
  rw [aheadInLevel_eq hb, hb.handlesAtLevel_eq]
  refine firstOf_iff ?_ (mem_level.mpr ⟨hx, hprice⟩) (mem_level.mpr ⟨ho, rfl⟩) hne (fun z hz hid => ?_) fun z hz hid => ?_
  · exact (hb.nodup s).sublist ((List.filter_sublist).map Resting.key)
  · have hz := (mem_level.mp hz).1
    exact (hf.distinct hz hx (hf.alone x.id hmem s z s x hz hx hid rfl)).2
  · exact halone z (mem_level.mp hz).1 (mem_level.mp hz).2 hid

/-- The loop trades the clients' orders before the executed one. -/
theorem Filed.ahead_iff (hf : Filed own tape v A) (hb : v.engine.Queued A) (ho : o ∈ A l.side) (hhandle : l.handle = some o.key)
    (htick : l.tick = o.price) (hreal : o.id ∉ v.clientRefs)
    (halone : ∀ y ∈ A l.side, y.price = o.price → y.id = o.id → y = o) :
    Ahead v l ref ↔ ref ∈ v.clientRefs ∧ Eligible v l.side l.tick o.id ref := by
  have hlevel : ∀ {p k}, k ∈ v.engine.handlesAtLevel l.side p → ∃ x ∈ A l.side, x.key = k ∧ x.price = p ∧
      (v.engine.order k).id = x.id := by
    intro p k hk
    obtain ⟨x, hx, rfl, hprice⟩ := hb.mem_handles.mp hk
    exact ⟨x, hx, rfl, hprice, (hb.cell hx).1⟩
  constructor
  · rintro ⟨hmem, k', hid, hahead⟩
    -- the entry of the reference is about the order that rests under it
    have hentry : ∀ x ∈ A l.side, x.id = ref → ∃ l', v.live.lookup ref = some l' ∧ l'.side = l.side ∧ l'.tick = x.price := by
      rintro x hx rfl
      obtain ⟨l', hl'⟩ := Option.ne_none_iff_exists'.mp (hf.entered x.id hmem _ x hx rfl)
      obtain ⟨hs, -, ht⟩ := hf.client_order hl' ((hf.clients _ _ hl').mpr hmem) hx
      exact ⟨l', hl', hs, ht⟩
    rcases hahead with ⟨p, hbetter, hp⟩ | ⟨k, hk, hsub⟩
    · obtain ⟨x, hx, rfl, rfl, hxid⟩ := hlevel hp
      obtain ⟨l', hl', hs, ht⟩ := hentry x hx (hxid.symm.trans hid)
      exact ⟨hmem, l', hl', hs, isAhead_iff.mpr (.inl (ht ▸ hbetter))⟩
    · obtain rfl : o.key = k := Option.some.inj (hhandle.symm.trans hk)
      obtain ⟨x, hx, rfl, hprice, hxid⟩ := hlevel (hsub.subset List.mem_cons_self)
      obtain rfl := hxid.symm.trans hid
      obtain ⟨l', hl', hs, ht⟩ := hentry x hx rfl
      refine ⟨hmem, l', hl', hs, isAhead_iff.mpr (.inr ⟨ht.trans hprice, ?_⟩)⟩
      rw [htick] at hprice hsub ⊢
      exact (hf.aheadInLevel_iff hb hx ho hprice hmem (fun hid => hreal (hid ▸ hmem)) halone).mpr hsub
  · rintro ⟨hmem, l', hl', hs, hahead⟩
    obtain ⟨x, hx, rfl, -, hxt⟩ := hf.live _ _ hl'
    rw [hs] at hx
    refine ⟨hmem, x.key, (hb.cell hx).1, ?_⟩
    rcases isAhead_iff.mp hahead with hbetter | ⟨hprice, hlevel⟩
    · exact .inl ⟨l'.tick, hbetter, hb.mem_handles.mpr ⟨x, hx, rfl, hxt.symm⟩⟩
    · refine .inr ⟨o.key, hhandle, ?_⟩
      rw [hxt, htick] at hprice
      rw [htick] at hlevel ⊢
      exact (hf.aheadInLevel_iff hb hx ho hprice hmem (fun hid => hreal (hid ▸ hmem)) halone).mp hlevel

/-! ### The executed order -/

theorem mirrorExecute_eq (hl : v.live.get? ref = some l) (shares : ℕ) :
    v.mirrorExecute ref shares = (v.shadowed ref shares l).takeShares ref shares l := by
  have hget : (v.count fun m => { m with executes := inc64 m.executes }).live.get? ref = some l := hl
  unfold mirrorExecute shadowed
  simp only [hget]
  split_ifs with hnil
  · rfl
  · have hnone : ∀ x : Venue, x.clientRefs = [] → x.shadowFill l.side l.tick ref shares = x := by
      intro x hx
      unfold shadowFill
      rw [hx]
      rfl
    rw [hnone _ (not_ne_iff.mp hnil)]

/-- Shares leave an order through its entry. -/
structure Takes (w : Venue) (A : Sides ℕ) (l : LiveOrder) (o : Resting ℕ) (shares : ℕ) (x : Venue) (A' : Sides ℕ) :
    Prop where
  queued : x.engine.Queued A'
  sent : x.sent = w.sent
  qty : (x.engine.order o.key).qty = o.qty - min shares o.qty
  orders : ∀ s y, y ∈ A' s ↔ y ∈ A s ∧ y.key ≠ o.key ∨ shares < o.qty ∧ s = l.side ∧ y = { o with qty := o.qty - shares }
  live : shares < o.qty → x.live = w.live

theorem Filed.takeShares (hf : Filed own tape w A) (hb : w.engine.Queued A) (ho : o ∈ A l.side)
    (hhandle : l.handle = some o.key) (shares : ℕ) :
    ∃ A', Takes w A l o shares (w.takeShares o.id shares l) A' := by
  have hcur : w.qtyAt l.handle = o.qty := by
    rw [hhandle]
    exact hb.order_qty ho
  unfold Venue.takeShares
  simp only [hcur]
  have hcount : ∀ {x : Venue}, x = (if shares > o.qty then w.count fun m => { m with overReduce := inc64 m.overReduce } else w) →
      x.engine = w.engine ∧ x.sent = w.sent ∧ x.live = w.live := by
    rintro x rfl
    split_ifs <;> exact ⟨rfl, rfl, rfl⟩
  generalize hx : (if shares > o.qty then w.count fun m => { m with overReduce := inc64 m.overReduce } else w) = x
  obtain ⟨hengine, hsent, hlive⟩ := hcount hx.symm
  rw [← hengine] at hb
  split_ifs with hall
  · obtain ⟨b, heq, hb', -⟩ := hb.cancel ho
    have hqty := hb.qty_cancel ho
    have herase : ∀ y : Venue, (y.eraseLive o.id).engine = y.engine ∧ (y.eraseLive o.id).sent = y.sent := by
      intro y
      unfold Venue.eraseLive
      cases y.live.erase o.id <;> exact ⟨rfl, rfl⟩
    unfold Venue.removeReal Venue.engineCancel
    rw [hhandle]
    simp only [heq] at hqty ⊢
    refine ⟨A.without l.side o.key, ?_, (herase _).2.trans hsent, ?_, fun s y => ?_, fun hlt => by omega⟩
    · rw [(herase _).1]
      exact hb'
    · rw [(herase _).1, Nat.min_eq_right hall, Nat.sub_self]
      exact hqty
    · rw [Sides.mem_without hf.distinct ho]
      exact ⟨.inl, fun h => h.resolve_right fun h => by omega⟩
  · have hpos := hf.pos _ o ho
    unfold Venue.engineReduce
    rw [hhandle]
    by_cases hzero : shares = 0
    · -- the engine refuses to take no shares
      subst hzero
      simp only [hb.reduce_of_le ho (Nat.sub_zero o.qty).ge]
      refine ⟨A, hb, hsent, ?_, fun s y => ?_, fun _ => hlive⟩
      · rw [Nat.zero_min]
        exact hb.order_qty ho
      · constructor
        · intro hy
          by_cases hk : y.key = o.key
          · obtain ⟨hs, rfl⟩ := hf.distinct hy ho hk
            exact .inr ⟨hpos, hs, rfl⟩
          · exact .inl ⟨hy, hk⟩
        · rintro (⟨hy, -⟩ | ⟨-, rfl, rfl⟩)
          · exact hy
          · exact ho
    · obtain ⟨b, heq, hb', -⟩ := hb.reduce ho (q := o.qty - shares) (by omega) (by omega)
      simp only [heq]
      have hleft : { o with qty := o.qty - shares } ∈ A.resized l.side o.key (o.qty - shares) l.side :=
        (Sides.mem_resized hf.distinct ho).mpr (.inr ⟨rfl, rfl⟩)
      refine ⟨_, hb', hsent, ?_, fun s y => ?_, fun _ => hlive⟩
      · rw [Nat.min_eq_left (by omega)]
        exact hb'.order_qty hleft
      · rw [Sides.mem_resized hf.distinct ho]
        exact or_congr_right (and_iff_right (by omega)).symm

/-! ### An execution -/

/-- **The tape executes shares of an order.** -/
theorem Shelved.executed (h : Shelved own tape v) (hne : ref ≠ 0) (hl : v.live.lookup ref = some l)
    (hreal : l.client = false) (halone : AloneInLevel v ref l) (shares : ℕ) :
    ∃ fills, TapeExecuted v ref l shares fills := by
  obtain ⟨A, hf, hb⟩ := h
  obtain ⟨o, ho, rfl, hhandle, htick, -⟩ := hf.order_of_live hb hl
  have hout : o.id ∉ v.clientRefs := fun hmem => by
    rw [(hf.clients _ _ hl).mpr hmem] at hreal
    cases hreal
  have hsole : ∀ y ∈ A l.side, y.price = o.price → y.id = o.id → y = o := by
    intro y hy hprice hid
    have hk := halone y.key (hb.mem_handles.mpr ⟨y, hy, rfl, hprice.trans htick.symm⟩) ((hb.cell hy).1.trans hid)
    exact (hf.distinct hy ho (Option.some.inj (hk.symm.trans hhandle))).2
  have hahead : ∀ r, Ahead v l r ↔ r ∈ v.clientRefs ∧ Eligible v l.side l.tick o.id r := fun r =>
    hf.ahead_iff hb ho hhandle htick hout hsole
  rw [FlatHashMap.lookup_eq_get? _ hne] at hl
  have hexec := mirrorExecute_eq hl shares
  rw [← FlatHashMap.lookup_eq_get? _ hne] at hl
  obtain ⟨fills, A₁, hsh, helig, hsum, hend⟩ : ∃ fills A₁,
      Shadowed own tape (v.count fun m => { m with executes := inc64 m.executes }) A fills (v.shadowed o.id shares l) A₁ ∧
        (∀ f ∈ fills, Eligible v l.side l.tick o.id f.1) ∧ (fills.map Prod.snd).sum ≤ shares ∧
        ((fills.map Prod.snd).sum = shares ∨
          ∀ r ∈ v.clientRefs, Eligible v l.side l.tick o.id r → ∀ s', ∀ y ∈ A₁ s', y.id ≠ r) := by
    have hcounted : Filed own tape (v.count fun m => { m with executes := inc64 m.executes }) A := hf.congr rfl rfl
    obtain ⟨fills, A₁, hsh, helig, hsum, hend, -⟩ := shadowLoop_shadowed hcounted hb hout v.clientRefs.length 0 shares le_rfl (by simp)
    exact ⟨fills, A₁, hsh, helig, hsum, hend⟩
  have hfree : ∀ f ∈ fills, o.id ≠ f.1 := fun f hf' hid => hout (hid ▸ hsh.listed f hf')
  have hfree' : o.id ∉ fills.map Prod.fst := fun hmem => by
    obtain ⟨f, hf', hid⟩ := List.mem_map.mp hmem
    exact hfree f hf' hid.symm
  have ho₁ : o ∈ A₁ l.side := (hsh.orders _ o hfree').mpr ho
  obtain ⟨A₂, htakes⟩ := hsh.filed.takeShares hsh.queued ho₁ hhandle shares
  rw [← hexec] at htakes
  have hgone : ∀ r, r ≠ o.id → (∀ s', ∀ y ∈ A₁ s', y.id ≠ r) → ¬ (v.mirrorExecute o.id shares).Rests r := by
    intro r hr hnone hrests
    obtain ⟨s', y, hy, hid⟩ := (rests_iff htakes.queued).mp hrests
    rcases (htakes.orders s' y).mp hy with ⟨hy, -⟩ | ⟨-, -, rfl⟩
    · exact hnone s' y hy hid
    · exact hr hid.symm
  refine ⟨fills, ?_, hsh.once, fun f hf' => (hahead f.1).mpr ⟨hsh.listed f hf', helig f hf'⟩, fun f hf' => ?_,
    fun k s p r q hk hr => ?_, hsum, ?_, ⟨o.key, o.qty, hhandle, ?_, ?_, htakes.qty, ?_⟩⟩
  · constructor
    · rw [Venue.md, htakes.sent]
      exact hsh.told.md
    · rw [Venue.oe, htakes.sent]
      exact hsh.told.oe
  · obtain ⟨l₁, x, hx, hid, -, -, hpos, hrest⟩ := hsh.filled f hf'
    refine ⟨l₁.side, x.price, x.key, x.qty, (denotes_iff hb).mpr (hid ▸ hx), hpos, ?_⟩
    rcases hrest with ⟨hall, -, hnone⟩ | ⟨hlt, -, hleft⟩
    · exact .inl ⟨hall, hgone f.1 (hfree f hf').symm hnone⟩
    · refine .inr ⟨hlt, ?_⟩
      rw [denotes_iff htakes.queued, htakes.orders, ← hid]
      refine .inl ⟨hleft, fun hk => hfree f hf' ?_⟩
      rw [← hid, (hf.distinct hx ho hk).2]
  · rw [denotes_iff htakes.queued, denotes_iff hb, htakes.orders, ← hsh.orders s ⟨k, r, p, q⟩ hr]
    have hkey : k ≠ o.key := by
      rintro rfl
      exact hk hhandle
    constructor
    · rintro (⟨hy, -⟩ | ⟨-, -, hy⟩)
      · exact hy
      · exact absurd (congrArg Resting.key hy) hkey
    · exact fun hy => .inl ⟨hy, hkey⟩
  · refine hend.imp_right fun hnone r hr => ?_
    obtain ⟨hmem, he⟩ := (hahead r).mp hr
    exact hgone r (fun hid => hout (hid ▸ hmem)) (hnone r hmem he)
  · rw [denotes_iff hb, htick]
    exact ho
  · rw [denotes_iff hsh.queued, htick]
    exact ho₁
  · split_ifs with hlt
    · refine ⟨?_, ?_⟩
      · rw [denotes_iff htakes.queued, htakes.orders, htick]
        exact .inr ⟨hlt, rfl, rfl⟩
      · rw [htakes.live hlt, ← hsh.filed.liveWF.lookup_eq_some_iff, hsh.lookup o.id hfree']
        exact hl
    · intro s p r q' hd
      rw [denotes_iff htakes.queued, htakes.orders] at hd
      rcases hd with ⟨-, hk⟩ | ⟨hlt', -⟩
      · exact hk rfl
      · exact hlt hlt'

/-- Where no fills are told, no client's order stands before the executed one. -/
theorem TapeExecuted.not_rests {fills : List (ℕ × ℕ)} (h : TapeExecuted v ref l shares fills) (hpos : 0 < shares)
    (hnone : executions (v.mirrorExecute ref shares).md = executions v.md) {r : ℕ} (hr : Ahead v l r) :
    ¬ (v.mirrorExecute ref shares).Rests r := by
  have hnil : fills = [] := List.append_cancel_left_eq (executions v.md) fills [] ▸ by
    rw [List.append_nil, ← h.told.md, hnone]
  refine h.exhausted.resolve_left (fun hsum => ?_) r hr
  rw [hnil] at hsum
  exact hpos.ne hsum

/-- The cell of the executed order loses the executed shares. -/
theorem TapeExecuted.qty {fills : List (ℕ × ℕ)} (h : TapeExecuted v ref l shares fills) (hk : l.handle = some k) :
    ((v.mirrorExecute ref shares).engine.order k).qty = (v.engine.order k).qty - min shares (v.engine.order k).qty := by
  obtain ⟨k', q, hk', hd, -, hqty, -⟩ := h.remaining
  obtain rfl : k = k' := Option.some.inj (hk.symm.trans hk')
  have hq : (v.engine.order k).qty = q := congrArg OrderBook.Data.qty hd.2
  rw [hqty, hq]

end

/-- **Executions of the tape respect the queue and the shares** in every state that a run
reaches where the tape does not take references of the venue's and these do not run out, if
the executed order is alone under its reference in its level. -/
theorem tape_executed (symbol : List UInt8) (stockLocate : ℕ) (minTick maxTick : ℤ)
    (wirePerTick firstOrderRef liveReserve stray : ℕ) (hfirst : firstOrderRef < 2 ^ 64) (ops : List Op)
    (htape : TapeForeign (new symbol stockLocate minTick maxTick wirePerTick firstOrderRef liveReserve stray) ops)
    (hwrap : NoWrap (new symbol stockLocate minTick maxTick wirePerTick firstOrderRef liveReserve stray) ops)
    {ref : ℕ} {l : LiveOrder}
    (he : (ref, l) ∈ ((new symbol stockLocate minTick maxTick wirePerTick firstOrderRef liveReserve stray).run ops).live.entries)
    (hreal : l.client = false)
    (halone : AloneInLevel ((new symbol stockLocate minTick maxTick wirePerTick firstOrderRef liveReserve stray).run ops) ref l)
    (shares : ℕ) :
    ∃ fills, TapeExecuted ((new symbol stockLocate minTick maxTick wirePerTick firstOrderRef liveReserve stray).run ops)
      ref l shares fills := by
  obtain ⟨htraced, hpos⟩ := traced_new symbol stockLocate minTick maxTick hfirst
  have hs := shelved_run (shelved_new symbol stockLocate minTick maxTick wirePerTick firstOrderRef liveReserve stray) htraced
    hpos htape hwrap
  have hl := hs.choose_spec.1.liveWF.lookup_eq_some_iff.mpr he
  exact hs.executed (FlatHashMap.mem_entries.mp he).1 hl hreal halone shares

/-- Clients sell before and behind a tape order, and at a better price. -/
def queueOps : List Op :=
  [.request (.enterOrder ⟨1, .sell, 40, [65], 5000, .day⟩), .mirrorAdd 7 .sell 5000 100,
    .request (.enterOrder ⟨2, .sell, 20, [65], 4900, .day⟩), .request (.enterOrder ⟨3, .sell, 10, [65], 5000, .day⟩)]

theorem tape_executed_sample : ∃ fills, TapeExecuted (sampleVenue.run queueOps) 7 ⟨some 1, .sell, 50, false, 0⟩ 50 fills :=
  tape_executed [65] 1 1 100000 100 (2 ^ 62) 16 0 (by decide) queueOps (by decide +kernel) (by decide +kernel)
    (by decide +kernel) rfl (by decide +kernel) 50

/-- An execution that does not respect the queue or the shares. -/
def Misses (v : Venue) (ref shares : ℕ) : Prop :=
  ∃ l, (ref, l) ∈ v.live.entries ∧ l.client = false ∧ ∀ fills, ¬ TapeExecuted v ref l shares fills

/-- The tape uses a reference twice in a level, before and behind a client's order. -/
def retoldOps : List Op :=
  [.mirrorAdd 7 .sell 5000 100, .request (.enterOrder ⟨1, .sell, 20, [65], 5000, .day⟩), .mirrorAdd 7 .sell 5000 50]

/-- The tape takes the reference of a client's order. -/
def takenOps : List Op := [.request (.enterOrder ⟨1, .sell, 20, [65], 5000, .day⟩), .mirrorAdd (2 ^ 62) .sell 5100 50]

/-- A client's order gets the reference zero, and its free slot goes to the tape's. -/
def wrappedOps : List Op :=
  [.request (.enterOrder ⟨1, .sell, 20, [65], 5100, .day⟩), .request (.enterOrder ⟨2, .sell, 20, [65], 4900, .day⟩),
    .mirrorAdd 30 .sell 5000 50]

def zeroRefVenue : Venue := new [65] 1 1 60 100 1001 16 0

/-- The tape uses the reference zero, whose entry stays when its order goes: with it, the
tape deletes a client's order. -/
def zeroRefOps : List Op :=
  [.mirrorAdd 0 .sell 5100 100, .mirrorDelete 0, .request (.enterOrder ⟨1, .sell, 20, [65], 4900, .day⟩), .mirrorDelete 0,
    .mirrorAdd 7 .sell 5000 50]

/-- Where the walk over the level stops at another order with the reference, it passes a
client's order. -/
theorem misses_retold : (sampleVenue.run retoldOps).Misses 7 30 := by
  refine ⟨⟨some 2, .sell, 50, false, 0⟩, by decide +kernel, rfl, fun fills h => ?_⟩
  have hr : Ahead (sampleVenue.run retoldOps) ⟨some 2, .sell, 50, false, 0⟩ (2 ^ 62) :=
    ⟨by decide +kernel, 1, by decide +kernel, .inr ⟨2, rfl, by decide +kernel⟩⟩
  exact h.not_rests (by decide) (by decide +kernel) hr ⟨.sell, 50, by decide +kernel⟩

/-- Under a client's reference the executed order takes the shares twice. -/
theorem misses_taken : (sampleVenue.run takenOps).Misses (2 ^ 62) 30 := by
  refine ⟨⟨some 1, .sell, 51, false, 0⟩, by decide +kernel, rfl, fun fills h => ?_⟩
  exact absurd (h.qty rfl) (by decide +kernel)

/-- The client's order with the reference zero is not found. -/
theorem misses_wrapped : (lastRefVenue.run wrappedOps).Misses 30 30 := by
  refine ⟨⟨some 2, .sell, 50, false, 0⟩, by decide +kernel, rfl, fun fills h => ?_⟩
  have hr : Ahead (lastRefVenue.run wrappedOps) ⟨some 2, .sell, 50, false, 0⟩ 0 :=
    ⟨by decide +kernel, 1, by decide +kernel, .inl ⟨49, by decide, by decide +kernel⟩⟩
  exact h.not_rests (by decide) (by decide +kernel) hr ⟨.sell, 49, by decide +kernel⟩

/-- The entry of a client's order that is gone has the handle of the executed order. -/
theorem misses_zero : (zeroRefVenue.run zeroRefOps).Misses 7 30 := by
  refine ⟨⟨some 0, .sell, 50, false, 0⟩, by decide +kernel, rfl, fun fills h => ?_⟩
  exact absurd (h.qty rfl) (by decide +kernel)

/-- **No condition can be left out**: an order alone in its level does not have to be, the
tape may take a reference of the venue's or zero, or the references may run out. -/
theorem execution_misses :
    (TapeForeign sampleVenue retoldOps ∧ NoWrap sampleVenue retoldOps ∧ (sampleVenue.run retoldOps).Misses 7 30) ∧
      (NoWrap sampleVenue takenOps ∧ (sampleVenue.run takenOps).Misses (2 ^ 62) 30) ∧
      (TapeForeign lastRefVenue wrappedOps ∧ (lastRefVenue.run wrappedOps).Misses 30 30) ∧
      (NoWrap zeroRefVenue zeroRefOps ∧ (zeroRefVenue.run zeroRefOps).Misses 7 30) :=
  ⟨⟨by decide +kernel, by decide +kernel, misses_retold⟩, ⟨by decide +kernel, misses_taken⟩,
    ⟨by decide +kernel, misses_wrapped⟩, ⟨by decide +kernel, misses_zero⟩⟩

end TickToTrade.Sim.Venue
