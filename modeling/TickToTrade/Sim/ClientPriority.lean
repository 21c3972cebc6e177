import TickToTrade.Sim.TapeExecutions

/-!
# The order in which clients' orders trade

When the tape adds an order that crosses clients' orders, or executes an order that stands
behind some, the clients' orders trade in an order that comes from the clients' list: the
loops look at the ticks and for which orders stand before the tape's, and at nothing else.
The list is that of the arrivals only as long as nothing has left it, since the last
reference takes the place of one that leaves; and the loops take references out themselves.
So the fills keep the priority of prices and queues exactly if the order that the loops come
to does (`Ranked`).
-/

namespace TickToTrade.Sim.Venue

open Util

variable {own tape : Set ℕ} {v w : Venue} {A A' : Sides ℕ} {s : Side} {l : LiveOrder} {o : Resting ℕ}
  {ref r q : ℕ} {tick : ℤ}

/-! ### Priority -/

/-- Of two clients' orders of the side `s`, the first one has the better price, or the same price
and stands before the other one in the queue. -/
def Outranks (v : Venue) (s : Side) (r ref : ℕ) : Prop :=
  r ≠ ref ∧ ∃ l' l, v.live.get? r = some l' ∧ v.live.get? ref = some l ∧
    ((match s with
      | .sell => l'.tick < l.tick
      | .buy => l'.tick > l.tick) ∨ l'.tick = l.tick ∧ v.aheadInLevel s l.tick r ref = true)

/-- No client's order gets shares before those that may trade too and outrank it have traded all
theirs. -/
def InPriority (v : Venue) (s : Side) (may : ℕ → Bool) (fills : List (ℕ × ℕ)) : Prop :=
  ∀ before f after, fills = before ++ f :: after → ∀ r ∈ v.clientRefs, may r = true → v.Outranks s r f.1 →
    (r, v.entryShares r) ∈ before

/-- No order that is reached before the shares are used up is outranked by a later one. -/
def Ranked (v : Venue) (s : Side) (order : List ℕ) (q : ℕ) : Prop :=
  ∀ before ref after, order = before ++ ref :: after → (before.map v.entryShares).sum < q →
    ∀ r ∈ after, ¬ v.Outranks s r ref

/-- Orders that get what an order of them hands out. -/
theorem inPriority_handOut_iff {may : ℕ → Bool} {order : List ℕ} (hperm : order.Perm (v.clientRefs.filter may))
    (hnodup : v.clientRefs.Nodup) (s : Side) (q : ℕ) :
    v.InPriority s may (handOut v.entryShares order q) ↔ v.Ranked s order q := by
  have hmem : ∀ r, r ∈ order ↔ r ∈ v.clientRefs ∧ may r = true := fun r => by rw [hperm.mem_iff, List.mem_filter]
  refine Iff.trans ?_ (handOut_ranked_iff (fun r h => h.1 rfl) (hperm.nodup_iff.mpr (hnodup.filter _)) :
    (∀ before f after, handOut v.entryShares order q = before ++ f :: after → ∀ r ∈ order, v.Outranks s r f.1 →
      (r, v.entryShares r) ∈ before) ↔ v.Ranked s order q)
  unfold InPriority
  refine forall_congr' fun before => forall_congr' fun f => forall_congr' fun after => imp_congr_right fun _ => ?_
  exact ⟨fun h r hr => h r ((hmem r).mp hr).1 ((hmem r).mp hr).2, fun h r hr hmay => h r ((hmem r).mpr ⟨hr, hmay⟩)⟩

/-! ### The orders in which the loops come to them -/

/-- The client's order trades with an order of the tape of the side `s` and the price `tick`. -/
def crosses (v : Venue) (s : Side) (tick : ℤ) (ref : ℕ) : Bool :=
  match v.live.get? ref with
  | none => false
  | some l => l.side ≠ s && match s with
    | .buy => decide (l.tick ≤ tick)
    | .sell => decide (l.tick ≥ tick)

/-- The search of `crossClients` in a list. -/
def pick (v : Venue) (s : Side) (tick : ℤ) (refs : List ℕ) : Option ℕ :=
  let best := (refs.foldl (v.betterClient s tick) (0, none, 0)).1
  if best = 0 then none else some best

/-- The order in which `crossClients` fills the clients' orders: each time the first of the best
price, whose place in the list the last one takes. -/
def crossOrder (v : Venue) (s : Side) (tick : ℤ) : List ℕ :=
  searchOrder (v.pick s tick) dropRef (v.clientRefs.length + 1) v.clientRefs

/-- The order in which `shadowFill` fills them: that of a walk through the list. -/
def shadowOrder (v : Venue) (s : Side) (tick : ℤ) (realRef : ℕ) : List ℕ :=
  walkOrder (v.hasToTrade s tick realRef) v.clientRefs.length v.clientRefs

theorem shadowOrder_perm (v : Venue) (s : Side) (tick : ℤ) (realRef : ℕ) :
    (v.shadowOrder s tick realRef).Perm (v.clientRefs.filter (v.hasToTrade s tick realRef)) :=
  walkOrder_perm _ (Nat.le_refl _)

/-- The search finds the best so far, or an order that crosses. -/
theorem foldl_betterClient (s : Side) (tick : ℤ) {refs : List ℕ} (h0 : ∀ r ∈ refs, r ≠ 0) (best : ℕ × Option ℕ × ℤ) :
    refs.foldl (v.betterClient s tick) best = best ∧ (best.1 = 0 → ∀ r ∈ refs, v.crosses s tick r = false) ∨
      (refs.foldl (v.betterClient s tick) best).1 ∈ refs ∧
        v.crosses s tick (refs.foldl (v.betterClient s tick) best).1 = true := by
  induction refs generalizing best with
  | nil => exact .inl ⟨rfl, fun _ r hr => nomatch hr⟩
  | cons ref refs ih =>
      have hturn : v.betterClient s tick best ref = best ∧ (best.1 = 0 → v.crosses s tick ref = false) ∨
          (v.betterClient s tick best ref).1 = ref ∧ v.crosses s tick ref = true := by
        unfold betterClient crosses
        cases hl : v.live.get? ref with
        | none => exact .inl ⟨rfl, fun _ => rfl⟩
        | some l =>
            simp only
            split_ifs with hside hbetter
            · exact .inl ⟨rfl, fun _ => by simp [hside]⟩
            · rw [Bool.and_eq_true] at hbetter
              exact .inr ⟨rfl, by simp only [ne_eq, hside, not_false_eq_true, decide_true, Bool.true_and]; exact hbetter.1⟩
            · refine .inl ⟨rfl, fun hzero => ?_⟩
              simp only [hzero, decide_true, Bool.true_or, Bool.and_true] at hbetter
              simp only [ne_eq, hside, not_false_eq_true, decide_true, Bool.true_and]
              exact Bool.eq_false_iff.mpr hbetter
      have hrefs : ∀ r ∈ refs, r ≠ 0 := fun r hr => h0 r (List.mem_cons_of_mem _ hr)
      rw [List.foldl_cons]
      obtain ⟨hsame, hno⟩ | ⟨hfound, hyes⟩ := hturn
      · rw [hsame]
        obtain ⟨hsame', hno'⟩ | ⟨hfound', hyes'⟩ := ih hrefs best
        · refine .inl ⟨hsame', fun hzero r hr => ?_⟩
          obtain rfl | hr := List.mem_cons.mp hr
          · exact hno hzero
          · exact hno' hzero r hr
        · exact .inr ⟨List.mem_cons_of_mem _ hfound', hyes'⟩
      · obtain ⟨hsame', -⟩ | ⟨hfound', hyes'⟩ := ih hrefs (v.betterClient s tick best ref)
        · rw [hsame', hfound]
          exact .inr ⟨List.mem_cons_self, hyes⟩
        · exact .inr ⟨List.mem_cons_of_mem _ hfound', hyes'⟩

theorem pick_none {refs : List ℕ} (h0 : ∀ r ∈ refs, r ≠ 0) (h : v.pick s tick refs = none) :
    ∀ r ∈ refs, v.crosses s tick r = false := by
  unfold pick at h
  simp only at h
  split_ifs at h with hzero
  obtain ⟨-, hno⟩ | ⟨hmem, -⟩ := foldl_betterClient (v := v) s tick h0 (0, none, 0)
  · exact hno rfl
  · exact absurd hzero (h0 _ hmem)

theorem pick_some {refs : List ℕ} (h0 : ∀ r ∈ refs, r ≠ 0) (h : v.pick s tick refs = some r) :
    r ∈ refs ∧ v.crosses s tick r = true := by
  unfold pick at h
  simp only at h
  split_ifs at h with hzero
  cases h
  obtain ⟨hsame, -⟩ | hfound := foldl_betterClient (v := v) s tick h0 (0, none, 0)
  · rw [hsame] at hzero
    exact absurd rfl hzero
  · exact hfound

theorem perm_dropRef {refs : List ℕ} (h : ref ∈ refs) : refs.Perm (ref :: dropRef refs ref) := by
  obtain ⟨pre, post, rfl, hperm⟩ := dropRef_perm h
  exact List.perm_middle.trans (hperm.symm.cons ref)

theorem crossOrder_perm (h0 : ∀ r ∈ v.clientRefs, r ≠ 0) (s : Side) (tick : ℤ) :
    (v.crossOrder s tick).Perm (v.clientRefs.filter (v.crosses s tick)) :=
  searchOrder_perm (g := (· ≠ 0)) (fun _ hl hnone => pick_none hl hnone) (fun _ hl _ hsome => pick_some hl hsome)
    (fun _ _ hr => perm_dropRef hr) h0 (Nat.le_succ _)

theorem mem_of_mem_dropRef {refs : List ℕ} (h : r ∈ dropRef refs ref) : r ∈ refs := by
  by_cases hmem : ref ∈ refs
  · exact (perm_dropRef hmem).mem_iff.mpr (List.mem_cons_of_mem _ h)
  · rw [dropRef, if_neg hmem] at h
    exact h

/-- The search looks at the entries of the list only. -/
theorem pick_congr {refs : List ℕ} (h : ∀ r ∈ refs, w.live.get? r = v.live.get? r) : w.pick s tick refs = v.pick s tick refs := by
  have hfold : ∀ best, refs.foldl (w.betterClient s tick) best = refs.foldl (v.betterClient s tick) best := by
    induction refs with
    | nil => exact fun _ => rfl
    | cons ref refs ih =>
        intro best
        have hturn : w.betterClient s tick best ref = v.betterClient s tick best ref := by
          unfold betterClient
          rw [h ref List.mem_cons_self]
        rw [List.foldl_cons, List.foldl_cons, hturn, ih fun r hr => h r (List.mem_cons_of_mem _ hr)]
  unfold pick
  rw [hfold]

/-! ### An order of the tape that crosses -/

/-- **The loop of `crossClients`** hands out the shares in the order of its searches. -/
theorem crossLoop_shadowed (hf : Filed own tape v A) (hb : v.engine.Queued A) (s : Side) (tick : ℤ) (fuel q : ℕ) :
    ∃ A', Shadowed own tape v A (handOut v.entryShares (searchOrder (v.pick s tick) dropRef fuel v.clientRefs) q)
      (crossLoop s tick fuel v q).2 A' := by
  induction fuel generalizing v A q with
  | zero => exact ⟨A, .nil hf hb⟩
  | succ fuel ih =>
      have hbest : (v.bestClient s tick).1 = (v.clientRefs.foldl (v.betterClient s tick) (0, none, 0)).1 := rfl
      unfold crossLoop
      by_cases hq : q = 0
      · rw [if_pos hq, hq, handOut_zero]
        exact ⟨A, .nil hf hb⟩
      rw [if_neg hq]
      simp only
      by_cases hzero : (v.bestClient s tick).1 = 0
      · have hpick : v.pick s tick v.clientRefs = none := if_pos (hbest ▸ hzero)
        rw [if_pos hzero, searchOrder, hpick]
        exact ⟨A, .nil hf hb⟩
      rw [if_neg hzero]
      have hpick : v.pick s tick v.clientRefs = some (v.bestClient s tick).1 := if_neg (hbest ▸ hzero)
      obtain ⟨hmem, l, hl, hhandle⟩ := bestClient_mem v s tick hzero
      rw [searchOrder, hpick, ← hhandle]
      generalize (v.bestClient s tick).1 = best at hpick hmem hl hzero ⊢
      have hget := hl
      rw [← FlatHashMap.lookup_eq_get? _ hzero] at hl
      obtain ⟨o, ho, rfl, hhandle', -, hcur⟩ := hf.order_of_live hb hl
      have hpos := hf.pos _ o ho
      have hshares : v.entryShares o.id = o.qty := by
        unfold entryShares
        rw [hget]
        exact hcur
      have hmin : (if q < o.qty then q else o.qty) = min q o.qty := by
        split_ifs <;> omega
      rw [hcur, hmin, handOut_cons hq, hshares]
      generalize hf' : min q o.qty = fill
      have hfill : 0 < fill ∧ fill ≤ o.qty ∧ fill ≤ q ∧ (fill ≠ o.qty → fill = q) := by omega
      have hone : FillsOrder own tape v A l o fill ((v.count fun m => { m with crossFills := inc64 m.crossFills }).fillClient o.id fill) := by
        have h := fillClient_order (v := v.count fun m => { m with crossFills := inc64 m.crossFills })
          (hf.congr rfl rfl) hb hl ho hhandle' hfill.1 hfill.2.1
        exact ⟨h.filed, h.queued, h.lookup, h.clientRefs, ⟨h.told.md, h.told.oe⟩⟩
      generalize (v.count fun m => { m with crossFills := inc64 m.crossFills }).fillClient o.id fill = w at hone ⊢
      have hfirst := Shadowed.one hone hf hl ho hhandle' hmem hfill.1 hfill.2.1
      obtain ⟨A', hrest⟩ := ih hone.filed hone.queued (q - fill)
      by_cases he : fill = o.qty
      · -- the order is used up: the next search is made without it
        have hrefs : w.clientRefs = dropRef v.clientRefs o.id := by rw [hone.clientRefs, if_pos he]
        have hkept : ∀ r ∈ dropRef v.clientRefs o.id, r ≠ o.id ∧ r ≠ 0 := by
          intro r hr
          obtain ⟨hr, hne⟩ := (mem_dropRef hf.nodup).mp hr
          exact ⟨hne, (hf.refs r hr).1⟩
        have horder : searchOrder (w.pick s tick) dropRef fuel w.clientRefs =
            searchOrder (v.pick s tick) dropRef fuel (dropRef v.clientRefs o.id) := by
          rw [hrefs]
          exact searchOrder_congr (P := fun r => r ≠ o.id ∧ r ≠ 0)
            (fun l hl => pick_congr fun r hr => hone.get? (hl r hr).1 (hl r hr).2) (fun l r b hb => mem_of_mem_dropRef hb) hkept fuel
        have hin : ∀ r ∈ searchOrder (v.pick s tick) dropRef fuel (dropRef v.clientRefs o.id), r ≠ o.id ∧ r ≠ 0 :=
          fun r hr => hkept r (mem_of_mem_searchOrder (g := (· ≠ 0)) (fun _ hl _ hsome => (pick_some hl hsome).1)
            (fun _ _ _ hb => mem_of_mem_dropRef hb) (fun r hr => (hkept r hr).2) hr)
        rw [horder, handOut_congr fun r hr => hone.entryShares hf hb ho (hin r hr).1 (hin r hr).2] at hrest
        have hlisted : ∀ f ∈ handOut v.entryShares (searchOrder (v.pick s tick) dropRef fuel (dropRef v.clientRefs o.id)) (q - fill),
            f.1 ∈ v.clientRefs ∧ f.1 ≠ o.id := fun f hf' => by
          have hmem' := hrest.listed f hf'
          rw [hrefs] at hmem'
          exact (mem_dropRef hf.nodup).mp hmem'
        refine ⟨A', hfirst.trans hrest (fun f hf' => (hlisted f hf').1) fun r hr hmem' => ?_⟩
        obtain rfl : r = o.id := by simpa using hr
        obtain ⟨f, hf', hid⟩ := List.mem_map.mp hmem'
        exact (hlisted f hf').2 hid
      · -- the shares are used up
        rw [hfill.2.2.2 he, Nat.sub_self, handOut_zero] at hrest ⊢
        rw [hfill.2.2.2 he] at hfirst
        exact ⟨A', by simpa using hfirst.trans hrest (by simp) (by simp)⟩

/-! ### The messages of the tape -/

/-- The executions that are told from one venue to a later one, by the references and the
shares. -/
def newFills (v w : Venue) : List (ℕ × ℕ) := (executions w.md).drop (executions v.md).length

theorem newFills_eq {fills : List (ℕ × ℕ)} (h : executions w.md = executions v.md ++ fills) : newFills v w = fills := by
  rw [newFills, h, List.drop_left]

theorem sent_takeShares (v : Venue) (ref shares : ℕ) (l : LiveOrder) : (v.takeShares ref shares l).sent = v.sent := by
  have hcancel : ∀ (v : Venue) (h : Option ℕ), (v.engineCancel h).2.sent = v.sent := fun v h => by cases h <;> rfl
  have hreduce : ∀ (v : Venue) (h : Option ℕ) (q : ℕ), (v.engineReduce h q).2.sent = v.sent := fun v h q => by cases h <;> rfl
  unfold takeShares removeReal
  simp only
  split_ifs
  · exact (eraseLive_same _ ref).1.trans (hcancel ..)
  · exact (eraseLive_same _ ref).1.trans (hcancel ..)
  · exact hreduce ..
  · exact hreduce ..

/-- An order of the tape fills the clients' orders in the order of the searches. -/
theorem newFills_mirrorAdd (hf : Filed own tape v A) (hb : v.engine.Queued A) {wire : ℕ} (hprice : v.validPrice wire = some tick)
    (ref : ℕ) (s : Side) (q : ℕ) : newFills v (v.mirrorAdd ref s wire q) = handOut v.entryShares (v.crossOrder s tick) q := by
  have hcross : executions (if v.clientRefs ≠ [] then (v.count fun m => { m with adds := inc64 m.adds }).crossClients s tick q
      else (q, v.count fun m => { m with adds := inc64 m.adds })).2.md =
      executions v.md ++ handOut v.entryShares (v.crossOrder s tick) q := by
    split_ifs with hnil
    · have hcounted : Filed own tape (v.count fun m => { m with adds := inc64 m.adds }) A := hf.congr rfl rfl
      obtain ⟨A', hsh⟩ := crossLoop_shadowed hcounted hb s tick (v.clientRefs.length + 1) q
      exact hsh.told.md
    · have hempty : v.crossOrder s tick = [] := by
        unfold crossOrder
        rw [not_ne_iff.mp hnil]
        rfl
      rw [hempty]
      exact (List.append_nil _).symm
  refine newFills_eq (Eq.trans ?_ hcross)
  have hprice' : (v.count fun m => { m with adds := inc64 m.adds }).validPrice wire = some tick := hprice
  unfold mirrorAdd
  simp only [hprice']
  rw [show (v.count fun m => { m with adds := inc64 m.adds }).clientRefs = v.clientRefs from rfl]
  generalize (if v.clientRefs ≠ [] then (v.count fun m => { m with adds := inc64 m.adds }).crossClients s tick q
    else (q, v.count fun m => { m with adds := inc64 m.adds })) = x
  obtain ⟨rem, w⟩ := x
  simp only
  split_ifs
  · rfl
  · cases w.engine.place ref s tick rem with
    | mk h b => cases h <;> rfl

/-- An execution fills them in the order of the walk. -/
theorem newFills_mirrorExecute (hf : Filed own tape v A) (hb : v.engine.Queued A) (hl : v.live.get? ref = some l)
    (hreal : ref ∉ v.clientRefs) (shares : ℕ) :
    newFills v (v.mirrorExecute ref shares) = handOut v.entryShares (v.shadowOrder l.side l.tick ref) shares := by
  have hcounted : Filed own tape (v.count fun m => { m with executes := inc64 m.executes }) A := hf.congr rfl rfl
  obtain ⟨A', hsh⟩ : ∃ A', Shadowed own tape (v.count fun m => { m with executes := inc64 m.executes }) A
      (handOut v.entryShares (v.shadowOrder l.side l.tick ref) shares) (v.shadowed ref shares l) A' := by
    obtain ⟨fills, A', hsh, -, -, -, rfl⟩ := shadowLoop_shadowed hcounted hb hreal v.clientRefs.length 0 shares le_rfl (by simp)
    exact ⟨A', hsh⟩
  refine newFills_eq ?_
  rw [mirrorExecute_eq hl, Venue.md, sent_takeShares]
  exact hsh.told.md

/-- The clients' orders that a message of the tape fills are filled in priority. -/
def FillsInPriority (v : Venue) : Op → Prop
  | .mirrorAdd ref s wire q => ∀ tick, v.validPrice wire = some tick →
      v.InPriority s.opposite (v.crosses s tick) (newFills v (v.mirrorAdd ref s wire q))
  | .mirrorExecute ref shares => ∀ l, v.live.get? ref = some l →
      v.InPriority l.side (v.hasToTrade l.side l.tick ref) (newFills v (v.mirrorExecute ref shares))
  | _ => True

/-- The loop comes to the clients' orders in priority, until the shares are used up. -/
def ComesInPriority (v : Venue) : Op → Prop
  | .mirrorAdd _ s wire q => ∀ tick, v.validPrice wire = some tick → v.Ranked s.opposite (v.crossOrder s tick) q
  | .mirrorExecute ref shares => ∀ l, v.live.get? ref = some l → v.Ranked l.side (v.shadowOrder l.side l.tick ref) shares
  | _ => True

/-- The message does not execute a client's order. -/
def ExecutesTape (v : Venue) : Op → Prop
  | .mirrorExecute ref _ => ref ∉ v.clientRefs
  | _ => True

theorem Shelved.inPriority_iff (h : Shelved own tape v) (op : Op) (hop : v.ExecutesTape op) :
    v.FillsInPriority op ↔ v.ComesInPriority op := by
  obtain ⟨A, hf, hb⟩ := h
  cases op with
  | mirrorAdd ref s wire q =>
      refine forall_congr' fun tick => imp_congr_right fun hprice => ?_
      rw [newFills_mirrorAdd hf hb hprice]
      exact inPriority_handOut_iff (crossOrder_perm (fun r hr => (hf.refs r hr).1) s tick) hf.nodup s.opposite q
  | mirrorExecute ref shares =>
      refine forall_congr' fun l => imp_congr_right fun hl => ?_
      rw [newFills_mirrorExecute hf hb hl hop]
      exact inPriority_handOut_iff (shadowOrder_perm v l.side l.tick ref) hf.nodup l.side shares
  | _ => exact Iff.rfl

/-- Three clients offer ten shares each at the same price, after an offer of the tape. -/
def threeOffers : List Op :=
  [.mirrorAdd 7 .sell 5100 100, .request (.enterOrder ⟨1, .sell, 10, [65], 5000, .day⟩),
    .request (.enterOrder ⟨2, .sell, 10, [65], 5000, .day⟩), .request (.enterOrder ⟨3, .sell, 10, [65], 5000, .day⟩)]

/-- The second offer stands before the third in the queue. -/
theorem second_outranks_third : (sampleVenue.run threeOffers).Outranks .sell (2 ^ 62 + 1) (2 ^ 62 + 2) :=
  ⟨by decide, ⟨some 2, .sell, 50, true, 2⟩, ⟨some 3, .sell, 50, true, 3⟩, by decide +kernel, by decide +kernel,
    .inr ⟨rfl, by decide +kernel⟩⟩

end TickToTrade.Sim.Venue
