import TickToTrade.Lob.BookOps

/-!
# The orders of a book whose levels may overflow

The shares of a level are a 32-bit word. Where they may wrap, a best price can be wrong
and an order can trade with others than price-time priority asks for. What stays true is
stated here: which orders rest, and that each trade takes its shares from one of them
(`Hits`). These results ask for nothing but `Queued`.
-/

namespace TickToTrade

open Util

namespace Sides

variable {K : Type*} [DecidableEq K]

/-- The sides after a resting order has lost shares; an order without any leaves. -/
def less (A : Sides K) (s : Side) (o : Resting K) (q : ℕ) : Sides K :=
  if q = o.qty then A.without s o.key else A.resized s o.key (o.qty - q)

/-- A trade with an order of the side `s`. -/
def Hits (A : Sides K) (s : Side) (t : Trade) (A' : Sides K) : Prop :=
  ∃ o ∈ A s, t.restingId = o.id ∧ t.price = o.price ∧ 0 < t.qty ∧ t.qty ≤ o.qty ∧
    (t.restingFilled ↔ t.qty = o.qty) ∧ A' = A.less s o t.qty

/-- Trades with orders of the side `s`, one after the other. -/
def HitsAll (A : Sides K) (s : Side) : List Trade → Sides K → Prop
  | [], A' => A' = A
  | t :: ts, A' => ∃ A₁, A.Hits s t A₁ ∧ HitsAll A₁ s ts A'

theorem HitsAll.append {A A' A'' : Sides K} {s : Side} {ts ts' : List Trade} (h : A.HitsAll s ts A')
    (h' : A'.HitsAll s ts' A'') : A.HitsAll s (ts ++ ts') A'' := by
  induction ts generalizing A with
  | nil => cases h; exact h'
  | cons t ts ih =>
      obtain ⟨A₁, ht, hts⟩ := h
      exact ⟨A₁, ht, ih hts⟩

end Sides

/-! ### Sides with one order changed -/

namespace Sides

variable {K : Type*} [DecidableEq K] {A : Sides K} {s s' : Side} {o x : Resting K} {k : K} {q : ℕ}

/-- A key belongs to one order only. -/
def Distinct (A : Sides K) : Prop := ∀ ⦃s o s' o'⦄, o ∈ A s → o' ∈ A s' → o.key = o'.key → s = s' ∧ o = o'

theorem mem_without (hd : A.Distinct) (ho : o ∈ A s) : x ∈ A.without s o.key s' ↔ x ∈ A s' ∧ x.key ≠ o.key := by
  unfold without
  by_cases hs : s' = s
  · subst hs
    rw [Function.update_self, mem_remove]
  · rw [Function.update_of_ne hs]
    exact ⟨fun hx => ⟨hx, fun hk => hs (hd hx ho hk).1⟩, fun h => h.1⟩

theorem mem_resized (hd : A.Distinct) (ho : o ∈ A s) :
    x ∈ A.resized s o.key q s' ↔ (x ∈ A s' ∧ x.key ≠ o.key) ∨ (s' = s ∧ x = { o with qty := q }) := by
  unfold resized
  by_cases hs : s' = s
  · subst hs
    rw [Function.update_self]
    constructor
    · intro hx
      obtain ⟨y, hy, ⟨hk, rfl⟩ | ⟨hk, rfl⟩⟩ := mem_resize hx
      · exact .inl ⟨hy, hk⟩
      · rw [(hd hy ho hk).2]
        exact .inr ⟨rfl, rfl⟩
    · rintro (⟨hx, hk⟩ | ⟨-, rfl⟩)
      · exact List.mem_map.mpr ⟨x, hx, if_neg hk⟩
      · exact List.mem_map.mpr ⟨o, ho, if_pos rfl⟩
  · rw [Function.update_of_ne hs]
    constructor
    · exact fun hx => .inl ⟨hx, fun hk => hs (hd hx ho hk).1⟩
    · rintro (h | h)
      · exact h.1
      · exact absurd h.1 hs

omit [DecidableEq K] in
theorem mem_rested_iff : x ∈ A.rested s o s' ↔ x ∈ A s' ∨ (s' = s ∧ x = o) := by
  refine ⟨mem_rested, ?_⟩
  unfold rested
  rintro (hx | ⟨rfl, rfl⟩)
  · by_cases hs : s' = s
    · subst hs
      rw [Function.update_self]
      exact mem_enqueue.mpr (.inr hx)
    · rw [Function.update_of_ne hs]
      exact hx
  · rw [Function.update_self]
    exact mem_enqueue.mpr (.inl rfl)

theorem Distinct.without (hd : A.Distinct) (ho : o ∈ A s) : (A.without s o.key).Distinct :=
  fun _ _ _ _ hx hy => hd ((mem_without hd ho).mp hx).1 ((mem_without hd ho).mp hy).1

theorem Distinct.resized (hd : A.Distinct) (ho : o ∈ A s) : (A.resized s o.key q).Distinct := by
  intro s₁ x s₂ y hx hy hk
  obtain ⟨hx, hxk⟩ | ⟨rfl, rfl⟩ := (mem_resized hd ho).mp hx
  · obtain ⟨hy, -⟩ | ⟨rfl, rfl⟩ := (mem_resized hd ho).mp hy
    · exact hd hx hy hk
    · exact absurd hk hxk
  · obtain ⟨-, hyk⟩ | ⟨rfl, rfl⟩ := (mem_resized hd ho).mp hy
    · exact absurd hk.symm hyk
    · exact ⟨rfl, rfl⟩

omit [DecidableEq K] in
theorem Distinct.rested (hd : A.Distinct) (hfresh : ∀ s', ∀ x ∈ A s', x.key ≠ o.key) : (A.rested s o).Distinct := by
  intro s₁ x s₂ y hx hy hk
  obtain hx' | ⟨hs, hxo⟩ := mem_rested hx
  · obtain hy' | ⟨-, hyo⟩ := mem_rested hy
    · exact hd hx' hy' hk
    · exact absurd (hk.trans (congrArg _ hyo)) (hfresh s₁ x hx')
  · obtain hy' | ⟨hs', hyo⟩ := mem_rested hy
    · exact absurd (hk.symm.trans (congrArg _ hxo)) (hfresh s₂ y hy')
    · exact ⟨hs.trans hs'.symm, hxo.trans hyo.symm⟩

/-- An order after one has lost shares was there before, under its key. -/
theorem mem_less (hd : A.Distinct) (ho : o ∈ A s) (hx : x ∈ A.less s o q s') :
    ∃ y ∈ A s', y.key = x.key ∧ y.id = x.id ∧ y.price = x.price := by
  unfold less at hx
  split_ifs at hx
  · exact ⟨x, ((mem_without hd ho).mp hx).1, rfl, rfl, rfl⟩
  · obtain ⟨hx, -⟩ | ⟨rfl, rfl⟩ := (mem_resized hd ho).mp hx
    · exact ⟨x, hx, rfl, rfl, rfl⟩
    · exact ⟨o, ho, rfl, rfl, rfl⟩

theorem Distinct.less (hd : A.Distinct) (ho : o ∈ A s) : (A.less s o q).Distinct := by
  unfold Sides.less
  split_ifs
  · exact hd.without ho
  · exact hd.resized ho

/-- Trades bring no order. -/
theorem mem_hitsAll {A' : Sides K} {ts : List Trade} (hd : A.Distinct) (hts : A.HitsAll s ts A') (hx : x ∈ A' s') :
    ∃ y ∈ A s', y.id = x.id := by
  induction ts generalizing A with
  | nil =>
      cases hts
      exact ⟨x, hx, rfl⟩
  | cons t ts ih =>
      obtain ⟨A₁, ⟨o, ho, -, -, -, -, -, rfl⟩, hts⟩ := hts
      obtain ⟨y, hy, hid⟩ := ih (hd.less ho) hts
      obtain ⟨z, hz, -, hzid, -⟩ := mem_less hd ho hy
      exact ⟨z, hz, hzid.trans hid⟩

end Sides

theorem OrderBook.Queued.distinct {b : OrderBook} {A : Sides ℕ} (h : OrderBook.Queued b A) : A.Distinct :=
  fun _ _ _ _ ho ho' hk => h.eq_of_key ho ho' hk

/-! ### Trades -/

/-- The shares of the trades. -/
def tradedShares (ts : List Trade) : ℕ := (ts.map Trade.qty).sum

@[simp] theorem tradedShares_nil : tradedShares [] = 0 := rfl

@[simp] theorem tradedShares_cons (t : Trade) (ts : List Trade) : tradedShares (t :: ts) = t.qty + tradedShares ts :=
  List.sum_cons

@[simp] theorem tradedShares_append (ts ts' : List Trade) :
    tradedShares (ts ++ ts') = tradedShares ts + tradedShares ts' := by
  simp [tradedShares]

namespace OrderBook

variable {b : OrderBook} {A : Sides ℕ} {s : Side} {o : Resting ℕ} {p : ℤ} {q : ℕ}

namespace Queued

/-! ### Trading -/

/-- The first order of a queue that is not empty. -/
theorem exists_head (hb : Queued b A) {h : ℕ} (hhead : (b.levels s p).head = some h) :
    ∃ o ∈ A s, o.key = h ∧ o.price = p ∧ b.prev o.key = none := by
  rw [(hb.queues s p).head] at hhead
  cases hl : level (A s) p with
  | nil => rw [hl] at hhead; cases hhead
  | cons o M =>
      rw [hl] at hhead
      cases hhead
      have ho : o ∈ level (A s) p := by rw [hl]; exact List.mem_cons_self
      obtain ⟨hmem, -, hprev, -⟩ := hb.head_level hl
      exact ⟨o, hmem, rfl, (mem_level.mp ho).2, hprev⟩

/-- One turn of the loop of `matchLevel` takes the shares from the order. -/
theorem trade (hb : Queued b A) (ho : o ∈ A s) (hprev : b.prev o.key = none) (hle : q ≤ o.qty) :
    Queued (b.trade s o.price o.key q) (A.less s o q) ∧ SameFrame b (b.trade s o.price o.key q) := by
  have hqty : (b.data o.key).qty = o.qty := congrArg Data.qty (hb.cells s o ho)
  unfold Sides.less
  split_ifs with he
  · have hd := drops_trade hprev s o.price
    rw [hqty, ← he] at hd
    exact ⟨hb.drop ho hd, hd.toSameFrame⟩
  · have hr := resizes_trade (b := b) (h := o.key) (q := q) (by omega) s o.price
    rw [hqty] at hr
    exact ⟨hb.resize ho (by omega) hr, hr.toSameFrame⟩

theorem matchLoop (hb : Queued b A) (aggId : ℕ) (aggSide s : Side) (p : ℤ) (fuel q : ℕ) :
    ∃ b' left ts A', matchLoop aggId aggSide s p fuel b q = (b', left, ts) ∧ Queued b' A' ∧ A.HitsAll s ts A' ∧
      left + tradedShares ts = q ∧ SameFrame b b' := by
  induction fuel generalizing b A q with
  | zero => exact ⟨b, q, [], A, rfl, hb, rfl, rfl, SameFrame.refl b⟩
  | succ fuel ih =>
      unfold OrderBook.matchLoop
      cases hhead : (b.levels s p).head with
      | none => exact ⟨b, q, [], A, rfl, hb, rfl, rfl, SameFrame.refl b⟩
      | some h =>
          simp only
          by_cases hq : q = 0
          · rw [if_pos hq]
            exact ⟨b, q, [], A, rfl, hb, rfl, rfl, SameFrame.refl b⟩
          rw [if_neg hq]
          obtain ⟨o, ho, rfl, rfl, hprev⟩ := hb.exists_head hhead
          have hcell := hb.cells s o ho
          have hid : (b.pool o.key).id = o.id := congrArg Data.id hcell
          have hprice : (b.pool o.key).price = o.price := congrArg Data.price hcell
          have hqty : (b.pool o.key).qty = o.qty := congrArg Data.qty hcell
          have hpos := hb.pos s o ho
          rw [hid, hprice, hqty]
          generalize hf : (if q < o.qty then q else o.qty) = fill
          have hfill : 0 < fill ∧ fill ≤ o.qty ∧ fill ≤ q := by
            rw [← hf]; split_ifs <;> omega
          obtain ⟨hb₁, hframe₁⟩ := hb.trade ho hprev hfill.2.1
          obtain ⟨b', left, ts, A', heq, hb', hts, hsum, hframe⟩ := ih hb₁ (q - fill)
          rw [heq]
          refine ⟨b', left, _, A', rfl, hb', ⟨_, ⟨o, ho, rfl, rfl, hfill.1, hfill.2.1, ?_, rfl⟩, hts⟩, ?_,
            hframe₁.trans hframe⟩
          · exact decide_eq_true_iff
          · rw [tradedShares_cons]
            simp only
            omega

theorem rescanBest (hb : Queued b A) (s : Side) : Queued (b.rescanBest s) A := by
  rw [rescanBest_eq]
  exact hb.with_best _

theorem matchLevels (hb : Queued b A) (aggId : ℕ) (aggSide : Side) (limit : ℤ) (fuel q : ℕ) :
    ∃ b' left ts A', matchLevels aggId aggSide limit fuel b q = (b', left, ts) ∧ Queued b' A' ∧
      A.HitsAll aggSide.opposite ts A' ∧ left + tradedShares ts = q ∧ SameRange b b' := by
  induction fuel generalizing b A q with
  | zero => exact ⟨b, q, [], A, rfl, hb, rfl, rfl, rfl, rfl⟩
  | succ fuel ih =>
      unfold OrderBook.matchLevels
      simp only
      split_ifs with hgo
      · unfold matchBest matchLevel
        obtain ⟨b₁, left₁, ts₁, A₁, heq₁, hb₁, hts₁, hsum₁, hframe₁⟩ :=
          hb.matchLoop aggId aggSide aggSide.opposite (b.best aggSide.opposite) b.size q
        simp only [heq₁]
        generalize hb₂ : (if _ = 0 then b₁.rescanBest aggSide.opposite else b₁) = b₂
        have hnext : Queued b₂ A₁ ∧ SameRange b₁ b₂ := by
          rw [← hb₂]
          split_ifs
          · exact ⟨hb₁.rescanBest _, sameRange_rescanBest ..⟩
          · exact ⟨hb₁, rfl, rfl⟩
        obtain ⟨b', left, ts, A', heq, hb', hts, hsum, hrange⟩ := ih hnext.1 left₁
        rw [heq]
        refine ⟨b', left, ts₁ ++ ts, A', rfl, hb', hts₁.append hts, ?_, ?_⟩
        · rw [tradedShares_append]; omega
        · exact ⟨hrange.1.trans (hnext.2.1.trans hframe₁.minPrice), hrange.2.trans (hnext.2.2.trans hframe₁.maxPrice)⟩
      · exact ⟨b, q, [], A, rfl, hb, rfl, rfl, rfl, rfl⟩

/-- **`match` takes what it trades from orders of the other side.** -/
theorem «match» (hb : Queued b A) (id : ℕ) (side : Side) (hq : q ≠ 0) (hp : b.InRange p) :
    ∃ b' left ts A', b.match id side p q = (b', left, ts) ∧ Queued b' A' ∧ A.HitsAll side.opposite ts A' ∧
      left + tradedShares ts = q ∧ SameRange b b' := by
  unfold OrderBook.match
  rw [if_neg (by tauto)]
  exact hb.matchLevels ..

/-! ### Resting -/

/-- An order comes to rest under a handle that no other order has. -/
theorem rest (hb : Queued b A) (id : ℕ) (s : Side) (hq : 0 < q) (hp : b.InRange p) :
    ∃ h b', b.rest id s p q = (h, b') ∧ (∀ s', ∀ x ∈ A s', x.key ≠ h) ∧ Queued b' (A.rested s ⟨h, id, p, q⟩) ∧
      SameRange b b' ∧ (b'.order h).qty = q := by
  obtain ⟨hb₂, hcell, -, hmin, hmax, -⟩ := hb.alloc id s p q
  have heq : b.rest id s p q = (b.alloc.1, ((b.alloc.2.setOrder b.alloc.1
      { id := id, price := p, qty := q, side := s, prev := none, next := none }).append s p b.alloc.1 q).improve s p) :=
    rfl
  refine ⟨_, _, heq, hcell.fresh, ?_⟩
  clear heq
  revert hb₂ hcell hmin hmax
  generalize b.alloc.2.setOrder b.alloc.1 _ = b₂
  intro hb₂ hcell hmin hmax
  have hj := joins_append hcell.prev s p q
  have hb₃ := hb₂.join hcell hq (by rw [InRange, hmin, hmax]; exact hp) hj
  obtain ⟨hmin', hmax'⟩ := improve_range (b₂.append s p b.alloc.1 q) s p
  have himprove : Queued ((b₂.append s p b.alloc.1 q).improve s p) (A.rested s ⟨b.alloc.1, id, p, q⟩) := by
    unfold improve
    split_ifs
    · exact hb₃.with_best _
    · exact hb₃
  refine ⟨himprove, ⟨hmin'.trans (hj.minPrice.trans hmin), hmax'.trans (hj.maxPrice.trans hmax)⟩, ?_⟩
  have hmem : (⟨b.alloc.1, id, p, q⟩ : Resting ℕ) ∈ A.rested s ⟨b.alloc.1, id, p, q⟩ s := by
    rw [Sides.rested, Function.update_self]
    exact mem_enqueue.mpr (.inl rfl)
  exact congrArg Data.qty (himprove.cells s _ hmem)

theorem place (hb : Queued b A) (id : ℕ) (s : Side) (hq : q ≠ 0) (hp : b.InRange p) :
    ∃ h b', b.place id s p q = (some h, b') ∧ (∀ s', ∀ x ∈ A s', x.key ≠ h) ∧
      Queued b' (A.rested s ⟨h, id, p, q⟩) ∧ SameRange b b' := by
  obtain ⟨h, b', heq, hfresh, hb', hrange, -⟩ := hb.rest id s (Nat.pos_of_ne_zero hq) hp
  unfold OrderBook.place
  rw [if_neg (by tauto), heq]
  exact ⟨h, b', rfl, hfresh, hb', hrange⟩

/-- **`add` takes what it trades from orders of the other side and lets the rest rest.** -/
theorem add (hb : Queued b A) (id : ℕ) (side : Side) (hq : q ≠ 0) (hp : b.InRange p) :
    ∃ h b' left ts A₁, b.add id side p q = (h, b', ts) ∧ A.HitsAll side.opposite ts A₁ ∧ left + tradedShares ts = q ∧
      SameRange b b' ∧
      (h = none ∧ left = 0 ∧ Queued b' A₁ ∨
        ∃ k, h = some k ∧ 0 < left ∧ (∀ s, ∀ x ∈ A₁ s, x.key ≠ k) ∧ Queued b' (A₁.rested side ⟨k, id, p, left⟩) ∧
          (b'.order k).qty = left) := by
  obtain ⟨b₁, left, ts, A₁, heq, hb₁, hts, hsum, hrange⟩ := hb.match id side hq hp
  unfold OrderBook.add
  rw [if_neg (by tauto), heq]
  simp only
  split_ifs with hleft
  · obtain ⟨k, b₂, heq₂, hfresh, hb₂, hrange₂, hqty⟩ :=
      hb₁.rest id side hleft (by rw [InRange, hrange.1, hrange.2]; exact hp)
    rw [heq₂]
    exact ⟨_, _, left, ts, A₁, rfl, hts, hsum, ⟨hrange₂.1.trans hrange.1, hrange₂.2.trans hrange.2⟩,
      .inr ⟨k, rfl, hleft, hfresh, hb₂, hqty⟩⟩
  · exact ⟨_, _, left, ts, A₁, rfl, hts, hsum, hrange, .inl ⟨rfl, by omega, hb₁⟩⟩

/-! ### Changing resting orders -/

/-- **`cancel` takes the order out.** -/
theorem cancel (hb : Queued b A) (ho : o ∈ A s) :
    ∃ b', b.cancel o.key = (o.qty, b') ∧ Queued b' (A.without s o.key) ∧ SameRange b b' := by
  have hcell := hb.cells s o ho
  have hprice : (b.pool o.key).price = o.price := congrArg Data.price hcell
  have hqty : (b.pool o.key).qty = o.qty := congrArg Data.qty hcell
  have hside : (b.pool o.key).side = s := congrArg Data.side hcell
  have hpos := hb.pos s o ho
  have hlt := hb.lt s o ho
  unfold OrderBook.cancel
  simp only [hprice, hqty, hside]
  rw [if_neg (by omega), if_neg (by omega)]
  have hd := drops_dropOrder b s o.price o.key
  rw [show (b.data o.key).qty = o.qty from hqty] at hd
  generalize b.dropOrder s o.price o.key o.qty = b₁ at hd ⊢
  have hb₁ := hb.drop ho hd
  refine ⟨_, rfl, ?_⟩
  split_ifs
  · obtain ⟨hmin, hmax⟩ := sameRange_rescanBest b₁ s
    exact ⟨hb₁.rescanBest s, hmin.trans hd.minPrice, hmax.trans hd.maxPrice⟩
  · exact ⟨hb₁, hd.minPrice, hd.maxPrice⟩

/-- **`reduce` takes shares from the order.** -/
theorem reduce (hb : Queued b A) (ho : o ∈ A s) (hq : 0 < q) (hlt : q < o.qty) :
    ∃ b', b.reduce o.key q = (o.qty - q, b') ∧ Queued b' (A.resized s o.key q) ∧ SameRange b b' := by
  have hcell := hb.cells s o ho
  have hprice : (b.pool o.key).price = o.price := congrArg Data.price hcell
  have hqty : (b.pool o.key).qty = o.qty := congrArg Data.qty hcell
  have hside : (b.pool o.key).side = s := congrArg Data.side hcell
  have hkey := hb.lt s o ho
  unfold OrderBook.reduce
  simp only [hprice, hqty, hside]
  rw [if_neg (by omega), if_neg (by omega), if_neg (by omega)]
  have hr := resizes_shrinkOrder b s o.price o.key q
  rw [show (b.data o.key).qty = o.qty from hqty] at hr
  exact ⟨_, rfl, hb.resize ho hq hr, hr.minPrice, hr.maxPrice⟩

/-- The cell of an order has its shares. -/
theorem order_qty (hb : Queued b A) (ho : o ∈ A s) : (b.order o.key).qty = o.qty :=
  congrArg Data.qty (hb.cells s o ho)

end Queued

/-! ### Cells without shares -/

theorem data_rescanBest (b : OrderBook) (s : Side) : (b.rescanBest s).data = b.data := by
  cases s <;> rfl

theorem data_cancel (b : OrderBook) (h : ℕ) :
    (b.cancel h).2.data = b.data ∨ (b.cancel h).2.data = Function.update b.data h { b.data h with qty := 0 } := by
  have hdrop := (drops_dropOrder b (b.pool h).side (b.pool h).price h).data
  unfold OrderBook.cancel
  simp only
  split_ifs
  · exact .inl rfl
  · exact .inl rfl
  · exact .inr ((data_rescanBest ..).trans hdrop)
  · exact .inr hdrop

/-- A cell without shares gets none when orders lose theirs. -/
theorem qty_cancel_of_zero {k : ℕ} (hk : (b.order k).qty = 0) (h : ℕ) : ((b.cancel h).2.order k).qty = 0 := by
  change ((b.cancel h).2.data k).qty = 0
  obtain hdata | hdata := data_cancel b h
  · rw [hdata]
    exact hk
  · rw [hdata]
    by_cases hkh : k = h
    · rw [hkh, Function.update_self]
    · rw [Function.update_of_ne hkh]
      exact hk

theorem qty_reduce_of_zero {k : ℕ} (hk : (b.order k).qty = 0) (h newQty : ℕ) :
    ((b.reduce h newQty).2.order k).qty = 0 := by
  have hshrink := (resizes_shrinkOrder b (b.pool h).side (b.pool h).price h newQty).data
  unfold OrderBook.reduce
  simp only
  split_ifs with _ hnone
  · exact hk
  · exact hk
  · exact qty_cancel_of_zero hk h
  · have hne : k ≠ h := by
      rintro rfl
      exact hnone (.inl hk)
    have hdata := congrFun hshrink k
    rw [Function.update_of_ne hne] at hdata
    exact (congrArg Data.qty hdata).trans hk

/-- The cell of an order that has left has no shares. -/
theorem Queued.qty_cancel (hb : Queued b A) (ho : o ∈ A s) : ((b.cancel o.key).2.order o.key).qty = 0 := by
  have hcell := hb.cells s o ho
  have hqty : (b.pool o.key).qty = o.qty := congrArg Data.qty hcell
  have hpos := hb.pos s o ho
  have hlt := hb.lt s o ho
  change ((b.cancel o.key).2.data o.key).qty = 0
  have hdrop := (drops_dropOrder b (b.pool o.key).side (b.pool o.key).price o.key).data
  have hdata : (b.cancel o.key).2.data = Function.update b.data o.key { b.data o.key with qty := 0 } := by
    unfold OrderBook.cancel
    simp only
    rw [if_neg (by omega), if_neg (by omega)]
    split_ifs
    · exact (data_rescanBest ..).trans hdrop
    · exact hdrop
  rw [hdata, Function.update_self]

/-! ### Walking over a level -/

/-- The handles that a walk passes, from one on, over `fuel` orders at most. -/
def handlesFrom (b : OrderBook) : ℕ → Option ℕ → List ℕ
  | fuel + 1, some h => h :: b.handlesFrom fuel (b.pool h).next
  | _, _ => []

/-- The handles of the orders of a level, in the order of their arrival. -/
def handlesAtLevel (b : OrderBook) (s : Side) (p : ℤ) : List ℕ :=
  if b.InRange p then b.handlesFrom b.size (b.levels s p).head else []

theorem ordersFrom_eq_map (b : OrderBook) (fuel : ℕ) (e : Option ℕ) :
    b.ordersFrom fuel e = (b.handlesFrom fuel e).map b.order := by
  induction fuel generalizing e with
  | zero => cases e <;> rfl
  | succ fuel ih =>
      cases e with
      | none => rfl
      | some h => rw [ordersFrom, handlesFrom, ih, List.map_cons]; rfl

/-- The walk visits the orders of the handles. -/
theorem ordersAtLevel_eq_map (b : OrderBook) (s : Side) (p : ℤ) :
    b.ordersAtLevel s p = (b.handlesAtLevel s p).map b.order := by
  unfold ordersAtLevel handlesAtLevel
  split_ifs
  · exact ordersFrom_eq_map ..
  · rfl

theorem handlesFrom_linked {l : List ℕ} {before : Option ℕ} (fuel : ℕ) (hl : Linked b.next b.prev before l none)
    (hfuel : l.length ≤ fuel) : b.handlesFrom fuel l.head? = l := by
  induction l generalizing fuel before with
  | nil => cases fuel <;> rfl
  | cons h l ih =>
      obtain ⟨fuel, rfl⟩ : ∃ n, fuel = n + 1 := ⟨fuel - 1, by simp only [List.length_cons] at hfuel; omega⟩
      have hnext : (b.pool h).next = l.head? := hl.next_head
      rw [List.head?_cons, handlesFrom, hnext, ih fuel hl.2.2 (by simp only [List.length_cons] at hfuel; omega)]

/-- The walk over a level passes the handles of its orders. -/
theorem Queued.handlesAtLevel_eq (hb : Queued b A) (s : Side) (p : ℤ) : b.handlesAtLevel s p = keys (level (A s) p) := by
  unfold handlesAtLevel
  split_ifs with hp
  · have hq := hb.queues s p
    have hlen : (keys (level (A s) p)).length ≤ b.size := by
      have hsub : (level (A s) p).length ≤ (A s).length := List.length_filter_le ..
      rw [keys, List.length_map]
      exact Nat.le_trans hsub (hb.length_le s)
    rw [hq.head, handlesFrom_linked b.size hq.linked hlen]
  · rw [level_eq_nil_iff.mpr fun o ho he => hp (by rw [← he]; exact hb.range s o ho)]
    rfl

/-- The cell of a resting order. -/
theorem Queued.cell (hb : Queued b A) (ho : o ∈ A s) :
    (b.order o.key).id = o.id ∧ (b.order o.key).price = o.price ∧ (b.order o.key).side = s :=
  ⟨congrArg Data.id (hb.cells s o ho), congrArg Data.price (hb.cells s o ho), congrArg Data.side (hb.cells s o ho)⟩

/-- The walk over a level passes the orders of the side at the price. -/
theorem Queued.mem_handles (hb : Queued b A) {k : ℕ} : k ∈ b.handlesAtLevel s p ↔ ∃ o ∈ A s, o.key = k ∧ o.price = p := by
  rw [hb.handlesAtLevel_eq, keys, List.mem_map]
  constructor
  · rintro ⟨o, ho, rfl⟩
    obtain ⟨hmem, hp⟩ := mem_level.mp ho
    exact ⟨o, hmem, rfl, hp⟩
  · rintro ⟨o, ho, rfl, hp⟩
    exact ⟨o, mem_level.mpr ⟨ho, hp⟩, rfl⟩

/-- The queues and the cells determine the orders. -/
theorem Queued.mem_iff {A' : Sides ℕ} (hb : Queued b A) (hb' : Queued b A') : o ∈ A s ↔ o ∈ A' s := by
  have hsub : ∀ {A A' : Sides ℕ}, Queued b A → Queued b A' → o ∈ A s → o ∈ A' s := by
    intro A A' hb hb' ho
    obtain ⟨o', ho', hk, hp⟩ := hb'.mem_handles.mp (hb.mem_handles.mpr ⟨o, ho, rfl, rfl⟩)
    have hcell := hb.cells s o ho
    rw [← hk, hb'.cells s o' ho'] at hcell
    obtain ⟨k', i', p', q'⟩ := o'
    obtain ⟨k, i, p, q⟩ := o
    simp only [Data.mk.injEq] at hcell
    obtain ⟨rfl, rfl, rfl, -⟩ := hcell
    obtain rfl : k' = k := hk
    exact ho'
  exact ⟨hsub hb hb', hsub hb' hb⟩

theorem queued_new (minPrice maxPrice : ℤ) : Queued (new minPrice maxPrice) fun _ => [] :=
  (holds_new minPrice maxPrice).toQueued

end OrderBook

end TickToTrade
