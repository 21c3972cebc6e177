import TickToTrade.Lob.BookStore

/-!
# What the operations of the order book do

Each operation is followed through the store: which cells and levels it changes
(`Drops`, `Resizes`, `Joins`), and then what it does to the lists of orders. The two
loops of `match` together trade an arriving order just as `fill` does.
-/

namespace TickToTrade.OrderBook

open Util

variable {b b' : OrderBook} {A : Side → List (Resting ℕ)} {s : Side} {o : Resting ℕ} {p limit : ℤ}
  {h q aggId : ℕ} {aggSide : Side}

/-! ### Steps of the store -/

theorem setAt_setAt (levels : Side → ℤ → Level) (s : Side) (p : ℤ) (lvl lvl' : Level) :
    setAt (setAt levels s p lvl) s p lvl' = setAt levels s p lvl' := by
  simp [setAt]

theorem levels_takeShares (b : OrderBook) (s : Side) (p : ℤ) (q : ℕ) : (b.takeShares s p q).levels =
    setAt b.levels s p { b.levels s p with totalQty := ((b.levels s p).totalQty + 2 ^ 32 - q) % 2 ^ 32 } := rfl

theorem next_setQty (b : OrderBook) (h q : ℕ) : (b.setOrder h { b.pool h with qty := q }).next = b.next :=
  (next_setOrder ..).trans (Function.update_eq_self ..)

theorem prev_setQty (b : OrderBook) (h q : ℕ) : (b.setOrder h { b.pool h with qty := q }).prev = b.prev :=
  (prev_setOrder ..).trans (Function.update_eq_self ..)

theorem data_setQty (b : OrderBook) (h q : ℕ) :
    (b.setOrder h { b.pool h with qty := q }).data = Function.update b.data h { b.data h with qty := q } :=
  data_setOrder ..

theorem levels_unlink (b : OrderBook) (s : Side) (p : ℤ) (h : ℕ) : (b.unlink s p h).levels =
    setAt b.levels s p
      { b.levels s p with
        head := if b.prev h = none then b.next h else (b.levels s p).head
        tail := if b.next h = none then b.prev h else (b.levels s p).tail } := by
  unfold unlink setLevel setAt
  simp only [levels_linkPrev, levels_linkNext]
  rfl

theorem freeHead_linkNext (b : OrderBook) (e x : Option ℕ) : (b.linkNext e x).freeHead = b.freeHead := by
  cases e <;> rfl

theorem freeHead_linkPrev (b : OrderBook) (e x : Option ℕ) : (b.linkPrev e x).freeHead = b.freeHead := by
  cases e <;> rfl

theorem drops_dropOrder (b : OrderBook) (s : Side) (p : ℤ) (h : ℕ) :
    Drops b (b.dropOrder s p h (b.data h).qty) s p h := by
  unfold dropOrder
  simp only
  generalize hb : (b.unlink s p h).takeShares s p (b.data h).qty = b₁
  have hframe : SameFrame b (b.unlink s p h) :=
    ((SameFrame.linkNext ..).trans (SameFrame.linkPrev ..)).trans ⟨rfl, rfl, rfl, rfl⟩
  have hnext : b₁.next = relink b.next (b.prev h) (b.next h) := by
    rw [← hb, next_takeShares, unlink, next_setLevel, next_linkPrev, next_linkNext]; rfl
  have hprev : b₁.prev = relink b.prev (b.next h) (b.prev h) := by
    rw [← hb, prev_takeShares, unlink, prev_setLevel, prev_linkPrev, prev_linkNext]; rfl
  have hdata : b₁.data = b.data := by
    rw [← hb, data_takeShares, unlink, data_setLevel, data_linkPrev, data_linkNext]
  have hhead : b₁.freeHead = b.freeHead := by
    rw [← hb]; exact (freeHead_linkPrev ..).trans (freeHead_linkNext ..)
  have hframe' : SameFrame b b₁ := hframe.trans (by rw [← hb]; exact ⟨rfl, rfl, rfl, rfl⟩)
  refine ⟨⟨hframe'.minPrice, hframe'.maxPrice, hframe'.best, hframe'.size⟩, ?_, ?_, ?_, ?_, rfl⟩
  · rw [next_free, next_setQty, hnext]
    exact congrArg _ hhead
  · rw [prev_free, prev_setQty, hprev]
  · rw [data_free, data_setQty, hdata]
  · rw [levels_free, levels_setOrder, ← hb, levels_takeShares, levels_unlink, setAt_setAt, setAt_self]

/-- A fill of a resting order takes it from the front of its queue. -/
theorem drops_trade (hprev : b.prev h = none) (s : Side) (p : ℤ) :
    Drops b (b.trade s p h (b.data h).qty) s p h := by
  have hfull : b.trade s p h (b.data h).qty =
      ((b.setOrder h { b.pool h with qty := 0 }).takeShares s p (b.data h).qty).popHead s p h := by
    unfold trade
    simp only [data, if_true, Nat.sub_self]
  rw [hfull]
  generalize hb : (b.setOrder h { b.pool h with qty := 0 }).takeShares s p (b.data h).qty = b₁
  have hnext : b₁.next = b.next := by rw [← hb]; exact next_setQty ..
  have hprev' : b₁.prev = b.prev := by rw [← hb]; exact prev_setQty ..
  have hdata : b₁.data = Function.update b.data h { b.data h with qty := 0 } := by rw [← hb]; exact data_setQty ..
  have hlevels : b₁.levels = setAt b.levels s p { b.levels s p with
      totalQty := ((b.levels s p).totalQty + 2 ^ 32 - (b.data h).qty) % 2 ^ 32 } := by rw [← hb]; rfl
  have hhead : b₁.freeHead = b.freeHead := by rw [← hb]; rfl
  have hframe : SameFrame b b₁ := by rw [← hb]; exact ⟨rfl, rfl, rfl, rfl⟩
  have hlink : (b₁.pool h).next = b.next h := congrFun hnext h
  unfold popHead
  simp only [hlink]
  have hframe' := hframe.trans (SameFrame.linkPrev b₁ (b.next h) none)
  refine ⟨⟨hframe'.minPrice, hframe'.maxPrice, hframe'.best, hframe'.size⟩, ?_, ?_, ?_, ?_, rfl⟩
  · rw [next_free, next_setLevel, next_linkPrev, hnext, hprev, relink_none]
    exact congrArg _ ((freeHead_linkPrev ..).trans hhead)
  · rw [prev_free, prev_setLevel, prev_linkPrev, hprev', hprev]
  · rw [data_free, data_setLevel, data_linkPrev, hdata]
  · rw [levels_free]
    change setAt (b₁.linkPrev (b.next h) none).levels s p _ = _
    rw [levels_linkPrev, hlevels, setAt_setAt, setAt_self, hprev, if_pos rfl]

/-- Fewer shares than the order has leave it in its place. -/
theorem resizes_trade (hlt : q < (b.data h).qty) (s : Side) (p : ℤ) :
    Resizes b (b.trade s p h q) s p h ((b.data h).qty - q) := by
  have hpart : b.trade s p h q =
      (b.setOrder h { b.pool h with qty := (b.data h).qty - q }).takeShares s p q := by
    unfold trade
    simp only
    rw [if_neg (by simp only [data] at hlt; omega)]
    rfl
  rw [hpart]
  refine ⟨⟨rfl, rfl, rfl, rfl⟩, next_setQty .., prev_setQty .., data_setQty .., ?_, rfl⟩
  rw [levels_takeShares, levels_setOrder, Nat.sub_sub_self (Nat.le_of_lt hlt)]

theorem resizes_shrinkOrder (b : OrderBook) (s : Side) (p : ℤ) (h q : ℕ) :
    Resizes b (b.shrinkOrder s p h q ((b.data h).qty - q)) s p h q :=
  ⟨⟨rfl, rfl, rfl, rfl⟩, next_setQty .., prev_setQty .., data_setQty .., rfl, rfl⟩

/-! ### The best price -/

/-- The head of a sorted list has the best of its prices. -/
theorem isBest_bestOf {K : Type*} {l : List (Resting K)} (hl : Sorted s l) :
    IsBest s (fun p => ∃ o ∈ l, o.price = p) (bestOf l) := by
  cases l with
  | nil => exact IsBest.none fun _ => by simp
  | cons x l =>
      refine .inr ⟨⟨x, by simp, rfl⟩, ?_⟩
      rintro _ ⟨y, hy, rfl⟩
      obtain rfl | hy := List.mem_cons.mp hy
      · exact s.atLeast_refl _
      · exact (List.pairwise_cons.mp hl).1 y hy

/-- Is the price `p'` less than `n` prices from `p` on, away from the market? -/
def Within (s : Side) (n : ℕ) (p p' : ℤ) : Prop :=
  s.atLeast p p' ∧
    match s with
    | .buy => p - p' < n
    | .sell => p' - p < n

/-- A scan from `p` on finds the best price, if all prices with shares are there. -/
theorem isBest_scan (b : OrderBook) (s : Side) (n : ℕ) (p : ℤ)
    (hall : ∀ p', (b.levels s p').totalQty > 0 → Within s n p p') :
    IsBest s (fun p' => (b.levels s p').totalQty > 0) (b.scan s n p) := by
  induction n generalizing p with
  | zero =>
      refine IsBest.none fun p' hp' => ?_
      obtain ⟨hle, hlt⟩ := hall p' hp'
      cases s <;> simp only [Side.atLeast] at hle hlt <;> omega
  | succ n ih =>
      unfold scan
      split_ifs with hp
      · exact .inr ⟨hp, fun p' hp' => (hall p' hp').1⟩
      · refine ih _ fun p' hp' => ?_
        have hne : p' ≠ p := by rintro rfl; exact hp hp'
        obtain ⟨hle, hlt⟩ := hall p' hp'
        cases s
        all_goals
          simp only [Within, Side.atLeast, worse] at hle hlt ⊢
          omega

/-- In a store the levels with shares are those with orders. -/
theorem Stored.total_pos_iff (hst : Stored b A) (s : Side) (p : ℤ) :
    (b.levels s p).totalQty > 0 ↔ ∃ o ∈ A s, o.price = p := by
  rw [hst.totals s p]
  constructor
  · intro hpos
    by_contra hno
    have hnil : level (A s) p = [] := level_eq_nil_iff.mpr fun o ho hp => hno ⟨o, ho, hp⟩
    rw [hnil] at hpos
    exact absurd hpos (by simp)
  · rintro ⟨o, ho, rfl⟩
    exact shares_pos (mem_level.mpr ⟨ho, rfl⟩) fun x hx => hst.pos s x (mem_level.mp hx).1

/-- Nothing but the best prices has changed. -/
theorem Queued.with_best (hst : Queued b A) (best : Side → ℤ) : Queued { b with best := best } A :=
  { hst with free := by obtain ⟨f, hf⟩ := hst.free; exact ⟨f, hf.chained, hf.nodup, hf.lt, hf.empty⟩ }

theorem Stored.with_best (hst : Stored b A) (best : Side → ℤ) : Stored { b with best := best } A :=
  hst.of_queued (hst.toQueued.with_best best) rfl

theorem rescanBest_eq (b : OrderBook) (s : Side) : b.rescanBest s = b.rescan s := by cases s <;> rfl

/-- After a scan from a price on that all orders are behind, the best price is right. -/
theorem Stored.rescan (hst : Stored b A) (hstart : ∀ o ∈ A s, s.atLeast (b.best s) o.price)
    (hother : ∀ s', s' ≠ s → b.best s' = bestOf (A s')) : Holds (b.rescanBest s) A := by
  rw [rescanBest_eq]
  refine ⟨hst.with_best _, fun s' => ?_⟩
  unfold OrderBook.rescan
  simp only
  by_cases hs : s' = s
  · subst hs
    rw [Function.update_self]
    refine IsBest.unique ((isBest_scan b s' _ _ fun p' hp' => ?_).congr fun p => (hst.total_pos_iff s' p).symm)
      (isBest_bestOf (hst.sorted s'))
    obtain ⟨o, ho, rfl⟩ := (hst.total_pos_iff s' p').mp hp'
    have hr := hst.range s' o ho
    have hle := hstart o ho
    refine ⟨hle, ?_⟩
    cases s'
    all_goals
      simp only [InRange, Side.atLeast, pricesFrom] at hr hle ⊢
      omega
  · rw [Function.update_of_ne hs]
    exact hother s' hs

/-! ### Trading with a level -/

theorem matchLoop_zero (aggId : ℕ) (aggSide s : Side) (p : ℤ) (fuel : ℕ) (b : OrderBook) :
    matchLoop aggId aggSide s p fuel b 0 = (b, 0, []) := by
  cases fuel with
  | zero => rfl
  | succ fuel =>
      unfold matchLoop
      cases (b.levels s p).head <;> simp

/-- A list whose first part is the level. -/
theorem level_of_parts {K : Type*} {l M R : List (Resting K)} (hl : l = M ++ R) (hM : ∀ o ∈ M, o.price = p)
    (hR : ∀ o ∈ R, o.price ≠ p) : level l p = M := by
  rw [hl, level_append, level_eq_nil_iff.mpr hR, List.append_nil]
  exact List.filter_eq_self.mpr fun o ho => by simpa using hM o ho

/-- The first order of the level `p`, with the data that its cell has. -/
theorem Queued.head_level (hst : Queued b A) {M : List (Resting ℕ)} (hl : level (A s) p = o :: M) :
    o ∈ A s ∧ (b.levels s p).head = some o.key ∧ b.prev o.key = none ∧
      b.data o.key = ⟨o.id, o.price, o.qty, s⟩ := by
  have ho : o ∈ level (A s) p := by rw [hl]; simp
  have hq := hst.queues s p
  rw [hl, keys, List.map_cons] at hq
  exact ⟨(mem_level.mp ho).1, hq.head, hq.linked.1, hst.cells s o (mem_level.mp ho).1⟩

/-- **The loop of `matchLevel` trades like `fill`**: the induction follows the orders `M`
of the level, which are the first ones of their side. -/
theorem matchLoop_fill {M R : List (Resting ℕ)} (aggId q fuel : ℕ) (hst : Stored b A) (hl : A s = M ++ R)
    (hM : ∀ o ∈ M, o.price = p) (hR : ∀ o ∈ R, o.price ≠ p) (hs : s = aggSide.opposite)
    (hcross : s.atLeast p limit) (hfuel : M.length ≤ fuel) :
    let r := fill aggId aggSide limit M q
    ∃ b', matchLoop aggId aggSide s p fuel b q = (b', r.left, r.trades) ∧
      Stored b' (Function.update A s (r.rest ++ R)) ∧ SameFrame b b' := by
  induction M generalizing b A q fuel with
  | nil =>
      have hnil : (b.levels s p).head = none := by
        rw [(hst.queues s p).head, level_of_parts hl hM hR]; rfl
      refine ⟨b, ?_, ?_, SameFrame.refl b⟩
      · cases fuel with
        | zero => rfl
        | succ fuel => unfold matchLoop; rw [hnil]; rfl
      · rw [fill_nil, ← hl, Function.update_eq_self]
        exact hst
  | cons o M ih =>
      obtain ⟨fuel, rfl⟩ : ∃ n, fuel = n + 1 := ⟨fuel - 1, by simp only [List.length_cons] at hfuel; omega⟩
      obtain ⟨ho, hhead, hprev, hdata⟩ := hst.head_level (level_of_parts hl hM hR)
      have hop : o.price = p := hM o (by simp)
      have hid : (b.pool o.key).id = o.id := congrArg Data.id hdata
      have hprice : (b.pool o.key).price = o.price := congrArg Data.price hdata
      have hqty : (b.pool o.key).qty = o.qty := congrArg Data.qty hdata
      have hqty' : (b.data o.key).qty = o.qty := hqty
      unfold matchLoop fill
      rw [hhead]
      simp only [hid, hprice, hqty]
      have hno : ¬ aggSide.opposite.atLeast o.price limit ↔ False := by
        rw [← hs, hop]; exact iff_of_false (fun hn => hn hcross) id
      simp only [hno, or_false]
      by_cases hq0 : q = 0
      · rw [if_pos hq0, if_pos hq0]
        refine ⟨b, by rw [hq0], ?_, SameFrame.refl b⟩
        rw [← hl, Function.update_eq_self]
        exact hst
      rw [if_neg hq0, if_neg hq0]
      by_cases hlt : q < o.qty
      · -- the arriving order is used up
        have hr := resizes_trade (b := b) (by rw [hqty']; exact hlt) s p
        rw [hqty', ← hop] at hr
        have hst' := hst.resize ho (Nat.sub_pos_of_lt hlt) (Nat.sub_le ..) hr
        rw [if_pos hlt, if_pos hlt, ← hop, Nat.sub_self, matchLoop_zero]
        refine ⟨_, rfl, ?_, hr.toSameFrame⟩
        have hsplit : resize o.key (o.qty - q) (A s) = { o with qty := o.qty - q } :: (M ++ R) := by
          have hnodup := hst.nodup s
          rw [hl] at hnodup ⊢
          exact resize_cons_self hnodup _
        rw [hsplit] at hst'
        exact hst'
      · -- the resting order is filled, and the loop goes on
        have hd := drops_trade hprev s p
        rw [hqty', ← hop] at hd
        have hst' := hst.drop ho hd
        have hsplit : remove o.key (A s) = M ++ R := by
          have hnodup := hst.nodup s
          rw [hl] at hnodup ⊢
          rw [List.cons_append, remove_cons_self]
          refine remove_of_not_mem fun x hx he => (List.nodup_cons.mp hnodup).1 ?_
          exact List.mem_map.mpr ⟨x, hx, he⟩
        rw [hsplit] at hst'
        obtain ⟨b', heq, hst'', hframe⟩ := ih (q := q - o.qty) fuel hst' (Function.update_self ..)
          (fun x hx => hM x (by simp [hx])) (by simp only [List.length_cons] at hfuel; omega)
        rw [if_neg hlt, if_neg hlt, ← hop]
        rw [← hop] at heq
        rw [heq]
        refine ⟨b', rfl, ?_, hd.toSameFrame.trans hframe⟩
        rw [Function.update_idem] at hst''
        exact hst''

/-! ### Trading with a side -/

/-- A sorted list begins with the level of a price that none of it improves on. -/
theorem split_level {K : Type*} {l : List (Resting K)} (hl : Sorted s l)
    (hbest : ∀ x ∈ l, s.atLeast p x.price) : l = level l p ++ l.filter fun x => x.price ≠ p := by
  induction l with
  | nil => rfl
  | cons y l ih =>
      obtain ⟨hy, hl⟩ := List.pairwise_cons.mp hl
      by_cases hp : y.price = p
      · subst hp
        rw [level_cons_self, List.filter_cons_of_neg (by simp), List.cons_append, ← ih hl fun x hx => hy x hx]
      · -- everything behind is worse
        have hne : ∀ x ∈ y :: l, x.price ≠ p := by
          rintro x hx rfl
          obtain rfl | hx := List.mem_cons.mp hx
          · exact hp rfl
          · exact hp (s.atLeast_antisymm (hy x hx) (hbest y (by simp)))
        rw [level_eq_nil_iff.mpr hne, List.nil_append, List.filter_eq_self.mpr fun x hx => by simpa using hne x hx]

/-- The best price of a side with orders is not the mark, where the range excludes it. -/
theorem Stored.bestOf_ne_kNoPrice (hst : Stored b A) (hmin : kNoPrice < b.minPrice) (s : Side) :
    bestOf (A s) = kNoPrice ↔ A s = [] := by
  cases hl : A s with
  | nil => simp [bestOf]
  | cons o l =>
      have hr := (hst.range s o (by rw [hl]; simp)).1
      rw [bestOf_cons]
      exact iff_of_false (by omega) (by simp)

/-- **One turn of `match`**: the best level trades, and if it is used up the next one is
found. -/
theorem matchBest_fill {M R : List (Resting ℕ)} (aggId q : ℕ) (hb : Holds b A) (hl : A s = M ++ R) (hne : M ≠ [])
    (hM : ∀ o ∈ M, o.price = b.best s) (hR : ∀ o ∈ R, o.price ≠ b.best s) (hs : s = aggSide.opposite)
    (hcross : s.atLeast (b.best s) limit) :
    let r := fill aggId aggSide limit M q
    ∃ b', b.matchBest s aggId aggSide q = (b', r.left, r.trades) ∧
      Holds b' (Function.update A s (r.rest ++ R)) ∧ b'.minPrice = b.minPrice ∧ b'.maxPrice = b.maxPrice ∧
      b'.size = b.size := by
  intro r
  have hlen : M.length ≤ b.size := by
    have := hb.length_le s
    rw [hl, List.length_append] at this
    omega
  obtain ⟨b₁, heq, hst, hframe⟩ := matchLoop_fill aggId q b.size hb.toStored hl hM hR hs hcross hlen
  have hbest : b₁.best = b.best := hframe.best
  have hrest : ∀ o ∈ r.rest, o.price = b.best s := by
    intro o ho
    obtain ⟨y, hy, -, -, hp, -⟩ := mem_fill ho
    rw [← hp]; exact hM y hy
  have hlevel : level (r.rest ++ R) (b.best s) = r.rest := level_of_parts rfl hrest hR
  have htotal := hst.totals s (b.best s)
  rw [Function.update_self, hlevel] at htotal
  have hother : ∀ s', s' ≠ s → b₁.best s' = bestOf (Function.update A s (r.rest ++ R) s') := by
    intro s' hs'
    rw [hbest, Function.update_of_ne hs']
    exact hb.best s'
  unfold matchBest matchLevel
  simp only [heq]
  refine ⟨_, rfl, ?_⟩
  split_ifs with hzero
  · -- the level is used up
    rw [htotal, shares_eq_zero_iff fun x hx => hst.pos s x
      (by rw [Function.update_self]; exact List.mem_append_left _ hx)] at hzero
    have hstart : ∀ o ∈ Function.update A s (r.rest ++ R) s, s.atLeast (b₁.best s) o.price := by
      intro o ho
      rw [Function.update_self, hzero, List.nil_append] at ho
      obtain ⟨m, hm⟩ := List.exists_mem_of_ne_nil M hne
      have hsorted := hb.sorted s
      rw [hl] at hsorted
      rw [hbest, ← hM m hm]
      exact (List.pairwise_append.mp hsorted).2.2 m hm o ho
    refine ⟨hst.rescan hstart hother, ?_⟩
    rw [rescanBest_eq]
    exact ⟨hframe.minPrice, hframe.maxPrice, hframe.size⟩
  · refine ⟨⟨hst, fun s' => ?_⟩, hframe.minPrice, hframe.maxPrice, hframe.size⟩
    by_cases hs' : s' = s
    · subst hs'
      rw [hbest, Function.update_self]
      cases hrl : r.rest with
      | nil => rw [hrl] at htotal; exact absurd htotal hzero
      | cons x rest => exact (hrest x (by rw [hrl]; simp)).symm
    · exact hother s' hs'

theorem matchLevels_zero (aggId : ℕ) (aggSide : Side) (limit : ℤ) (fuel : ℕ) (b : OrderBook) :
    matchLevels aggId aggSide limit fuel b 0 = (b, 0, []) := by
  cases fuel with
  | zero => rfl
  | succ fuel => unfold matchLevels; simp

/-- **The loop of `match` trades like `fill`**: the induction follows the levels. -/
theorem matchLevels_fill (fuel : ℕ) (hb : Holds b A) (hmin : kNoPrice < b.minPrice) (hs : s = aggSide.opposite)
    (hfuel : (A s).length < fuel) :
    let r := fill aggId aggSide limit (A s) q
    ∃ b', matchLevels aggId aggSide limit fuel b q = (b', r.left, r.trades) ∧
      Holds b' (Function.update A s r.rest) ∧ b'.minPrice = b.minPrice ∧ b'.maxPrice = b.maxPrice := by
  induction fuel generalizing b A q with
  | zero => exact absurd hfuel (Nat.not_lt_zero _)
  | succ fuel ih =>
      have hbest := hb.best s
      have hempty := hb.bestOf_ne_kNoPrice hmin s
      -- without a trade everything stays
      have hstay : fill aggId aggSide limit (A s) q = ⟨[], q, A s⟩ →
          let r := fill aggId aggSide limit (A s) q
          ∃ b', (b, q, []) = (b', r.left, r.trades) ∧ Holds b' (Function.update A s r.rest) ∧
            b'.minPrice = b.minPrice ∧ b'.maxPrice = b.maxPrice := by
        intro heq
        rw [heq]
        exact ⟨b, rfl, by rw [Function.update_eq_self]; exact hb, rfl, rfl⟩
      unfold matchLevels
      rw [← hs]
      simp only
      split_ifs with hcond
      · obtain ⟨-, hne, hcross⟩ := hcond
        rw [hbest] at hne
        have hnil : A s ≠ [] := fun h => hne (hempty.mpr h)
        have hall : ∀ x ∈ A s, s.atLeast (b.best s) x.price := by
          rw [hbest]
          obtain ⟨hb', -⟩ | ⟨-, hmax⟩ := isBest_bestOf (hb.sorted s)
          · exact absurd hb' hne
          · exact fun x hx => hmax _ ⟨x, hx, rfl⟩
        have hl := split_level (hb.sorted s) hall
        generalize hM : level (A s) (b.best s) = M at hl
        generalize hR : (A s).filter (fun x => x.price ≠ b.best s) = R at hl
        have hMp : ∀ x ∈ M, x.price = b.best s := by rw [← hM]; exact fun x hx => (mem_level.mp hx).2
        have hRp : ∀ x ∈ R, x.price ≠ b.best s := by
          rw [← hR]; exact fun x hx => by simpa using (List.mem_filter.mp hx).2
        have hMne : M ≠ [] := by
          obtain ⟨hb', -⟩ | ⟨⟨x, hx, hp⟩, -⟩ := isBest_bestOf (hb.sorted s)
          · exact absurd hb' hne
          · rw [← hM]
            exact List.ne_nil_of_mem (mem_level.mpr ⟨hx, by rw [hp, hbest]⟩)
        have hMcross : ∀ x ∈ M, aggSide.opposite.atLeast x.price limit := by
          intro x hx; rw [hMp x hx, ← hs]; exact hcross
        obtain ⟨b₁, heq, hb₁, hmin₁, hmax₁, -⟩ :=
          matchBest_fill aggId q hb hl hMne hMp hRp hs hcross
        rw [heq, hl, fill_append hMcross]
        simp only
        by_cases hrest : (fill aggId aggSide limit M q).rest = []
        · -- the level is used up, the next ones follow
          rw [hrest, List.nil_append] at hb₁ ⊢
          have hlen : (Function.update A s R s).length < fuel := by
            rw [Function.update_self]
            rw [hl, List.length_append] at hfuel
            have := List.length_pos_of_ne_nil hMne
            omega
          obtain ⟨b₂, heq₂, hb₂, hmin₂, hmax₂⟩ :=
            ih (q := (fill aggId aggSide limit M q).left) hb₁ (by rw [hmin₁]; exact hmin) hlen
          rw [Function.update_self] at heq₂ hb₂
          rw [Function.update_idem] at hb₂
          rw [heq₂]
          exact ⟨b₂, rfl, hb₂, hmin₂.trans hmin₁, hmax₂.trans hmax₁⟩
        · -- the arriving order is used up
          rw [fill_left_eq_zero hMcross hrest, matchLevels_zero, fill_zero]
          exact ⟨b₁, rfl, hb₁, hmin₁, hmax₁⟩
      · refine hstay ?_
        cases hl : A s with
        | nil => rfl
        | cons o l =>
            by_cases hq : q = 0
            · rw [hq]; exact fill_zero ..
            · refine fill_of_not_crosses fun hcross => hcond ⟨Nat.pos_of_ne_zero hq, ?_, ?_⟩
              · rw [hbest, Ne, hempty, hl]; simp
              · rw [hbest, hl, bestOf_cons, hs]; exact hcross

/-! ### The operations -/

/-- The range of a book stays. -/
def SameRange (b b' : OrderBook) : Prop := b'.minPrice = b.minPrice ∧ b'.maxPrice = b.maxPrice

theorem sameRange_rescanBest (b : OrderBook) (s : Side) : SameRange b (b.rescanBest s) := by
  rw [rescanBest_eq]
  unfold OrderBook.rescan
  exact ⟨rfl, rfl⟩

/-- **`match` trades like `fill`.** -/
theorem Holds.match_spec (hb : Holds b A) (hmin : kNoPrice < b.minPrice) (hq : q ≠ 0) (hp : b.InRange p) (id : ℕ)
    (side : Side) :
    ∃ b', b.match id side p q = (b', (Sides.cross A id side p q).left, (Sides.cross A id side p q).trades) ∧
      Holds b' (Sides.traded A id side p q) ∧ SameRange b b' := by
  unfold «match»
  rw [if_neg (by tauto)]
  exact matchLevels_fill _ hb hmin rfl (Nat.lt_succ_of_le (hb.length_le _))

/-- A new order may be the best of its side. -/
theorem Stored.improve (hst : Stored b (Function.update A s (enqueue s o (A s))))
    (hbest : ∀ s, b.best s = bestOf (A s)) (hmark : bestOf (A s) = kNoPrice ↔ A s = []) :
    Holds (b.improve s o.price) (Function.update A s (enqueue s o (A s))) := by
  have hnew : bestOf (enqueue s o (A s)) =
      if b.best s = kNoPrice ∨ ¬ s.atLeast (b.best s) o.price then o.price else b.best s := by
    rw [bestOf_enqueue, hbest s]
    simp only [hmark]
  unfold OrderBook.improve
  split_ifs with hc
  · refine ⟨hst.with_best _, fun s' => ?_⟩
    by_cases hs' : s' = s
    · subst hs'
      rw [Function.update_self, hnew, if_pos hc]
      exact Function.update_self ..
    · rw [Function.update_of_ne hs']
      exact (Function.update_of_ne hs' ..).trans (hbest s')
  · refine ⟨hst, fun s' => ?_⟩
    by_cases hs' : s' = s
    · subst hs'
      rw [Function.update_self, hnew, if_neg hc]
    · rw [Function.update_of_ne hs']
      exact hbest s'

theorem improve_range (b : OrderBook) (s : Side) (p : ℤ) :
    (b.improve s p).minPrice = b.minPrice ∧ (b.improve s p).maxPrice = b.maxPrice := by
  unfold improve
  split_ifs <;> exact ⟨rfl, rfl⟩

/-- An order comes to rest at the end of its level. -/
theorem rest_enqueue (hb : Holds b A) (hmin : kNoPrice < b.minPrice) (hq : 0 < q) (hp : b.InRange p)
    (hroom : shares (level (A s) p) + q < 2 ^ 32) (id : ℕ) :
    ∃ h b', b.rest id s p q = (h, b') ∧ (∀ s', ∀ x ∈ A s', x.key ≠ h) ∧
      Holds b' (Sides.rested A s ⟨h, id, p, q⟩) ∧ SameRange b b' := by
  obtain ⟨hqueued, hcell, hbest, hmin', hmax', hlevels⟩ := hb.alloc id s p q
  have hst := hb.of_queued hqueued hlevels
  have heq : b.rest id s p q = (b.alloc.1, ((b.alloc.2.setOrder b.alloc.1
      { id := id, price := p, qty := q, side := s, prev := none, next := none }).append s p b.alloc.1 q).improve s p) :=
    rfl
  refine ⟨_, _, heq, hcell.fresh, ?_⟩
  clear heq hqueued hlevels
  revert hcell hbest hmin' hmax' hst
  generalize b.alloc.2.setOrder b.alloc.1 _ = b₂
  intro hcell hbest hmin' hmax' hst
  have hj := Queued.joins_append hcell.prev s p q
  have hrange : b₂.InRange p := by rw [InRange, hmin', hmax']; exact hp
  have hst' := hst.join hcell hq hrange hroom hj
  obtain ⟨hmin'', hmax''⟩ := improve_range (b₂.append s p b.alloc.1 q) s p
  have hbest' : ∀ s', (b₂.append s p b.alloc.1 q).best s' = bestOf (A s') := by
    intro s'
    rw [hj.best, hbest]
    exact hb.best s'
  exact ⟨hst'.improve hbest' (hb.bestOf_ne_kNoPrice hmin s), hmin''.trans (hj.minPrice.trans hmin'),
    hmax''.trans (hj.maxPrice.trans hmax')⟩

/-- **`add` trades like `fill` and lets the rest rest.** -/
theorem Holds.add_spec (hb : Holds b A) (hmin : kNoPrice < b.minPrice) (hq : q ≠ 0) (hp : b.InRange p) (id : ℕ)
    (side : Side) (hroom : shares (level (A side) p) + (Sides.cross A id side p q).left < 2 ^ 32) :
    ∃ h b', b.add id side p q =
        (if (Sides.cross A id side p q).left = 0 then none else some h, b', (Sides.cross A id side p q).trades) ∧
      (∀ s, ∀ x ∈ Sides.traded A id side p q s, x.key ≠ h) ∧ Holds b' (Sides.added A h id side p q) ∧
      SameRange b b' := by
  obtain ⟨b₁, heq, hb₁, hmin₁, hmax₁⟩ := hb.match_spec hmin hq hp id side
  unfold OrderBook.add Sides.added
  rw [if_neg (by tauto), heq]
  simp only
  generalize Sides.cross A id side p q = r at hroom ⊢
  by_cases hleft : r.left = 0
  · -- a handle for the statement: one that no order has
    rw [if_neg (by omega)]
    refine ⟨b₁.size, b₁, by rw [if_pos hleft], fun s x hx => Nat.ne_of_lt (hb₁.lt s x hx), ?_, hmin₁, hmax₁⟩
    rw [if_pos hleft]
    exact hb₁
  · have hroom' : shares (level (Sides.traded A id side p q side) p) + r.left < 2 ^ 32 := by
      rw [Sides.traded_same]; exact hroom
    obtain ⟨h, b₂, heq₂, hfresh, hb₂, hmin₂, hmax₂⟩ := rest_enqueue hb₁ (by rw [hmin₁]; exact hmin)
      (Nat.pos_of_ne_zero hleft) (by rw [InRange, hmin₁, hmax₁]; exact hp) hroom' id
    rw [if_pos (Nat.pos_of_ne_zero hleft), heq₂]
    refine ⟨h, b₂, by rw [if_neg hleft], hfresh, ?_, hmin₂.trans hmin₁, hmax₂.trans hmax₁⟩
    rw [if_neg hleft]
    exact hb₂

/-- `place` lets an order rest. -/
theorem Holds.place_spec (hb : Holds b A) (hmin : kNoPrice < b.minPrice) (hq : q ≠ 0) (hp : b.InRange p)
    (hroom : shares (level (A s) p) + q < 2 ^ 32) (id : ℕ) :
    ∃ h b', b.place id s p q = (some h, b') ∧ (∀ s', ∀ x ∈ A s', x.key ≠ h) ∧
      Holds b' (Sides.rested A s ⟨h, id, p, q⟩) ∧ SameRange b b' := by
  obtain ⟨h, b', heq, hfresh, hb', hrange⟩ := rest_enqueue hb hmin (Nat.pos_of_ne_zero hq) hp hroom id
  unfold place
  rw [if_neg (by tauto), heq]
  exact ⟨h, b', rfl, hfresh, hb', hrange⟩

/-- The best prices are the heads of the sides, if each is a price of its side that no
other one is better than. -/
theorem Stored.holds (hst : Stored b A)
    (hbest : ∀ s, b.best s = bestOf (A s) ∨
      (∃ x ∈ A s, x.price = b.best s) ∧ ∀ x ∈ A s, s.atLeast (b.best s) x.price) : Holds b A := by
  refine ⟨hst, fun s => (hbest s).elim id fun h => ?_⟩
  refine IsBest.unique (.inr ⟨h.1, ?_⟩) (isBest_bestOf (hst.sorted s))
  rintro _ ⟨x, hx, rfl⟩
  exact h.2 x hx

/-- The best price of a side with orders is the price of one, and no other is better. -/
theorem Holds.best_spec (hb : Holds b A) (ho : o ∈ A s) :
    (∃ x ∈ A s, x.price = b.best s) ∧ ∀ x ∈ A s, s.atLeast (b.best s) x.price := by
  rw [hb.best s]
  cases hl : A s with
  | nil => rw [hl] at ho; cases ho
  | cons y l =>
      have hsorted := hb.sorted s
      rw [hl] at hsorted
      refine ⟨⟨y, by simp, rfl⟩, fun x hx => ?_⟩
      obtain rfl | hx := List.mem_cons.mp hx
      · exact s.atLeast_refl _
      · exact (List.pairwise_cons.mp hsorted).1 x hx

/-- **`cancel` takes the order out.** -/
theorem Holds.cancel_spec (hb : Holds b A) (ho : o ∈ A s) :
    ∃ b', b.cancel o.key = (o.qty, b') ∧ Holds b' (Sides.without A s o.key) ∧ SameRange b b' := by
  have hdata := hb.cells s o ho
  have hprice : (b.pool o.key).price = o.price := congrArg Data.price hdata
  have hqty : (b.pool o.key).qty = o.qty := congrArg Data.qty hdata
  have hside : (b.pool o.key).side = s := congrArg Data.side hdata
  have hpos := hb.pos s o ho
  have hlt := hb.lt s o ho
  obtain ⟨⟨x, hx, hxp⟩, hmax⟩ := hb.best_spec ho
  unfold cancel
  simp only [hprice, hqty, hside]
  rw [if_neg (by omega), if_neg (by omega)]
  have hd := drops_dropOrder b s o.price o.key
  rw [show (b.data o.key).qty = o.qty from hqty] at hd
  generalize b.dropOrder s o.price o.key o.qty = b₁ at hd ⊢
  have hst := hb.drop ho hd
  have hbest := hd.best
  have hother : ∀ s', s' ≠ s → b₁.best s' = bestOf (Sides.without A s o.key s') := by
    intro s' hs'
    rw [hbest, Sides.without, Function.update_of_ne hs']
    exact hb.best s'
  have hstart : ∀ y ∈ Sides.without A s o.key s, s.atLeast (b₁.best s) y.price := by
    intro y hy
    rw [Sides.without, Function.update_self] at hy
    rw [hbest]
    exact hmax y (mem_remove.mp hy).1
  refine ⟨_, rfl, ?_⟩
  split_ifs with hc
  · obtain ⟨hmin, hmax⟩ := sameRange_rescanBest b₁ s
    exact ⟨hst.rescan hstart hother, hmin.trans hd.minPrice, hmax.trans hd.maxPrice⟩
  · refine ⟨hst.holds fun s' => ?_, hd.minPrice, hd.maxPrice⟩
    by_cases hs' : s' = s
    · subst hs'
      refine .inr ⟨?_, hstart⟩
      by_cases hp : o.price = b₁.best s'
      · -- another order has the best price too
        have hleft : (b₁.levels s' o.price).totalQty > 0 := Nat.pos_of_ne_zero fun h => hc ⟨h, hp⟩
        rw [← hp]
        exact (hst.total_pos_iff s' o.price).mp hleft
      · refine ⟨x, ?_, by rw [hbest]; exact hxp⟩
        rw [Function.update_self]
        refine mem_remove.mpr ⟨hx, fun hkey => hp ?_⟩
        rw [← (hb.eq_of_key hx ho hkey).2, hbest]
        exact hxp
    · exact .inl (hother s' hs')

/-- **`reduce` takes shares from the order.** -/
theorem Holds.reduce_spec (hb : Holds b A) (ho : o ∈ A s) (hq : 0 < q) (hlt : q < o.qty) :
    ∃ b', b.reduce o.key q = (o.qty - q, b') ∧ Holds b' (Sides.resized A s o.key q) ∧ SameRange b b' := by
  have hdata := hb.cells s o ho
  have hprice : (b.pool o.key).price = o.price := congrArg Data.price hdata
  have hqty : (b.pool o.key).qty = o.qty := congrArg Data.qty hdata
  have hside : (b.pool o.key).side = s := congrArg Data.side hdata
  have hkey := hb.lt s o ho
  unfold reduce
  simp only [hprice, hqty, hside]
  rw [if_neg (by omega), if_neg (by omega), if_neg (by omega)]
  have hr := resizes_shrinkOrder b s o.price o.key q
  rw [show (b.data o.key).qty = o.qty from hqty] at hr
  refine ⟨_, rfl, ⟨hb.resize ho hq (Nat.le_of_lt hlt) hr, fun s' => ?_⟩, hr.minPrice, hr.maxPrice⟩
  rw [hr.best, hb.best s', Sides.resized]
  by_cases hs' : s' = s
  · subst hs'
    rw [Function.update_self, bestOf_resize]
  · rw [Function.update_of_ne hs']

/-- `reduce` to no fewer shares does nothing. -/
theorem Queued.reduce_of_le (hb : Queued b A) (ho : o ∈ A s) (hle : o.qty ≤ q) : b.reduce o.key q = (0, b) := by
  have hqty : (b.pool o.key).qty = o.qty := congrArg Data.qty (hb.cells s o ho)
  have hkey := hb.lt s o ho
  unfold reduce
  simp only [hqty]
  rw [if_neg (by omega), if_pos (.inr hle)]

/-- `reduce` to nothing is `cancel`. -/
theorem Queued.reduce_zero (hb : Queued b A) (ho : o ∈ A s) : b.reduce o.key 0 = b.cancel o.key := by
  have hqty : (b.pool o.key).qty = o.qty := congrArg Data.qty (hb.cells s o ho)
  have hkey := hb.lt s o ho
  have hpos := hb.pos s o ho
  unfold reduce
  simp only [hqty]
  rw [if_neg (by omega), if_neg (by omega)]
  rfl

/-- An empty book holds nothing. -/
theorem holds_new (minPrice maxPrice : ℤ) : Holds (new minPrice maxPrice) fun _ => [] where
  sorted _ := List.Pairwise.nil
  nodup _ := List.nodup_nil
  cells := by simp
  lt := by simp
  pos := by simp
  range := by simp
  queues _ _ := ⟨trivial, rfl, rfl⟩
  totals _ _ := rfl
  bounded _ _ := by simp
  free := ⟨[], rfl, List.nodup_nil, by simp, by simp⟩
  best _ := rfl

/-! ### Looking at the book -/

theorem Holds.volumeAt_eq (hb : Holds b A) (s : Side) (p : ℤ) : b.volumeAt s p = shares (level (A s) p) := by
  unfold volumeAt
  split_ifs with hp
  · exact hb.totals s p
  · rw [level_eq_nil_iff.mpr fun o ho he => hp (by rw [← he]; exact hb.range s o ho)]
    rfl

theorem Holds.empty_iff (hb : Holds b A) (hmin : kNoPrice < b.minPrice) : b.empty ↔ A .buy = [] ∧ A .sell = [] := by
  unfold empty bestBid bestAsk
  rw [hb.best, hb.best, Bool.and_eq_true, decide_eq_true_eq, decide_eq_true_eq, hb.bestOf_ne_kNoPrice hmin,
    hb.bestOf_ne_kNoPrice hmin]

/-- A walk along a queue meets its orders. -/
theorem ordersFrom_linked {q : List ℕ} {before : Option ℕ} (fuel : ℕ) (hl : Linked b.next b.prev before q none)
    (hfuel : q.length ≤ fuel) : b.ordersFrom fuel q.head? = q.map b.pool := by
  induction q generalizing fuel before with
  | nil => cases fuel <;> rfl
  | cons h q ih =>
      obtain ⟨fuel, rfl⟩ : ∃ n, fuel = n + 1 := ⟨fuel - 1, by simp only [List.length_cons] at hfuel; omega⟩
      have hnext : (b.pool h).next = q.head? := hl.next_head
      rw [List.head?_cons, ordersFrom, hnext, ih fuel hl.2.2 (by simp only [List.length_cons] at hfuel; omega)]
      rfl

/-- The walk over a level meets its orders, in the order of their arrival. -/
theorem Holds.ordersAtLevel_eq (hb : Holds b A) (s : Side) (p : ℤ) :
    (b.ordersAtLevel s p).map (fun o => (o.id, o.price, o.qty, o.side)) =
      (level (A s) p).map fun o => (o.id, o.price, o.qty, s) := by
  unfold ordersAtLevel
  split_ifs with hp
  · have hq := hb.queues s p
    have hlen : (keys (level (A s) p)).length ≤ b.size := by
      have hsub : (level (A s) p).length ≤ (A s).length := List.length_filter_le ..
      rw [keys, List.length_map]
      exact Nat.le_trans hsub (hb.length_le s)
    rw [hq.head, ordersFrom_linked b.size hq.linked hlen, keys, List.map_map, List.map_map]
    refine List.map_congr_left fun o ho => ?_
    have hdata := hb.cells s o (mem_level.mp ho).1
    simp only [data, Data.mk.injEq] at hdata
    obtain ⟨hid, hprice, hqty, hside⟩ := hdata
    simp only [Function.comp_apply, hid, hprice, hqty, hside]
  · rw [level_eq_nil_iff.mpr fun o ho he => hp (by rw [← he]; exact hb.range s o ho)]
    rfl

end TickToTrade.OrderBook
