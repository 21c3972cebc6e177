import TickToTrade.Lob.OrderBook

/-!
# The words of the orders

The reference of an order is a word of 64 bits and its shares are a word of 32. The cells of the
pool keep to that, free ones too, in every operation that is called with such words, and so do the
trades and the numbers of shares that the operations give back.
-/

namespace TickToTrade

/-- The fields of an order fit their words. -/
def Order.Words (o : Order) : Prop := o.id < 2 ^ 64 ∧ o.qty < 2 ^ 32

theorem Order.words_default : ({} : Order).Words := ⟨Nat.two_pow_pos 64, Nat.two_pow_pos 32⟩

/-- What a trade tells fits its words. -/
def Trade.Words (t : Trade) : Prop := t.restingId < 2 ^ 64 ∧ t.qty < 2 ^ 32

namespace OrderBook

/-- Every cell of the pool fits. -/
def Words (b : OrderBook) : Prop := ∀ h, (b.pool h).Words

namespace Words

variable {b : OrderBook} {s : Side} {p : ℤ} {id qty h : ℕ}

theorem setOrder (hb : b.Words) (h : ℕ) {o : Order} (ho : o.Words) : (b.setOrder h o).Words := by
  intro k
  change (Function.update b.pool h o k).Words
  by_cases hk : k = h
  · rw [hk, Function.update_self]
    exact ho
  · rw [Function.update_of_ne hk]
    exact hb k

theorem linkNext (hb : b.Words) (e x : Option ℕ) : (b.linkNext e x).Words := by
  cases e with
  | none => exact hb
  | some k => exact hb.setOrder k (hb k)

theorem linkPrev (hb : b.Words) (e x : Option ℕ) : (b.linkPrev e x).Words := by
  cases e with
  | none => exact hb
  | some k => exact hb.setOrder k (hb k)

theorem setLevel (hb : b.Words) (s : Side) (p : ℤ) (lvl : Level) : (b.setLevel s p lvl).Words := hb

theorem free (hb : b.Words) (h : ℕ) : (b.free h).Words := hb.setOrder h (hb h)

theorem alloc (hb : b.Words) : b.alloc.2.Words := by
  unfold OrderBook.alloc
  cases b.freeHead with
  | none => exact hb.setOrder b.size Order.words_default
  | some k => exact hb

theorem rescanBest (hb : b.Words) (s : Side) : (b.rescanBest s).Words := by
  cases s <;> exact hb

theorem rest (hb : b.Words) (hid : id < 2 ^ 64) (hqty : qty < 2 ^ 32) : (b.rest id s p qty).2.Words := by
  have himprove : ∀ {c : OrderBook}, c.Words → (c.improve s p).Words := fun {c} hc => by
    unfold OrderBook.improve
    split_ifs
    · exact hc
    · exact hc
  unfold OrderBook.rest
  refine himprove ?_
  have hset := hb.alloc.setOrder b.alloc.1 (o := ⟨id, p, qty, s, none, none⟩) ⟨hid, hqty⟩
  unfold OrderBook.append
  simp only
  split
  · exact hset
  · exact ((hset.linkNext _ _).linkPrev _ _).setLevel s p _

/-! ### Trading -/

theorem trade (hb : b.Words) (s : Side) (p : ℤ) (h fill : ℕ) : (b.trade s p h fill).Words := by
  have hset : ((b.setOrder h { b.pool h with qty := (b.pool h).qty - fill }).takeShares s p fill).Words :=
    hb.setOrder h ⟨(hb h).1, Nat.lt_of_le_of_lt (Nat.sub_le ..) (hb h).2⟩
  unfold OrderBook.trade
  simp only
  split_ifs
  · exact Words.free (Words.linkPrev hset _ _) h
  · exact hset

/-- A loop over the queue of a level. -/
theorem matchLoop (aggId : ℕ) (aggSide : Side) (fuel : ℕ) (hb : b.Words) (qty : ℕ) :
    (OrderBook.matchLoop aggId aggSide s p fuel b qty).1.Words ∧
      (OrderBook.matchLoop aggId aggSide s p fuel b qty).2.1 ≤ qty ∧
      ∀ t ∈ (OrderBook.matchLoop aggId aggSide s p fuel b qty).2.2, t.Words := by
  induction fuel generalizing b qty with
  | zero => exact ⟨hb, Nat.le_refl _, fun t ht => absurd ht List.not_mem_nil⟩
  | succ fuel ih =>
      unfold OrderBook.matchLoop
      cases (b.levels s p).head with
      | none => exact ⟨hb, Nat.le_refl _, fun t ht => absurd ht List.not_mem_nil⟩
      | some k =>
          simp only
          split_ifs with hzero
          · exact ⟨hb, Nat.le_refl _, fun t ht => absurd ht List.not_mem_nil⟩
          all_goals
            obtain ⟨hwords, hleft, htrades⟩ := ih (hb.trade s p k _) _
            refine ⟨hwords, Nat.le_trans hleft (Nat.sub_le ..), fun t ht => ?_⟩
            obtain rfl | ht := List.mem_cons.mp ht
            · have hk := hb k
              exact ⟨hk.1, by have := hk.2; simp only; omega⟩
            · exact htrades t ht

theorem matchLevels (aggId : ℕ) (aggSide : Side) (price : ℤ) (fuel : ℕ) (hb : b.Words) (qty : ℕ) :
    (OrderBook.matchLevels aggId aggSide price fuel b qty).1.Words ∧
      (OrderBook.matchLevels aggId aggSide price fuel b qty).2.1 ≤ qty ∧
      ∀ t ∈ (OrderBook.matchLevels aggId aggSide price fuel b qty).2.2, t.Words := by
  induction fuel generalizing b qty with
  | zero => exact ⟨hb, Nat.le_refl _, fun t ht => absurd ht List.not_mem_nil⟩
  | succ fuel ih =>
      unfold OrderBook.matchLevels
      simp only
      split_ifs
      · obtain ⟨hloop, hleft, htrades⟩ := matchLoop (s := aggSide.opposite) (p := b.best aggSide.opposite) aggId aggSide b.size
          hb qty
        have hbest : (b.matchBest aggSide.opposite aggId aggSide qty).1.Words := by
          unfold OrderBook.matchBest OrderBook.matchLevel
          simp only
          split_ifs
          · exact hloop.rescanBest _
          · exact hloop
        obtain ⟨hwords, hleft', htrades'⟩ := ih hbest (b.matchBest aggSide.opposite aggId aggSide qty).2.1
        refine ⟨hwords, Nat.le_trans hleft' hleft, fun t ht => ?_⟩
        obtain ht | ht := List.mem_append.mp ht
        · exact htrades t ht
        · exact htrades' t ht
      · exact ⟨hb, Nat.le_refl _, fun t ht => absurd ht List.not_mem_nil⟩

theorem «match» (hb : b.Words) (id : ℕ) (s : Side) (p : ℤ) (qty : ℕ) :
    (b.match id s p qty).1.Words ∧ (b.match id s p qty).2.1 ≤ qty ∧ ∀ t ∈ (b.match id s p qty).2.2, t.Words := by
  unfold OrderBook.match
  split_ifs
  · exact ⟨hb, Nat.zero_le _, fun t ht => absurd ht List.not_mem_nil⟩
  · exact matchLevels id s p _ hb qty

theorem add (hb : b.Words) (s : Side) (p : ℤ) (hid : id < 2 ^ 64) (hqty : qty < 2 ^ 32) :
    (b.add id s p qty).2.1.Words ∧ ∀ t ∈ (b.add id s p qty).2.2, t.Words := by
  obtain ⟨hwords, hleft, htrades⟩ := hb.match id s p qty
  unfold OrderBook.add
  simp only
  split_ifs
  · exact ⟨hb, fun t ht => absurd ht List.not_mem_nil⟩
  · exact ⟨hwords.rest hid (Nat.lt_of_le_of_lt hleft hqty), htrades⟩
  · exact ⟨hwords, htrades⟩

theorem place (hb : b.Words) (s : Side) (p : ℤ) (hid : id < 2 ^ 64) (hqty : qty < 2 ^ 32) :
    (b.place id s p qty).2.Words := by
  unfold OrderBook.place
  simp only
  split_ifs
  · exact hb
  · exact hb.rest hid hqty

/-! ### Changing resting orders -/

theorem cancel (hb : b.Words) (h : ℕ) : (b.cancel h).1 < 2 ^ 32 ∧ (b.cancel h).2.Words := by
  unfold OrderBook.cancel
  simp only
  have hunlinked : ((b.unlink (b.pool h).side (b.pool h).price h).takeShares (b.pool h).side (b.pool h).price
      (b.pool h).qty).Words := (hb.linkNext _ _).linkPrev _ _
  have hempty : Order.Words { (b.unlink (b.pool h).side (b.pool h).price h).takeShares (b.pool h).side (b.pool h).price
      (b.pool h).qty |>.pool h with qty := 0 } := ⟨(hunlinked h).1, Nat.two_pow_pos 32⟩
  have hdropped : (b.dropOrder (b.pool h).side (b.pool h).price h (b.pool h).qty).Words :=
    (hunlinked.setOrder h hempty).free h
  split_ifs
  · exact ⟨Nat.two_pow_pos 32, hb⟩
  · exact ⟨Nat.two_pow_pos 32, hb⟩
  · exact ⟨(hb h).2, hdropped.rescanBest _⟩
  · exact ⟨(hb h).2, hdropped⟩

theorem reduce (hb : b.Words) (h newQty : ℕ) : (b.reduce h newQty).1 < 2 ^ 32 ∧ (b.reduce h newQty).2.Words := by
  unfold OrderBook.reduce
  simp only
  split_ifs with hsize hsame hzero
  · exact ⟨Nat.two_pow_pos 32, hb⟩
  · exact ⟨Nat.two_pow_pos 32, hb⟩
  · exact hb.cancel h
  · have hlt : (b.pool h).qty - newQty < 2 ^ 32 := Nat.lt_of_le_of_lt (Nat.sub_le ..) (hb h).2
    exact ⟨hlt, Words.setOrder hb h ⟨(hb h).1, by have := (hb h).2; simp only; omega⟩⟩

theorem new (minPrice maxPrice : ℤ) : (OrderBook.new minPrice maxPrice).Words := fun _ => Order.words_default

theorem clear (b : OrderBook) : b.clear.Words := fun _ => Order.words_default

end Words

end OrderBook

end TickToTrade
