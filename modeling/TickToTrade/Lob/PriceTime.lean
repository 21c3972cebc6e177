import Mathlib.Data.List.Basic
import Mathlib.Data.List.Nodup
import Mathlib.Logic.Function.Basic
import TickToTrade.Lob.Types

/-!
# Price-time priority

What a matching engine is for, with no concern for how it is stored: each side is a
list of resting orders, the best price first and, at one price, the first to arrive
first. An arriving order trades with the orders of the other side in that order, as
long as their prices cross its limit, and what is left of it may rest.

The orders are known by keys of any type `K`. The reference engine `PriceTime` uses
the number of an order's arrival for its key; the store of the order book is described
by the same lists, with its handles for keys.
-/

namespace TickToTrade

/-- A resting order. -/
structure Resting (K : Type*) where
  key : K
  id : ℕ
  price : ℤ
  qty : ℕ
deriving DecidableEq, Repr

namespace Resting

variable {K K' : Type*}

/-- The same order under another key. -/
def rekey (f : K → K') (o : Resting K) : Resting K' := ⟨f o.key, o.id, o.price, o.qty⟩

end Resting

/-- The list of a side: prices do not improve on the way. -/
def Sorted {K : Type*} (s : Side) (l : List (Resting K)) : Prop :=
  l.Pairwise fun x y => s.atLeast x.price y.price

/-- The orders at a price, in the order of their arrival. -/
def level {K : Type*} (l : List (Resting K)) (p : ℤ) : List (Resting K) := l.filter fun o => o.price = p

/-- The shares of a list of orders. -/
def shares {K : Type*} (l : List (Resting K)) : ℕ := (l.map Resting.qty).sum

/-- The best price of a side. -/
def bestOf {K : Type*} (l : List (Resting K)) : ℤ := (l.head?.map Resting.price).getD kNoPrice

/-- An order comes to rest behind all orders with a price at least as good. -/
def enqueue {K : Type*} (s : Side) (o : Resting K) : List (Resting K) → List (Resting K)
  | [] => [o]
  | x :: l => if s.atLeast x.price o.price then x :: enqueue s o l else o :: x :: l

/-- What an arriving order does to a side. -/
structure Fill (K : Type*) where
  trades : List Trade
  /-- The shares of the arriving order that are left. -/
  left : ℕ
  /-- The orders of the side that are left. -/
  rest : List (Resting K)

/-- The trade of `qty` shares of an arriving order with a resting one. -/
def Resting.trade {K : Type*} (o : Resting K) (aggId : ℕ) (aggSide : Side) (qty : ℕ) : Trade where
  restingId := o.id
  aggressorId := aggId
  price := o.price
  qty := qty
  aggressorSide := aggSide
  restingFilled := qty = o.qty

/-- Trade an arriving order of `aggSide` against the orders of the other side, from the
best one on, as long as their prices are within the limit. -/
def fill {K : Type*} (aggId : ℕ) (aggSide : Side) (limit : ℤ) : List (Resting K) → ℕ → Fill K
  | [], q => ⟨[], q, []⟩
  | o :: l, q =>
      if q = 0 ∨ ¬ aggSide.opposite.atLeast o.price limit then ⟨[], q, o :: l⟩
      else if q < o.qty then ⟨[o.trade aggId aggSide q], 0, { o with qty := o.qty - q } :: l⟩
      else
        let r := fill aggId aggSide limit l (q - o.qty)
        ⟨o.trade aggId aggSide o.qty :: r.trades, r.left, r.rest⟩

/-- An order leaves. -/
def remove {K : Type*} [DecidableEq K] (k : K) (l : List (Resting K)) : List (Resting K) :=
  l.filter fun o => o.key ≠ k

/-- An order keeps its place with fewer shares. -/
def resize {K : Type*} [DecidableEq K] (k : K) (q : ℕ) (l : List (Resting K)) : List (Resting K) :=
  l.map fun o => if o.key = k then { o with qty := q } else o

/-- The two sides of a book. -/
abbrev Sides (K : Type*) := Side → List (Resting K)

namespace Sides

variable {K : Type*}

/-- What an arriving order does to the other side. -/
def cross (A : Sides K) (id : ℕ) (s : Side) (limit : ℤ) (q : ℕ) : Fill K := fill id s limit (A s.opposite) q

/-- The sides after the trades of an arriving order. -/
def traded (A : Sides K) (id : ℕ) (s : Side) (limit : ℤ) (q : ℕ) : Sides K :=
  Function.update A s.opposite (A.cross id s limit q).rest

/-- The sides after an order has come to rest. -/
def rested (A : Sides K) (s : Side) (o : Resting K) : Sides K := Function.update A s (enqueue s o (A s))

/-- The sides without an order. -/
def without [DecidableEq K] (A : Sides K) (s : Side) (k : K) : Sides K := Function.update A s (remove k (A s))

/-- The sides with an order's shares changed. -/
def resized [DecidableEq K] (A : Sides K) (s : Side) (k : K) (q : ℕ) : Sides K :=
  Function.update A s (resize k q (A s))

/-- The sides after the trades of an arriving order, the rest of which rests. -/
def added (A : Sides K) (k : K) (id : ℕ) (s : Side) (p : ℤ) (q : ℕ) : Sides K :=
  if (A.cross id s p q).left = 0 then A.traded id s p q
  else (A.traded id s p q).rested s ⟨k, id, p, (A.cross id s p q).left⟩

theorem traded_same (A : Sides K) (id : ℕ) (s : Side) (limit : ℤ) (q : ℕ) : A.traded id s limit q s = A s :=
  Function.update_of_ne (Side.ne_opposite s) ..

end Sides

/-! ### Lists of orders -/

section

variable {K K' : Type*} {s : Side} {o : Resting K} {l l' : List (Resting K)} {p limit : ℤ} {q aggId : ℕ}
  {aggSide : Side}

@[simp] theorem level_nil (p : ℤ) : level ([] : List (Resting K)) p = [] := rfl

@[simp] theorem level_append (l l' : List (Resting K)) (p : ℤ) : level (l ++ l') p = level l p ++ level l' p :=
  List.filter_append ..

theorem level_cons_self (o : Resting K) (l : List (Resting K)) : level (o :: l) o.price = o :: level l o.price :=
  List.filter_cons_of_pos (by simp)

theorem level_cons_of_ne (h : o.price ≠ p) (l : List (Resting K)) : level (o :: l) p = level l p :=
  List.filter_cons_of_neg (by simpa using h)

theorem mem_level : o ∈ level l p ↔ o ∈ l ∧ o.price = p := by simp [level]

theorem level_eq_nil_iff : level l p = [] ↔ ∀ o ∈ l, o.price ≠ p := by simp [level]

@[simp] theorem shares_nil : shares ([] : List (Resting K)) = 0 := rfl

@[simp] theorem shares_cons (o : Resting K) (l : List (Resting K)) : shares (o :: l) = o.qty + shares l := by
  simp [shares]

@[simp] theorem shares_append (l l' : List (Resting K)) : shares (l ++ l') = shares l + shares l' := by
  simp [shares]

theorem shares_level_le (l : List (Resting K)) (p : ℤ) : shares (level l p) ≤ shares l := by
  induction l with
  | nil => exact Nat.le_refl _
  | cons o l ih =>
      by_cases ho : o.price = p
      · subst ho
        rw [level_cons_self, shares_cons, shares_cons]
        exact Nat.add_le_add_left ih _
      · rw [level_cons_of_ne ho, shares_cons]
        exact Nat.le_trans ih (Nat.le_add_left ..)

theorem shares_pos (h : o ∈ l) (hq : ∀ x ∈ l, 0 < x.qty) : 0 < shares l := by
  induction l with
  | nil => cases h
  | cons x l ih =>
      have := hq x (by simp)
      rw [shares_cons]
      omega

/-- Where every order has shares, the empty levels are those without shares. -/
theorem shares_eq_zero_iff (hq : ∀ x ∈ l, 0 < x.qty) : shares l = 0 ↔ l = [] := by
  constructor
  · intro h
    by_contra hne
    obtain ⟨x, hx⟩ := List.exists_mem_of_ne_nil l hne
    have := shares_pos hx hq
    omega
  · rintro rfl; rfl

/-! ### Coming to rest -/

theorem mem_enqueue {x : Resting K} : x ∈ enqueue s o l ↔ x = o ∨ x ∈ l := by
  induction l with
  | nil => simp [enqueue]
  | cons y l ih =>
      unfold enqueue
      split_ifs
      · simp only [List.mem_cons, ih]; tauto
      · simp only [List.mem_cons]

theorem perm_enqueue (s : Side) (o : Resting K) (l : List (Resting K)) : (enqueue s o l).Perm (o :: l) := by
  induction l with
  | nil => exact List.Perm.refl _
  | cons y l ih =>
      unfold enqueue
      split_ifs
      · exact (ih.cons y).trans (List.Perm.swap o y l)
      · exact List.Perm.refl _

theorem Sorted.enqueue (h : Sorted s l) (o : Resting K) : Sorted s (enqueue s o l) := by
  induction l with
  | nil => exact List.pairwise_singleton ..
  | cons y l ih =>
      obtain ⟨hy, hl⟩ := List.pairwise_cons.mp h
      unfold TickToTrade.enqueue
      split_ifs with hc
      · refine List.pairwise_cons.mpr ⟨fun x hx => ?_, ih hl⟩
        obtain rfl | hx := mem_enqueue.mp hx
        · exact hc
        · exact hy x hx
      · refine List.pairwise_cons.mpr ⟨fun x hx => ?_, h⟩
        have hoy := s.atLeast_of_not hc
        obtain rfl | hx := List.mem_cons.mp hx
        · exact hoy
        · exact s.atLeast_trans hoy (hy x hx)

/-- At its price the order is the last one. -/
theorem level_enqueue (h : Sorted s l) (o : Resting K) (p : ℤ) :
    level (enqueue s o l) p = if o.price = p then level l p ++ [o] else level l p := by
  induction l with
  | nil =>
      unfold enqueue
      split_ifs with hp
      · subst hp; exact level_cons_self o []
      · exact level_cons_of_ne hp []
  | cons y l ih =>
      obtain ⟨hy, hl⟩ := List.pairwise_cons.mp h
      unfold enqueue
      by_cases hc : s.atLeast y.price o.price
      · rw [if_pos hc]
        by_cases hyp : y.price = p
        · subst hyp
          rw [level_cons_self, level_cons_self, ih hl]
          split_ifs <;> rfl
        · rw [level_cons_of_ne hyp, level_cons_of_ne hyp, ih hl]
      · rw [if_neg hc]
        split_ifs with hp
        · -- everything behind is worse, so the level is empty
          subst hp
          have hnone : level (y :: l) o.price = [] := by
            refine level_eq_nil_iff.mpr fun x hx he => hc ?_
            obtain rfl | hx := List.mem_cons.mp hx
            · rw [he]; exact s.atLeast_refl _
            · rw [← he]; exact hy x hx
          rw [level_cons_self, hnone]
          rfl
        · exact level_cons_of_ne hp _

theorem bestOf_cons (o : Resting K) (l : List (Resting K)) : bestOf (o :: l) = o.price := rfl

theorem bestOf_enqueue (s : Side) (o : Resting K) (l : List (Resting K)) :
    bestOf (enqueue s o l) = if l = [] ∨ ¬ s.atLeast (bestOf l) o.price then o.price else bestOf l := by
  cases l with
  | nil => simp [enqueue, bestOf]
  | cons x l =>
      unfold enqueue
      simp only [bestOf_cons, List.cons_ne_nil, false_or]
      split_ifs <;> rfl

/-! ### Leaving -/

theorem mem_remove [DecidableEq K] {k : K} {x : Resting K} : x ∈ remove k l ↔ x ∈ l ∧ x.key ≠ k := by
  simp [remove]

theorem Sorted.remove [DecidableEq K] (h : Sorted s l) (k : K) : Sorted s (remove k l) := List.Pairwise.filter _ h

theorem level_remove [DecidableEq K] (k : K) (l : List (Resting K)) (p : ℤ) :
    level (remove k l) p = remove k (level l p) := by
  simp only [level, TickToTrade.remove, List.filter_filter, Bool.and_comm]

theorem remove_of_not_mem [DecidableEq K] {k : K} (h : ∀ x ∈ l, x.key ≠ k) : remove k l = l :=
  List.filter_eq_self.mpr fun x hx => by simpa using h x hx

@[simp] theorem remove_append [DecidableEq K] (k : K) (l l' : List (Resting K)) :
    remove k (l ++ l') = remove k l ++ remove k l' := List.filter_append ..

theorem remove_cons_self [DecidableEq K] (o : Resting K) (l : List (Resting K)) :
    remove o.key (o :: l) = remove o.key l := List.filter_cons_of_neg (by simp)

/-- An order with its own key splits the list; removing it joins the parts. -/
theorem exists_split [DecidableEq K] (h : o ∈ l) (hnodup : (l.map Resting.key).Nodup) :
    ∃ pre post, l = pre ++ o :: post ∧ remove o.key l = pre ++ post := by
  obtain ⟨pre, post, rfl⟩ := List.append_of_mem h
  rw [List.map_append, List.map_cons, List.nodup_append] at hnodup
  obtain ⟨-, hpost, hdisj⟩ := hnodup
  refine ⟨pre, post, rfl, ?_⟩
  rw [remove_append, remove_cons_self, remove_of_not_mem, remove_of_not_mem]
  · intro x hx he
    exact (List.nodup_cons.mp hpost).1 (List.mem_map.mpr ⟨x, hx, he⟩)
  · intro x hx he
    exact hdisj x.key (List.mem_map_of_mem hx) o.key (by simp) he

theorem resize_of_not_mem [DecidableEq K] {k : K} (h : ∀ x ∈ l, x.key ≠ k) (q : ℕ) : resize k q l = l := by
  conv_rhs => rw [← List.map_id l]
  exact List.map_congr_left fun x hx => if_neg (h x hx)

theorem resize_split [DecidableEq K] {pre post : List (Resting K)}
    (hnodup : ((pre ++ o :: post).map Resting.key).Nodup) (q : ℕ) :
    resize o.key q (pre ++ o :: post) = pre ++ { o with qty := q } :: post := by
  rw [List.map_append, List.map_cons, List.nodup_append] at hnodup
  obtain ⟨-, hpost, hdisj⟩ := hnodup
  have hpre : resize o.key q pre = pre :=
    resize_of_not_mem (fun x hx he => hdisj x.key (List.mem_map_of_mem hx) o.key (by simp) he) q
  have hpost : resize o.key q post = post :=
    resize_of_not_mem (fun x hx he => (List.nodup_cons.mp hpost).1 (List.mem_map.mpr ⟨x, hx, he⟩)) q
  conv_rhs => rw [← hpre, ← hpost]
  simp [resize]

theorem resize_cons_self [DecidableEq K] (hnodup : ((o :: l).map Resting.key).Nodup) (q : ℕ) :
    resize o.key q (o :: l) = { o with qty := q } :: l := by
  rw [← List.nil_append (o :: l), resize_split hnodup, List.nil_append]

@[simp] theorem key_resize [DecidableEq K] (k : K) (q : ℕ) (l : List (Resting K)) :
    (resize k q l).map Resting.key = l.map Resting.key := by
  simp only [resize, List.map_map]
  exact List.map_congr_left fun o _ => by simp only [Function.comp_apply]; split_ifs <;> rfl

theorem mem_resize [DecidableEq K] {k : K} {x : Resting K} (h : x ∈ resize k q l) :
    ∃ y ∈ l, (y.key ≠ k ∧ x = y) ∨ (y.key = k ∧ x = { y with qty := q }) := by
  obtain ⟨y, hy, rfl⟩ := List.mem_map.mp h
  refine ⟨y, hy, ?_⟩
  split_ifs with hk
  · exact .inr ⟨hk, rfl⟩
  · exact .inl ⟨hk, rfl⟩

theorem Sorted.resize [DecidableEq K] (h : Sorted s l) (k : K) (q : ℕ) : Sorted s (resize k q l) := by
  refine List.pairwise_map.mpr (h.imp fun {x y} hxy => ?_)
  have hprice : ∀ z : Resting K, (if z.key = k then { z with qty := q } else z).price = z.price := by
    intro z; split_ifs <;> rfl
  rw [hprice, hprice]
  exact hxy

theorem level_resize [DecidableEq K] (k : K) (q : ℕ) (l : List (Resting K)) (p : ℤ) :
    level (resize k q l) p = resize k q (level l p) := by
  simp only [level, TickToTrade.resize, List.filter_map]
  refine congrArg _ (List.filter_congr fun o _ => ?_)
  simp only [Function.comp_apply]
  split_ifs <;> rfl

theorem bestOf_resize [DecidableEq K] (k : K) (q : ℕ) (l : List (Resting K)) : bestOf (resize k q l) = bestOf l := by
  cases l with
  | nil => rfl
  | cons o l =>
      rw [resize, List.map_cons, bestOf_cons, bestOf_cons]
      split_ifs <;> rfl

/-! ### Trading -/

@[simp] theorem fill_nil (aggId : ℕ) (aggSide : Side) (limit : ℤ) (q : ℕ) :
    fill aggId aggSide limit ([] : List (Resting K)) q = ⟨[], q, []⟩ := rfl

@[simp] theorem fill_zero (aggId : ℕ) (aggSide : Side) (limit : ℤ) (l : List (Resting K)) :
    fill aggId aggSide limit l 0 = ⟨[], 0, l⟩ := by
  cases l with
  | nil => rfl
  | cons o l => simp [fill]

/-- Beyond the limit nothing trades. -/
theorem fill_of_not_crosses (h : ¬ aggSide.opposite.atLeast o.price limit) :
    fill aggId aggSide limit (o :: l) q = ⟨[], q, o :: l⟩ := if_pos (.inr h)

/-- Orders within the limit trade before what is behind them. -/
theorem fill_append (h : ∀ x ∈ l, aggSide.opposite.atLeast x.price limit) (l' : List (Resting K)) (q : ℕ) :
    fill aggId aggSide limit (l ++ l') q =
      let r := fill aggId aggSide limit l q
      let r' := fill aggId aggSide limit l' r.left
      ⟨r.trades ++ r'.trades, r'.left, r.rest ++ r'.rest⟩ := by
  induction l generalizing q with
  | nil => rfl
  | cons o l ih =>
      have hc := h o (by simp)
      rw [List.cons_append, fill, fill]
      by_cases hq : q = 0
      · rw [if_pos (.inl hq), if_pos (.inl hq)]
        subst hq
        simp
      · have hno : ¬ (q = 0 ∨ ¬ aggSide.opposite.atLeast o.price limit) := by tauto
        rw [if_neg hno, if_neg hno]
        by_cases hlt : q < o.qty
        · rw [if_pos hlt, if_pos hlt]
          simp
        · rw [if_neg hlt, if_neg hlt]
          simp only [ih (fun x hx => h x (by simp [hx])), List.cons_append]

/-- The orders left after trading: some of those before, in their places. -/
theorem Sorted.fill (h : Sorted s l) (aggId : ℕ) (aggSide : Side) (limit : ℤ) (q : ℕ) :
    Sorted s (fill aggId aggSide limit l q).rest := by
  induction l generalizing q with
  | nil => exact List.Pairwise.nil
  | cons o l ih =>
      obtain ⟨ho, hl⟩ := List.pairwise_cons.mp h
      unfold TickToTrade.fill
      split_ifs
      · exact h
      · exact List.pairwise_cons.mpr ⟨ho, hl⟩
      · exact ih hl _

/-- Where the prices are all within the limit, all is traded or nothing is left. -/
theorem fill_left_eq_zero (h : ∀ x ∈ l, aggSide.opposite.atLeast x.price limit)
    (hrest : (fill aggId aggSide limit l q).rest ≠ []) : (fill aggId aggSide limit l q).left = 0 := by
  induction l generalizing q with
  | nil => exact absurd rfl hrest
  | cons o l ih =>
      have hc := h o (by simp)
      revert hrest
      unfold fill
      split_ifs with h1 h2
      · obtain h1 | h1 := h1
        · exact fun _ => h1
        · exact absurd hc h1
      · exact fun _ => rfl
      · exact fun hrest => ih (fun x hx => h x (by simp [hx])) hrest

/-- An order that is left has its id and price, and not more shares than before. -/
theorem mem_fill {x : Resting K} (h : x ∈ (fill aggId aggSide limit l q).rest) :
    ∃ y ∈ l, y.key = x.key ∧ y.id = x.id ∧ y.price = x.price ∧ x.qty ≤ y.qty ∧ (0 < y.qty → 0 < x.qty) := by
  induction l generalizing q with
  | nil => cases h
  | cons o l ih =>
      revert h
      unfold fill
      split_ifs with h1 h2
      · exact fun h => ⟨x, h, rfl, rfl, rfl, Nat.le_refl _, id⟩
      · intro h
        obtain rfl | h := List.mem_cons.mp h
        · exact ⟨o, by simp, rfl, rfl, rfl, by simp, fun _ => Nat.sub_pos_of_lt h2⟩
        · exact ⟨x, by simp [h], rfl, rfl, rfl, Nat.le_refl _, id⟩
      · intro h
        obtain ⟨y, hy, hsame⟩ := ih h
        exact ⟨y, by simp [hy], hsame⟩

/-! ### Other keys -/

theorem enqueue_rekey (f : K → K') (s : Side) (o : Resting K) (l : List (Resting K)) :
    enqueue s (o.rekey f) (l.map (Resting.rekey f)) = (enqueue s o l).map (Resting.rekey f) := by
  induction l with
  | nil => rfl
  | cons x l ih =>
      rw [List.map_cons, enqueue, enqueue, ih]
      split_ifs with h1 h2 h2
      · rfl
      · exact absurd h1 h2
      · exact absurd h2 h1
      · rfl

theorem fill_rekey (f : K → K') (aggId : ℕ) (aggSide : Side) (limit : ℤ) (l : List (Resting K)) (q : ℕ) :
    fill aggId aggSide limit (l.map (Resting.rekey f)) q =
      let r := fill aggId aggSide limit l q
      ⟨r.trades, r.left, r.rest.map (Resting.rekey f)⟩ := by
  induction l generalizing q with
  | nil => rfl
  | cons o l ih =>
      have hprice : (o.rekey f).price = o.price := rfl
      have hqty : (o.rekey f).qty = o.qty := rfl
      rw [List.map_cons, fill, fill, hprice, hqty]
      by_cases h1 : q = 0 ∨ ¬ aggSide.opposite.atLeast o.price limit
      · rw [if_pos h1, if_pos h1]; rfl
      · rw [if_neg h1, if_neg h1]
        by_cases h2 : q < o.qty
        · rw [if_pos h2, if_pos h2]; rfl
        · rw [if_neg h2, if_neg h2, ih]; rfl

theorem level_rekey (f : K → K') (l : List (Resting K)) (p : ℤ) :
    level (l.map (Resting.rekey f)) p = (level l p).map (Resting.rekey f) := by
  simp only [level, List.filter_map]
  rfl

theorem shares_rekey (f : K → K') (l : List (Resting K)) : shares (l.map (Resting.rekey f)) = shares l := by
  simp only [shares, List.map_map]
  rfl

theorem bestOf_rekey (f : K → K') (l : List (Resting K)) : bestOf (l.map (Resting.rekey f)) = bestOf l := by
  cases l <;> rfl

theorem sorted_rekey (f : K → K') : Sorted s (l.map (Resting.rekey f)) ↔ Sorted s l := List.pairwise_map

/-- Two renamings that agree on the keys. -/
theorem rekey_congr {f g : K → K'} (h : ∀ o ∈ l, f o.key = g o.key) :
    l.map (Resting.rekey f) = l.map (Resting.rekey g) :=
  List.map_congr_left fun o ho => by rw [Resting.rekey, Resting.rekey, h o ho]

variable [DecidableEq K] [DecidableEq K']

theorem remove_rekey {f : K → K'} {k : K} (hinj : ∀ o ∈ l, f o.key = f k → o.key = k) :
    remove (f k) (l.map (Resting.rekey f)) = (remove k l).map (Resting.rekey f) := by
  simp only [remove, List.filter_map]
  refine congrArg _ (List.filter_congr fun o ho => ?_)
  have : f o.key = f k ↔ o.key = k := ⟨hinj o ho, fun h => by rw [h]⟩
  simp [Resting.rekey, this]

theorem resize_rekey {f : K → K'} {k : K} (hinj : ∀ o ∈ l, f o.key = f k → o.key = k) (q : ℕ) :
    resize (f k) q (l.map (Resting.rekey f)) = (resize k q l).map (Resting.rekey f) := by
  simp only [resize, List.map_map]
  refine List.map_congr_left fun o ho => ?_
  have : f o.key = f k ↔ o.key = k := ⟨hinj o ho, fun h => by rw [h]⟩
  simp only [Function.comp_apply, Resting.rekey, this]
  split_ifs <;> rfl

end

namespace Sides

variable {K K' : Type*} {A : Sides K} {s : Side} {o : Resting K} {p : ℤ} {q id : ℕ}

/-- The same orders under other keys. -/
def rekey (f : K → K') (A : Sides K) : Sides K' := fun s => (A s).map (Resting.rekey f)

theorem update_rekey (f : K → K') (A : Sides K) (s : Side) (l : List (Resting K)) :
    Function.update (A.rekey f) s (l.map (Resting.rekey f)) = rekey f (Function.update A s l) := by
  funext s'
  by_cases hs : s' = s
  · subst hs; simp [rekey]
  · simp [rekey, hs]

theorem cross_rekey (f : K → K') (A : Sides K) (id : ℕ) (s : Side) (p : ℤ) (q : ℕ) :
    (A.rekey f).cross id s p q =
      ⟨(A.cross id s p q).trades, (A.cross id s p q).left, (A.cross id s p q).rest.map (Resting.rekey f)⟩ :=
  fill_rekey ..

theorem traded_rekey (f : K → K') (A : Sides K) (id : ℕ) (s : Side) (p : ℤ) (q : ℕ) :
    (A.rekey f).traded id s p q = (A.traded id s p q).rekey f := by
  rw [traded, cross_rekey, update_rekey]
  rfl

theorem rested_rekey (f : K → K') (A : Sides K) (s : Side) (o : Resting K) :
    (A.rekey f).rested s (o.rekey f) = (A.rested s o).rekey f := by
  rw [rested, show A.rekey f s = (A s).map (Resting.rekey f) from rfl, enqueue_rekey, update_rekey]
  rfl

theorem rekey_congr {f g : K → K'} (h : ∀ s, ∀ o ∈ A s, f o.key = g o.key) : A.rekey f = A.rekey g :=
  funext fun s => TickToTrade.rekey_congr (h s)

theorem mem_rested {x : Resting K} {s' : Side} (h : x ∈ A.rested s o s') : x ∈ A s' ∨ s' = s ∧ x = o := by
  unfold rested at h
  by_cases hs : s' = s
  · subst hs
    rw [Function.update_self] at h
    exact (mem_enqueue.mp h).symm.imp_right fun he => ⟨rfl, he⟩
  · rw [Function.update_of_ne hs] at h
    exact .inl h

/-- An order that is left by the trades was there before, under its key. -/
theorem mem_traded {x : Resting K} {s' : Side} (h : x ∈ A.traded id s p q s') :
    ∃ y ∈ A s', y.key = x.key ∧ y.id = x.id ∧ y.price = x.price ∧ x.qty ≤ y.qty := by
  unfold traded at h
  by_cases hs : s' = s.opposite
  · subst hs
    rw [Function.update_self] at h
    obtain ⟨y, hy, hk, hi, hp, hq, -⟩ := mem_fill h
    exact ⟨y, hy, hk, hi, hp, hq⟩
  · rw [Function.update_of_ne hs] at h
    exact ⟨x, h, rfl, rfl, rfl, Nat.le_refl _⟩

variable [DecidableEq K] [DecidableEq K']

theorem without_rekey {f : K → K'} {k : K} (hinj : ∀ o ∈ A s, f o.key = f k → o.key = k) :
    (A.rekey f).without s (f k) = (A.without s k).rekey f := by
  rw [without, show A.rekey f s = (A s).map (Resting.rekey f) from rfl, remove_rekey hinj, update_rekey]
  rfl

theorem resized_rekey {f : K → K'} {k : K} (hinj : ∀ o ∈ A s, f o.key = f k → o.key = k) (q : ℕ) :
    (A.rekey f).resized s (f k) q = (A.resized s k q).rekey f := by
  rw [resized, show A.rekey f s = (A s).map (Resting.rekey f) from rfl, resize_rekey hinj, update_rekey]
  rfl

end Sides

end TickToTrade
