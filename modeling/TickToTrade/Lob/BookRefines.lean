import TickToTrade.Lob.BookOps

/-!
# The order book refines price-time priority

The reference engine keeps each side as a list and knows its orders by the number of
their arrival. The driver of the order book gives the same operations to the book and
remembers which handle each arrival got. `orderBook_refines` says that the two cannot
be told apart, as long as only resting orders are changed and the shares at a price fit
their word.

The marks of the program limit the ranges: where the mark for "no price" is itself a
price the book looks empty with orders in it (`noPrice_in_range`).
-/

namespace TickToTrade

/-- The operations of an order book. The orders are named by their arrival. -/
inductive BookOp where
  | add (id : ℕ) (side : Side) (price : ℤ) (qty : ℕ)
  | place (id : ℕ) (side : Side) (price : ℤ) (qty : ℕ)
  | «match» (id : ℕ) (side : Side) (price : ℤ) (qty : ℕ)
  | cancel (k : ℕ)
  | reduce (k : ℕ) (newQty : ℕ)
  | clear
deriving DecidableEq, Repr

/-- What an operation answers. -/
structure Outcome where
  trades : List Trade := []
  /-- The shares left by `match`, or removed by `cancel` and `reduce`. -/
  qty : ℕ := 0
  /-- Does the order rest: is its handle not the mark? -/
  rests : Bool := false
deriving DecidableEq, Repr

/-! ### The reference engine -/

/-- The reference engine. -/
structure ReferenceEngine where
  minPrice : ℤ
  maxPrice : ℤ
  sides : Sides ℕ := fun _ => []
  /-- The number of orders that have arrived. -/
  arrivals : ℕ := 0

namespace ReferenceEngine

/-- Is the price one of the engine's? -/
def InRange (r : ReferenceEngine) (p : ℤ) : Prop := r.minPrice ≤ p ∧ p ≤ r.maxPrice

instance (r : ReferenceEngine) (p : ℤ) : Decidable (r.InRange p) := by unfold InRange; infer_instance

/-- The resting order of an arrival, and its side. -/
def order? (r : ReferenceEngine) (k : ℕ) : Option (Side × Resting ℕ) :=
  match (r.sides .buy).find? (·.key = k) with
  | some o => some (.buy, o)
  | none => ((r.sides .sell).find? (·.key = k)).map fun o => (.sell, o)

/-- One operation. -/
def step (r : ReferenceEngine) : BookOp → Outcome × ReferenceEngine
  | .add id s p q =>
      if q = 0 ∨ ¬ r.InRange p then ({}, { r with arrivals := r.arrivals + 1 })
      else
        ({ trades := (r.sides.cross id s p q).trades, rests := (r.sides.cross id s p q).left ≠ 0 },
          { r with sides := r.sides.added r.arrivals id s p q, arrivals := r.arrivals + 1 })
  | .place id s p q =>
      if q = 0 ∨ ¬ r.InRange p then ({}, { r with arrivals := r.arrivals + 1 })
      else
        ({ rests := true },
          { r with sides := r.sides.rested s ⟨r.arrivals, id, p, q⟩, arrivals := r.arrivals + 1 })
  | .match id s p q =>
      if q = 0 ∨ ¬ r.InRange p then ({}, r)
      else
        ({ trades := (r.sides.cross id s p q).trades, qty := (r.sides.cross id s p q).left },
          { r with sides := r.sides.traded id s p q })
  | .cancel k =>
      match r.order? k with
      | none => ({}, r)
      | some (s, o) => ({ qty := o.qty }, { r with sides := r.sides.without s k })
  | .reduce k q =>
      match r.order? k with
      | none => ({}, r)
      | some (s, o) =>
          if o.qty ≤ q then ({}, r)
          else if q = 0 then ({ qty := o.qty }, { r with sides := r.sides.without s k })
          else ({ qty := o.qty - q }, { r with sides := r.sides.resized s k q })
  | .clear => ({}, { r with sides := fun _ => [] })

/-- Does the operation change a resting order only, if any, and do the shares at each
price fit a 32-bit word after it? -/
def Allows (r : ReferenceEngine) (op : BookOp) : Prop :=
  (match op with
    | .cancel k | .reduce k _ => (r.order? k).isSome
    | _ => True) ∧
    ∀ s p, shares (level ((r.step op).2.sides s) p) < 2 ^ 32

/-- A run, with what its operations answer. -/
def run (r : ReferenceEngine) : List BookOp → List Outcome × ReferenceEngine
  | [] => ([], r)
  | op :: ops =>
      let (outs, r') := (r.step op).2.run ops
      ((r.step op).1 :: outs, r')

/-- Are all the operations of a run allowed? -/
def AllowsAll (r : ReferenceEngine) : List BookOp → Prop
  | [] => True
  | op :: ops => r.Allows op ∧ (r.step op).2.AllowsAll ops

end ReferenceEngine

/-! ### The driver of the book -/

/-- The order book with the handles of its orders. -/
structure Driver where
  book : OrderBook
  /-- The handle that each arrival got. -/
  handles : ℕ → ℕ := fun _ => 0
  /-- The number of orders that have arrived. -/
  arrivals : ℕ := 0

namespace Driver

/-- An arrival with the handle that the book gave it. -/
def arrive (d : Driver) (h : Option ℕ) (book : OrderBook) : Driver where
  book := book
  handles := match h with
    | some h => Function.update d.handles d.arrivals h
    | none => d.handles
  arrivals := d.arrivals + 1

/-- One operation. -/
def step (d : Driver) : BookOp → Outcome × Driver
  | .add id s p q =>
      let (h, b, ts) := d.book.add id s p q
      ({ trades := ts, rests := h ≠ none }, d.arrive h b)
  | .place id s p q =>
      let (h, b) := d.book.place id s p q
      ({ rests := h ≠ none }, d.arrive h b)
  | .match id s p q =>
      let (b, rem, ts) := d.book.match id s p q
      ({ trades := ts, qty := rem }, { d with book := b })
  | .cancel k =>
      let (removed, b) := d.book.cancel (d.handles k)
      ({ qty := removed }, { d with book := b })
  | .reduce k q =>
      let (removed, b) := d.book.reduce (d.handles k) q
      ({ qty := removed }, { d with book := b })
  | .clear => ({}, { d with book := d.book.clear })

/-- A run, with what its operations answer. -/
def run (d : Driver) : List BookOp → List Outcome × Driver
  | [] => ([], d)
  | op :: ops =>
      let (outs, d') := (d.step op).2.run ops
      ((d.step op).1 :: outs, d')

end Driver

/-- The book shows what the reference engine has: the orders of each level in their
order, the shares at each price, the best prices, and whether there is any order; and
the handle of each resting order leads to it. -/
structure SameView (d : Driver) (r : ReferenceEngine) : Prop where
  orders : ∀ s p, (d.book.ordersAtLevel s p).map (fun o => (o.id, o.price, o.qty, o.side)) =
    (level (r.sides s) p).map fun o => (o.id, o.price, o.qty, s)
  volume : ∀ s p, d.book.volumeAt s p = shares (level (r.sides s) p)
  bid : d.book.bestBid = bestOf (r.sides .buy)
  ask : d.book.bestAsk = bestOf (r.sides .sell)
  empty : d.book.empty ↔ r.sides .buy = [] ∧ r.sides .sell = []
  handles : ∀ s, ∀ o ∈ r.sides s, d.book.data (d.handles o.key) = ⟨o.id, o.price, o.qty, s⟩

/-- The simulation: the store of the book holds the orders of the reference engine, under
the handles that the driver remembers. -/
structure Simulates (d : Driver) (r : ReferenceEngine) : Prop where
  holds : d.book.Holds (r.sides.rekey d.handles)
  minPrice : d.book.minPrice = r.minPrice
  maxPrice : d.book.maxPrice = r.maxPrice
  arrivals : d.arrivals = r.arrivals
  lt : ∀ s, ∀ o ∈ r.sides s, o.key < r.arrivals
  noMark : kNoPrice < r.minPrice

namespace Simulates

variable {d : Driver} {r : ReferenceEngine} {s : Side} {o o' : Resting ℕ} {k : ℕ}

theorem inRange (h : Simulates d r) (p : ℤ) : d.book.InRange p ↔ r.InRange p := by
  rw [OrderBook.InRange, h.minPrice, h.maxPrice, ReferenceEngine.InRange]

theorem mem_rekey (f : ℕ → ℕ) {A : Sides ℕ} (ho : o ∈ A s) : o.rekey f ∈ A.rekey f s := List.mem_map_of_mem ho

/-- Different arrivals have different handles while they rest. -/
theorem key_inj (h : Simulates d r) (ho : o ∈ r.sides s) (ho' : o' ∈ r.sides s)
    (hkey : d.handles o.key = d.handles o'.key) : o.key = o'.key := by
  have hnodup := h.holds.nodup s
  rw [OrderBook.keys, Sides.rekey, List.map_map] at hnodup
  exact congrArg Resting.key (List.inj_on_of_nodup_map hnodup ho ho' hkey)

/-- A simulated book shows what the reference engine has. -/
theorem sameView (h : Simulates d r) : SameView d r where
  orders s p := by
    rw [h.holds.ordersAtLevel_eq, Sides.rekey, level_rekey, List.map_map]
    rfl
  volume s p := by rw [h.holds.volumeAt_eq, Sides.rekey, level_rekey, shares_rekey]
  bid := (h.holds.best .buy).trans (bestOf_rekey ..)
  ask := (h.holds.best .sell).trans (bestOf_rekey ..)
  empty := by
    rw [h.holds.empty_iff (by rw [h.minPrice]; exact h.noMark), Sides.rekey, Sides.rekey, List.map_eq_nil_iff,
      List.map_eq_nil_iff]
  handles s o ho := h.holds.cells s _ (mem_rekey d.handles ho)

/-- The order of an arrival rests under its handle. -/
theorem of_order? (h : r.order? k = some (s, o)) : o ∈ r.sides s ∧ o.key = k := by
  unfold ReferenceEngine.order? at h
  cases hb : (r.sides .buy).find? (·.key = k) with
  | some o' =>
      rw [hb] at h
      cases h
      exact ⟨List.mem_of_find?_eq_some hb, by simpa using List.find?_some hb⟩
  | none =>
      rw [hb] at h
      obtain ⟨o', ho', he⟩ := Option.map_eq_some_iff.mp h
      cases he
      exact ⟨List.mem_of_find?_eq_some ho', by simpa using List.find?_some ho'⟩

/-- The next arrival gets a handle. -/
theorem arrive (h : Simulates d r) {b : OrderBook} {A : Sides ℕ} (hrange : d.book.SameRange b) (x : ℕ)
    (hb : b.Holds (A.rekey (Function.update d.handles d.arrivals x))) (hlt : ∀ s, ∀ o ∈ A s, o.key ≤ r.arrivals) :
    Simulates (d.arrive (some x) b) { r with sides := A, arrivals := r.arrivals + 1 } :=
  ⟨hb, hrange.1.trans h.minPrice, hrange.2.trans h.maxPrice, congrArg (· + 1) h.arrivals,
    fun s o ho => Nat.lt_succ_of_le (hlt s o ho), h.noMark⟩

/-- The next arrival gets none. -/
theorem arrive_none (h : Simulates d r) {b : OrderBook} {A : Sides ℕ} (hrange : d.book.SameRange b)
    (hb : b.Holds (A.rekey d.handles)) (hlt : ∀ s, ∀ o ∈ A s, o.key < r.arrivals) :
    Simulates (d.arrive none b) { r with sides := A, arrivals := r.arrivals + 1 } :=
  ⟨hb, hrange.1.trans h.minPrice, hrange.2.trans h.maxPrice, congrArg (· + 1) h.arrivals,
    fun s o ho => Nat.lt_succ_of_lt (hlt s o ho), h.noMark⟩

/-- The orders before an arrival do not see its handle. -/
theorem rekey_update (h : Simulates d r) {A : Sides ℕ} (hlt : ∀ s, ∀ o ∈ A s, o.key < r.arrivals) (x : ℕ) :
    A.rekey d.handles = A.rekey (Function.update d.handles d.arrivals x) := by
  refine Sides.rekey_congr fun s o ho => ?_
  have := hlt s o ho
  rw [Function.update_of_ne (by rw [h.arrivals]; omega)]

theorem traded_lt (h : Simulates d r) (id : ℕ) (s : Side) (p : ℤ) (q : ℕ) :
    ∀ s', ∀ o ∈ r.sides.traded id s p q s', o.key < r.arrivals := by
  intro s' o ho
  obtain ⟨y, hy, hkey, -⟩ := Sides.mem_traded ho
  rw [← hkey]
  exact h.lt s' y hy

theorem rested_lt {A : Sides ℕ} (hlt : ∀ s, ∀ o ∈ A s, o.key < r.arrivals) (s : Side)
    (id : ℕ) (p : ℤ) (q : ℕ) : ∀ s', ∀ o ∈ A.rested s ⟨r.arrivals, id, p, q⟩ s', o.key ≤ r.arrivals := by
  intro s' o ho
  obtain ho | ⟨-, rfl⟩ := Sides.mem_rested ho
  · exact Nat.le_of_lt (hlt s' o ho)
  · exact Nat.le_refl _

/-- A new order under its handle. -/
theorem rested_rekey (h : Simulates d r) {A : Sides ℕ} (hlt : ∀ s, ∀ o ∈ A s, o.key < r.arrivals) (s : Side)
    (x id : ℕ) (p : ℤ) (q : ℕ) :
    (A.rekey d.handles).rested s ⟨x, id, p, q⟩ =
      (A.rested s ⟨r.arrivals, id, p, q⟩).rekey (Function.update d.handles d.arrivals x) := by
  rw [← Sides.rested_rekey, ← h.rekey_update hlt, Resting.rekey]
  simp only
  rw [← h.arrivals, Function.update_self]

theorem sorted (h : Simulates d r) (s : Side) : Sorted s (r.sides s) :=
  (sorted_rekey d.handles).mp (h.holds.sorted s)

/-- The room for a new order, from the shares at its price afterwards. -/
theorem room (h : Simulates d r) {s : Side} (x id : ℕ) {p : ℤ} {q : ℕ}
    (hroom : shares (level (r.sides.rested s ⟨x, id, p, q⟩ s) p) < 2 ^ 32) :
    shares (level (r.sides.rekey d.handles s) p) + q < 2 ^ 32 := by
  rw [Sides.rested, Function.update_self, level_enqueue (h.sorted s), if_pos rfl, shares_append, shares_cons,
    shares_nil, Nat.add_zero] at hroom
  rw [Sides.rekey, level_rekey, shares_rekey]
  exact hroom

theorem add (h : Simulates d r) {id : ℕ} {s : Side} {p : ℤ} {q : ℕ} (hok : r.Allows (.add id s p q)) :
    (d.step (.add id s p q)).1 = (r.step (.add id s p q)).1 ∧
      Simulates (d.step (.add id s p q)).2 (r.step (.add id s p q)).2 := by
  obtain ⟨-, hroom⟩ := hok
  unfold ReferenceEngine.step at hroom ⊢
  simp only at hroom ⊢
  by_cases hc : q = 0 ∨ ¬ r.InRange p
  · have hc' : q = 0 ∨ ¬ d.book.InRange p := by rw [h.inRange]; exact hc
    unfold Driver.step OrderBook.add
    simp only [if_pos hc, if_pos hc']
    exact ⟨rfl, h.arrive_none ⟨rfl, rfl⟩ h.holds h.lt⟩
  · rw [if_neg hc] at hroom ⊢
    have hq : q ≠ 0 := fun hq => hc (.inl hq)
    have hp : d.book.InRange p := (h.inRange p).mpr (not_not.mp fun hp => hc (.inr hp))
    have hroom' : shares (level (r.sides.rekey d.handles s) p) +
        ((r.sides.rekey d.handles).cross id s p q).left < 2 ^ 32 := by
      rw [Sides.cross_rekey]
      simp only
      by_cases hleft : (r.sides.cross id s p q).left = 0
      · rw [hleft]
        exact h.holds.bounded s p
      · refine h.room r.arrivals id ?_
        have := hroom s p
        simp only [Sides.added, if_neg hleft] at this
        rw [Sides.rested, Function.update_self] at this ⊢
        rw [Sides.traded_same] at this
        exact this
    obtain ⟨x, b, heq, -, hb, hrange⟩ := h.holds.add_spec (by rw [h.minPrice]; exact h.noMark) hq hp id s hroom'
    unfold Driver.step
    simp only [heq, Sides.cross_rekey] at hb ⊢
    unfold Sides.added at hb ⊢
    rw [Sides.cross_rekey] at hb
    simp only [Sides.traded_rekey] at hb
    by_cases hleft : (r.sides.cross id s p q).left = 0
    · simp only [if_pos hleft] at hb ⊢
      refine ⟨by simp [hleft], h.arrive_none hrange hb (h.traded_lt id s p q)⟩
    · simp only [if_neg hleft] at hb ⊢
      rw [h.rested_rekey (h.traded_lt id s p q)] at hb
      refine ⟨by simp [hleft], h.arrive hrange x hb (rested_lt (h.traded_lt id s p q) s id p _)⟩

theorem place (h : Simulates d r) {id : ℕ} {s : Side} {p : ℤ} {q : ℕ} (hok : r.Allows (.place id s p q)) :
    (d.step (.place id s p q)).1 = (r.step (.place id s p q)).1 ∧
      Simulates (d.step (.place id s p q)).2 (r.step (.place id s p q)).2 := by
  obtain ⟨-, hroom⟩ := hok
  unfold ReferenceEngine.step at hroom ⊢
  simp only at hroom ⊢
  by_cases hc : q = 0 ∨ ¬ r.InRange p
  · have hc' : q = 0 ∨ ¬ d.book.InRange p := by rw [h.inRange]; exact hc
    unfold Driver.step OrderBook.place
    simp only [if_pos hc, if_pos hc']
    exact ⟨rfl, h.arrive_none ⟨rfl, rfl⟩ h.holds h.lt⟩
  · rw [if_neg hc] at hroom ⊢
    have hq : q ≠ 0 := fun hq => hc (.inl hq)
    have hp : d.book.InRange p := (h.inRange p).mpr (not_not.mp fun hp => hc (.inr hp))
    obtain ⟨x, b, heq, -, hb, hrange⟩ :=
      h.holds.place_spec (by rw [h.minPrice]; exact h.noMark) hq hp (h.room r.arrivals id (hroom s p)) id
    unfold Driver.step
    rw [h.rested_rekey h.lt] at hb
    simp only [heq]
    exact ⟨rfl, h.arrive hrange x hb (rested_lt h.lt s id p q)⟩

/-- The book has changed, and nothing else. -/
theorem with_book (h : Simulates d r) {b : OrderBook} {A : Sides ℕ} (hrange : d.book.SameRange b)
    (hb : b.Holds (A.rekey d.handles)) (hlt : ∀ s, ∀ o ∈ A s, o.key < r.arrivals) :
    Simulates { d with book := b } { r with sides := A } :=
  ⟨hb, hrange.1.trans h.minPrice, hrange.2.trans h.maxPrice, h.arrivals, hlt, h.noMark⟩

theorem «match» (h : Simulates d r) (id : ℕ) (s : Side) (p : ℤ) (q : ℕ) :
    (d.step (.match id s p q)).1 = (r.step (.match id s p q)).1 ∧
      Simulates (d.step (.match id s p q)).2 (r.step (.match id s p q)).2 := by
  unfold ReferenceEngine.step Driver.step
  simp only
  by_cases hc : q = 0 ∨ ¬ r.InRange p
  · have hc' : q = 0 ∨ ¬ d.book.InRange p := by rw [h.inRange]; exact hc
    unfold OrderBook.match
    simp only [if_pos hc, if_pos hc']
    exact ⟨trivial, h⟩
  · have hq : q ≠ 0 := fun hq => hc (.inl hq)
    have hp : d.book.InRange p := (h.inRange p).mpr (not_not.mp fun hp => hc (.inr hp))
    obtain ⟨b, heq, hb, hrange⟩ := h.holds.match_spec (by rw [h.minPrice]; exact h.noMark) hq hp id s
    rw [Sides.traded_rekey] at hb
    simp only [heq, if_neg hc, Sides.cross_rekey]
    exact ⟨trivial, h.with_book hrange hb (h.traded_lt id s p q)⟩

theorem without_lt (h : Simulates d r) (s : Side) (k : ℕ) :
    ∀ s', ∀ o ∈ r.sides.without s k s', o.key < r.arrivals := by
  intro s' o ho
  unfold Sides.without at ho
  by_cases hs : s' = s
  · subst hs
    rw [Function.update_self] at ho
    exact h.lt s' o (mem_remove.mp ho).1
  · rw [Function.update_of_ne hs] at ho
    exact h.lt s' o ho

theorem resized_lt (h : Simulates d r) (s : Side) (k q : ℕ) :
    ∀ s', ∀ o ∈ r.sides.resized s k q s', o.key < r.arrivals := by
  intro s' o ho
  unfold Sides.resized at ho
  by_cases hs : s' = s
  · subst hs
    rw [Function.update_self] at ho
    obtain ⟨y, hy, ⟨-, rfl⟩ | ⟨-, rfl⟩⟩ := mem_resize ho
    · exact h.lt s' o hy
    · exact h.lt s' y hy
  · rw [Function.update_of_ne hs] at ho
    exact h.lt s' o ho

/-- A cancel of a resting order. -/
theorem cancel_of_mem (h : Simulates d r) (ho : o ∈ r.sides s) :
    ∃ b, d.book.cancel (d.handles o.key) = (o.qty, b) ∧
      Simulates { d with book := b } { r with sides := r.sides.without s o.key } := by
  obtain ⟨b, heq, hb, hrange⟩ := h.holds.cancel_spec (mem_rekey d.handles ho)
  have hb' := Sides.without_rekey fun x hx => h.key_inj hx ho
  rw [show (o.rekey d.handles).key = d.handles o.key from rfl, hb'] at hb
  exact ⟨b, heq, h.with_book hrange hb (h.without_lt s o.key)⟩

theorem cancel (h : Simulates d r) {k : ℕ} (hok : r.Allows (.cancel k)) :
    (d.step (.cancel k)).1 = (r.step (.cancel k)).1 ∧
      Simulates (d.step (.cancel k)).2 (r.step (.cancel k)).2 := by
  obtain ⟨⟨s, o⟩, hfind⟩ := Option.isSome_iff_exists.mp hok.1
  obtain ⟨ho, rfl⟩ := of_order? hfind
  obtain ⟨b, heq, hsim⟩ := h.cancel_of_mem ho
  unfold ReferenceEngine.step Driver.step
  simp only [hfind, heq]
  exact ⟨trivial, hsim⟩

theorem reduce (h : Simulates d r) {k q : ℕ} (hok : r.Allows (.reduce k q)) :
    (d.step (.reduce k q)).1 = (r.step (.reduce k q)).1 ∧
      Simulates (d.step (.reduce k q)).2 (r.step (.reduce k q)).2 := by
  obtain ⟨⟨s, o⟩, hfind⟩ := Option.isSome_iff_exists.mp hok.1
  obtain ⟨ho, rfl⟩ := of_order? hfind
  have ho' := mem_rekey d.handles ho
  unfold ReferenceEngine.step Driver.step
  simp only [hfind]
  by_cases hle : o.qty ≤ q
  · have heq : d.book.reduce (d.handles o.key) q = (0, d.book) := h.holds.reduce_of_le ho' hle
    simp only [if_pos hle, heq]
    exact ⟨trivial, h⟩
  · by_cases hq : q = 0
    · subst hq
      obtain ⟨b, heq, hsim⟩ := h.cancel_of_mem ho
      have heq' : d.book.reduce (d.handles o.key) 0 = (o.qty, b) := (h.holds.reduce_zero ho').trans heq
      simp only [if_neg hle, if_true, heq']
      exact ⟨trivial, hsim⟩
    · obtain ⟨b, heq, hb, hrange⟩ := h.holds.reduce_spec ho' (Nat.pos_of_ne_zero hq) (Nat.lt_of_not_le hle)
      have hb' := Sides.resized_rekey (fun x hx => h.key_inj hx ho) q
      rw [show (o.rekey d.handles).key = d.handles o.key from rfl, hb'] at hb
      have heq' : d.book.reduce (d.handles o.key) q = (o.qty - q, b) := heq
      simp only [if_neg hle, if_neg hq, heq']
      exact ⟨trivial, h.with_book hrange hb (h.resized_lt s o.key q)⟩

/-- **One operation**: the same answer, and still the same orders. -/
theorem step (h : Simulates d r) {op : BookOp} (hok : r.Allows op) :
    (d.step op).1 = (r.step op).1 ∧ Simulates (d.step op).2 (r.step op).2 := by
  cases op with
  | add id s p q => exact h.add hok
  | place id s p q => exact h.place hok
  | «match» id s p q => exact h.match id s p q
  | cancel k => exact h.cancel hok
  | reduce k q => exact h.reduce hok
  | clear =>
      refine ⟨rfl, h.with_book ⟨rfl, rfl⟩ ?_ (by simp)⟩
      exact OrderBook.holds_new d.book.minPrice d.book.maxPrice

/-- **A run**: the same answers, and the same orders at its end. -/
theorem run (h : Simulates d r) {ops : List BookOp} (hok : r.AllowsAll ops) :
    (d.run ops).1 = (r.run ops).1 ∧ Simulates (d.run ops).2 (r.run ops).2 := by
  induction ops generalizing d r with
  | nil => exact ⟨rfl, h⟩
  | cons op ops ih =>
      obtain ⟨heq, hsim⟩ := h.step hok.1
      obtain ⟨heqs, hsims⟩ := ih hsim hok.2
      refine ⟨?_, hsims⟩
      simp only [Driver.run, ReferenceEngine.run, heq, heqs]

end Simulates

/-! ### The order of the reference engine -/

/-- The orders of a side by price, and by arrival at one price. -/
def InArrivalOrder (s : Side) (l : List (Resting ℕ)) : Prop :=
  l.Pairwise fun x y => s.atLeast x.price y.price ∧ (x.price = y.price → x.key < y.key)

namespace InArrivalOrder

variable {s : Side} {l : List (Resting ℕ)} {o : Resting ℕ}

/-- The last to arrive rests behind the others at its price. -/
theorem enqueue (h : InArrivalOrder s l) (hlast : ∀ x ∈ l, x.key < o.key) : InArrivalOrder s (enqueue s o l) := by
  induction l with
  | nil => exact List.pairwise_singleton ..
  | cons x l ih =>
      obtain ⟨hx, hl⟩ := List.pairwise_cons.mp h
      unfold TickToTrade.enqueue
      split_ifs with hat
      · refine List.pairwise_cons.mpr ⟨fun y hy => ?_, ih hl fun y hy => hlast y (by simp [hy])⟩
        obtain rfl | hy := mem_enqueue.mp hy
        · exact ⟨hat, fun _ => hlast x (by simp)⟩
        · exact hx y hy
      · have hle : s.atLeast o.price x.price := Side.atLeast_of_not hat
        refine List.pairwise_cons.mpr ⟨fun y hy => ?_, h⟩
        have hy' : s.atLeast x.price y.price := by
          obtain rfl | hy := List.mem_cons.mp hy
          · exact Side.atLeast_refl ..
          · exact (hx y hy).1
        refine ⟨Side.atLeast_trans hle hy', fun heq => absurd ?_ hat⟩
        rw [heq]
        exact hy'

theorem fill (h : InArrivalOrder s l) (aggId : ℕ) (aggSide : Side) (limit : ℤ) (q : ℕ) :
    InArrivalOrder s (fill aggId aggSide limit l q).rest := by
  induction l generalizing q with
  | nil => exact List.Pairwise.nil
  | cons o l ih =>
      obtain ⟨ho, hl⟩ := List.pairwise_cons.mp h
      unfold TickToTrade.fill
      split_ifs
      · exact h
      · exact List.pairwise_cons.mpr ⟨ho, hl⟩
      · exact ih hl _

theorem resize (h : InArrivalOrder s l) (k q : ℕ) : InArrivalOrder s (resize k q l) := by
  refine List.pairwise_map.mpr (h.imp fun {x y} hxy => ?_)
  have hsame (z : Resting ℕ) : (if z.key = k then { z with qty := q } else z).price = z.price ∧
      (if z.key = k then { z with qty := q } else z).key = z.key := by split_ifs <;> exact ⟨rfl, rfl⟩
  rw [(hsame x).1, (hsame x).2, (hsame y).1, (hsame y).2]
  exact hxy

end InArrivalOrder

/-- The reference engine keeps its sides by price and arrival, and the next arrival is
later than all. -/
structure ReferenceEngine.Ordered (r : ReferenceEngine) : Prop where
  ordered : ∀ s, InArrivalOrder s (r.sides s)
  lt : ∀ s, ∀ o ∈ r.sides s, o.key < r.arrivals

namespace ReferenceEngine.Ordered

variable {r : ReferenceEngine}

theorem with_sides (h : r.Ordered) {s : Side} {l : List (Resting ℕ)} (hl : InArrivalOrder s l)
    (hlt : ∀ o ∈ l, o.key < r.arrivals) (n : ℕ) (hn : r.arrivals ≤ n) :
    ReferenceEngine.Ordered { r with sides := Function.update r.sides s l, arrivals := n } := by
  constructor <;> intro s' <;> by_cases hs : s' = s
  · subst hs; simpa using hl
  · simpa [Function.update_of_ne hs] using h.ordered s'
  · subst hs; simpa using fun o ho => Nat.lt_of_lt_of_le (hlt o ho) hn
  · simpa [Function.update_of_ne hs] using fun o ho => Nat.lt_of_lt_of_le (h.lt s' o ho) hn

theorem traded (h : r.Ordered) (id : ℕ) (s : Side) (p : ℤ) (q n : ℕ) (hn : r.arrivals ≤ n) :
    ReferenceEngine.Ordered { r with sides := r.sides.traded id s p q, arrivals := n } := by
  refine h.with_sides ((h.ordered _).fill ..) (fun o ho => ?_) n hn
  obtain ⟨y, hy, hkey, -⟩ := mem_fill ho
  rw [← hkey]
  exact h.lt _ y hy

theorem rested (h : r.Ordered) (s : Side) (id : ℕ) (p : ℤ) (q : ℕ) :
    ReferenceEngine.Ordered
      { r with sides := r.sides.rested s ⟨r.arrivals, id, p, q⟩, arrivals := r.arrivals + 1 } := by
  constructor <;> intro s' <;> by_cases hs : s' = s
  · subst hs
    simpa [Sides.rested] using (h.ordered s').enqueue (o := ⟨r.arrivals, id, p, q⟩) (h.lt s')
  · simpa [Sides.rested, Function.update_of_ne hs] using h.ordered s'
  · subst hs
    intro o ho
    obtain ho | ⟨-, rfl⟩ := Sides.mem_rested ho
    · exact Nat.lt_succ_of_lt (h.lt s' o ho)
    · exact Nat.lt_succ_self _
  · intro o ho
    obtain ho | ⟨rfl, -⟩ := Sides.mem_rested ho
    · exact Nat.lt_succ_of_lt (h.lt s' o ho)
    · exact absurd rfl hs

theorem without (h : r.Ordered) (s : Side) (k : ℕ) :
    ReferenceEngine.Ordered { r with sides := r.sides.without s k } :=
  h.with_sides (List.Pairwise.filter _ (h.ordered s)) (fun o ho => h.lt s o (mem_remove.mp ho).1) r.arrivals
    (Nat.le_refl _)

theorem resized (h : r.Ordered) (s : Side) (k q : ℕ) :
    ReferenceEngine.Ordered { r with sides := r.sides.resized s k q } := by
  refine h.with_sides ((h.ordered s).resize k q) (fun o ho => ?_) r.arrivals (Nat.le_refl _)
  obtain ⟨y, hy, ⟨-, rfl⟩ | ⟨-, rfl⟩⟩ := mem_resize ho
  · exact h.lt s o hy
  · exact h.lt s y hy

theorem arrive (h : r.Ordered) : ReferenceEngine.Ordered { r with arrivals := r.arrivals + 1 } :=
  ⟨h.ordered, fun s o ho => Nat.lt_succ_of_lt (h.lt s o ho)⟩

theorem step (h : r.Ordered) (op : BookOp) : (r.step op).2.Ordered := by
  unfold ReferenceEngine.step
  cases op with
  | add id s p q =>
      simp only
      split_ifs
      · exact h.arrive
      · unfold Sides.added
        split_ifs
        · exact h.traded id s p q _ (Nat.le_succ _)
        · exact (h.traded id s p q _ (Nat.le_refl _)).rested s id p _
  | place id s p q =>
      simp only
      split_ifs
      · exact h.arrive
      · exact h.rested s id p q
  | «match» id s p q =>
      simp only
      split_ifs
      · exact h
      · exact h.traded id s p q _ (Nat.le_refl _)
  | cancel k =>
      simp only
      split
      · exact h
      · exact h.without ..
  | reduce k q =>
      simp only
      split
      · exact h
      · split_ifs
        · exact h
        · exact h.without ..
        · exact h.resized ..
  | clear => exact ⟨fun s => List.Pairwise.nil, by simp⟩

theorem run (h : r.Ordered) (ops : List BookOp) : (r.run ops).2.Ordered := by
  induction ops generalizing r with
  | nil => exact h
  | cons op ops ih => exact ih (h.step op)

end ReferenceEngine.Ordered

/-! ### The two cannot be told apart -/

/-- The ranges of prices in which the program's words for prices work: the mark for "no
price" is below them, the price after the last one exists, and so does their width. -/
def RangeOk (minPrice maxPrice : ℤ) : Prop :=
  kNoPrice < minPrice ∧ maxPrice < 2 ^ 31 - 1 ∧ maxPrice - minPrice < 2 ^ 31

instance (minPrice maxPrice : ℤ) : Decidable (RangeOk minPrice maxPrice) := by unfold RangeOk; infer_instance

/-- **Price-time priority.** In every run the book answers what the reference engine
answers, which keeps its sides by price and arrival, and shows what it has. -/
theorem orderBook_refines {minPrice maxPrice : ℤ} (hrange : RangeOk minPrice maxPrice) (ops : List BookOp)
    (hok : (ReferenceEngine.mk minPrice maxPrice (fun _ => []) 0).AllowsAll ops) :
    let d := (Driver.mk (OrderBook.new minPrice maxPrice) (fun _ => 0) 0).run ops
    let r := (ReferenceEngine.mk minPrice maxPrice (fun _ => []) 0).run ops
    d.1 = r.1 ∧ SameView d.2 r.2 ∧ ∀ s, InArrivalOrder s (r.2.sides s) := by
  intro d r
  have hstart : Simulates (Driver.mk (OrderBook.new minPrice maxPrice) (fun _ => 0) 0)
      (ReferenceEngine.mk minPrice maxPrice (fun _ => []) 0) :=
    ⟨OrderBook.holds_new minPrice maxPrice, rfl, rfl, rfl, by simp, hrange.1⟩
  have hord : (ReferenceEngine.mk minPrice maxPrice (fun _ => []) 0).Ordered :=
    ⟨fun _ => List.Pairwise.nil, by simp⟩
  obtain ⟨hsame, hsim⟩ := hstart.run hok
  exact ⟨hsame, hsim.sameView, (hord.run ops).ordered⟩

/-- An operation is allowed if each side has fewer shares than a word holds. -/
theorem ReferenceEngine.allows_of_shares {r : ReferenceEngine} {op : BookOp}
    (hrests : match op with
      | .cancel k | .reduce k _ => (r.order? k).isSome
      | _ => True)
    (hshares : ∀ s, shares ((r.step op).2.sides s) < 2 ^ 32) : r.Allows op :=
  ⟨hrests, fun s _ => Nat.lt_of_le_of_lt (shares_level_le ..) (hshares s)⟩

/-- Two offers, a bid that takes the first and a part of the second, and a cancel. -/
def sampleOps : List BookOp :=
  [.add 1 .sell 101 5, .add 2 .sell 102 7, .add 3 .buy 102 8, .reduce 1 2, .cancel 1]

theorem sampleOps_allowed : (ReferenceEngine.mk 100 110 (fun _ => []) 0).AllowsAll sampleOps := by
  refine ⟨?_, ?_, ?_, ?_, ?_, trivial⟩
  all_goals
    refine ReferenceEngine.allows_of_shares (by decide) fun s => ?_
    cases s <;> decide

theorem orderBook_refines_sampleOps :
    RangeOk 100 110 ∧ (ReferenceEngine.mk 100 110 (fun _ => []) 0).AllowsAll sampleOps ∧
      ((Driver.mk (OrderBook.new 100 110) (fun _ => 0) 0).run sampleOps).1 =
        ((ReferenceEngine.mk 100 110 (fun _ => []) 0).run sampleOps).1 ∧
      (((Driver.mk (OrderBook.new 100 110) (fun _ => 0) 0).run sampleOps).1.map (·.trades.length)) = [0, 0, 2, 0, 0] :=
  ⟨by decide, sampleOps_allowed, (orderBook_refines (by decide) sampleOps sampleOps_allowed).1, by decide⟩

/-- Where the mark for "no price" is a price of the book, an order rests there and the
book says that it is empty. -/
theorem noPrice_in_range :
    let ops := [BookOp.place 1 .buy kNoPrice 5]
    let r := (ReferenceEngine.mk kNoPrice (kNoPrice + 3) (fun _ => []) 0).run ops
    let d := (Driver.mk (OrderBook.new kNoPrice (kNoPrice + 3)) (fun _ => 0) 0).run ops
    (ReferenceEngine.mk kNoPrice (kNoPrice + 3) (fun _ => []) 0).AllowsAll ops ∧
      d.2.book.empty ∧ d.2.book.volumeAt .buy kNoPrice = 5 ∧ r.2.sides .buy ≠ [] ∧ ¬ SameView d.2 r.2 := by
  intro ops r d
  have hempty : d.2.book.empty := by decide
  have hrests : r.2.sides .buy ≠ [] := by decide
  refine ⟨⟨?_, trivial⟩, hempty, by decide, hrests, fun hview => hrests (hview.empty.mp hempty).1⟩
  refine ReferenceEngine.allows_of_shares trivial fun s => ?_
  cases s <;> decide

end TickToTrade
