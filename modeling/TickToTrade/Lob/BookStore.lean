import Mathlib.Data.List.Perm.Subperm
import TickToTrade.Lob.BestPrice
import TickToTrade.Lob.OrderBook
import TickToTrade.Lob.PriceTime
import TickToTrade.Util.LinkedQueue

/-!
# What the store of the order book holds

`Stored b A` says that the pool, the levels and the free list of a book hold the
orders `A`, two lists in the order of priority with the handles for keys. `Holds`
adds the best prices. Each operation of the book does to these lists what
price-time priority asks for.
-/

namespace TickToTrade

namespace OrderBook

open Util

/-! ### The links and the data of the pool -/

/-- What a cell says of its order, beside the links. -/
structure Data where
  id : ℕ
  price : ℤ
  qty : ℕ
  side : Side

/-- The next orders. -/
def next (b : OrderBook) (h : ℕ) : Option ℕ := (b.pool h).next

/-- The previous orders. -/
def prev (b : OrderBook) (h : ℕ) : Option ℕ := (b.pool h).prev

/-- The data of the cells. -/
def data (b : OrderBook) (h : ℕ) : Data := ⟨(b.pool h).id, (b.pool h).price, (b.pool h).qty, (b.pool h).side⟩

section

variable (b : OrderBook) (h : ℕ) (o : Order) (e x : Option ℕ) (s : Side) (p : ℤ) (lvl : Level) (qty : ℕ)

theorem next_setOrder : (b.setOrder h o).next = Function.update b.next h o.next := by
  funext y
  by_cases hy : y = h
  · subst hy; simp [next, setOrder]
  · simp [next, setOrder, hy]

theorem prev_setOrder : (b.setOrder h o).prev = Function.update b.prev h o.prev := by
  funext y
  by_cases hy : y = h
  · subst hy; simp [prev, setOrder]
  · simp [prev, setOrder, hy]

theorem data_setOrder : (b.setOrder h o).data = Function.update b.data h ⟨o.id, o.price, o.qty, o.side⟩ := by
  funext y
  by_cases hy : y = h
  · subst hy; simp [data, setOrder]
  · simp [data, setOrder, hy]

@[simp] theorem next_linkNext : (b.linkNext e x).next = relink b.next e x := by
  cases e with
  | none => rfl
  | some h => exact next_setOrder ..

@[simp] theorem prev_linkNext : (b.linkNext e x).prev = b.prev := by
  cases e with
  | none => rfl
  | some h => exact (prev_setOrder ..).trans (Function.update_eq_self ..)

@[simp] theorem data_linkNext : (b.linkNext e x).data = b.data := by
  cases e with
  | none => rfl
  | some h => exact (data_setOrder ..).trans (Function.update_eq_self ..)

@[simp] theorem next_linkPrev : (b.linkPrev e x).next = b.next := by
  cases e with
  | none => rfl
  | some h => exact (next_setOrder ..).trans (Function.update_eq_self ..)

@[simp] theorem prev_linkPrev : (b.linkPrev e x).prev = relink b.prev e x := by
  cases e with
  | none => rfl
  | some h => exact prev_setOrder ..

@[simp] theorem data_linkPrev : (b.linkPrev e x).data = b.data := by
  cases e with
  | none => rfl
  | some h => exact (data_setOrder ..).trans (Function.update_eq_self ..)

@[simp] theorem next_setLevel : (b.setLevel s p lvl).next = b.next := rfl
@[simp] theorem prev_setLevel : (b.setLevel s p lvl).prev = b.prev := rfl
@[simp] theorem data_setLevel : (b.setLevel s p lvl).data = b.data := rfl
@[simp] theorem next_takeShares : (b.takeShares s p qty).next = b.next := rfl
@[simp] theorem prev_takeShares : (b.takeShares s p qty).prev = b.prev := rfl
@[simp] theorem data_takeShares : (b.takeShares s p qty).data = b.data := rfl
@[simp] theorem next_free : (b.free h).next = Function.update b.next h b.freeHead := next_setOrder ..
@[simp] theorem prev_free : (b.free h).prev = b.prev := (prev_setOrder ..).trans (Function.update_eq_self ..)
@[simp] theorem data_free : (b.free h).data = b.data := (data_setOrder ..).trans (Function.update_eq_self ..)

@[simp] theorem levels_setOrder : (b.setOrder h o).levels = b.levels := rfl
@[simp] theorem levels_free : (b.free h).levels = b.levels := rfl

@[simp] theorem levels_linkNext : (b.linkNext e x).levels = b.levels := by cases e <;> rfl

@[simp] theorem levels_linkPrev : (b.linkPrev e x).levels = b.levels := by cases e <;> rfl

end

/-- What the operations on cells and levels leave alone. -/
structure SameFrame (b b' : OrderBook) : Prop where
  minPrice : b'.minPrice = b.minPrice
  maxPrice : b'.maxPrice = b.maxPrice
  best : b'.best = b.best
  size : b'.size = b.size

namespace SameFrame

variable {b b' b'' : OrderBook}

theorem refl (b : OrderBook) : SameFrame b b := ⟨rfl, rfl, rfl, rfl⟩

theorem trans (h : SameFrame b b') (h' : SameFrame b' b'') : SameFrame b b'' :=
  ⟨h'.minPrice.trans h.minPrice, h'.maxPrice.trans h.maxPrice, h'.best.trans h.best, h'.size.trans h.size⟩

theorem inRange (h : SameFrame b b') (p : ℤ) : b'.InRange p ↔ b.InRange p := by
  rw [InRange, InRange, h.minPrice, h.maxPrice]

theorem linkNext (b : OrderBook) (e x : Option ℕ) : SameFrame b (b.linkNext e x) := by
  cases e <;> exact ⟨rfl, rfl, rfl, rfl⟩

theorem linkPrev (b : OrderBook) (e x : Option ℕ) : SameFrame b (b.linkPrev e x) := by
  cases e <;> exact ⟨rfl, rfl, rfl, rfl⟩

end SameFrame

/-- Levels of which one has changed. -/
def setAt (levels : Side → ℤ → Level) (s : Side) (p : ℤ) (lvl : Level) : Side → ℤ → Level :=
  Function.update levels s (Function.update (levels s) p lvl)

@[simp] theorem setAt_self (levels : Side → ℤ → Level) (s : Side) (p : ℤ) (lvl : Level) :
    setAt levels s p lvl s p = lvl := by
  simp [setAt]

theorem setAt_of_ne {s s' : Side} {p p' : ℤ} (hne : (s', p') ≠ (s, p)) (levels : Side → ℤ → Level)
    (lvl : Level) : setAt levels s p lvl s' p' = levels s' p' := by
  unfold setAt
  by_cases hs : s' = s
  · subst hs
    rw [Function.update_self, Function.update_of_ne fun hp => hne (by rw [hp])]
  · rw [Function.update_of_ne hs]

/-! ### The orders in the store -/

/-- The handles of a list of orders. -/
def keys (l : List (Resting ℕ)) : List ℕ := l.map Resting.key

/-- A level's ends and the links describe this queue. -/
structure IsQueue (next prev : ℕ → Option ℕ) (lvl : Level) (q : List ℕ) : Prop where
  linked : Linked next prev none q none
  head : lvl.head = q.head?
  tail : lvl.tail = q.getLast?

/-- The free cells: linked, in the pool, and without shares. -/
structure FreeCells (b : OrderBook) (f : List ℕ) : Prop where
  chained : Chained b.next b.freeHead f
  nodup : f.Nodup
  lt : ∀ h ∈ f, h < b.size
  empty : ∀ h ∈ f, (b.data h).qty = 0

/-- The cells and the queues of the levels hold these orders, whatever the levels'
shares and the best prices say. -/
structure Queued (b : OrderBook) (A : Side → List (Resting ℕ)) : Prop where
  sorted : ∀ s, Sorted s (A s)
  nodup : ∀ s, (keys (A s)).Nodup
  cells : ∀ s, ∀ o ∈ A s, b.data o.key = ⟨o.id, o.price, o.qty, s⟩
  lt : ∀ s, ∀ o ∈ A s, o.key < b.size
  pos : ∀ s, ∀ o ∈ A s, 0 < o.qty
  range : ∀ s, ∀ o ∈ A s, b.InRange o.price
  queues : ∀ s p, IsQueue b.next b.prev (b.levels s p) (keys (level (A s) p))
  free : ∃ f, FreeCells b f

/-- The store holds these orders: the shares of the levels are theirs too. -/
structure Stored (b : OrderBook) (A : Side → List (Resting ℕ)) : Prop extends Queued b A where
  totals : ∀ s p, (b.levels s p).totalQty = shares (level (A s) p)
  bounded : ∀ s p, shares (level (A s) p) < 2 ^ 32

/-- The store holds these orders, and the best prices are theirs. -/
structure Holds (b : OrderBook) (A : Side → List (Resting ℕ)) : Prop extends Stored b A where
  best : ∀ s, b.best s = bestOf (A s)

/-! ### Steps of the store -/

/-- The store after an order has left: its neighbours take over its links, and its cell
is the first free one. -/
structure Drops (b b' : OrderBook) (s : Side) (p : ℤ) (h : ℕ) : Prop extends SameFrame b b' where
  next : b'.next = Function.update (relink b.next (b.prev h) (b.next h)) h b.freeHead
  prev : b'.prev = relink b.prev (b.next h) (b.prev h)
  data : b'.data = Function.update b.data h { b.data h with qty := 0 }
  levels : b'.levels = setAt b.levels s p
    { totalQty := ((b.levels s p).totalQty + 2 ^ 32 - (b.data h).qty) % 2 ^ 32
      head := if b.prev h = none then b.next h else (b.levels s p).head
      tail := if b.next h = none then b.prev h else (b.levels s p).tail }
  freeHead : b'.freeHead = some h

/-- The store after an order has been left with `qty` shares. -/
structure Resizes (b b' : OrderBook) (s : Side) (p : ℤ) (h qty : ℕ) : Prop extends SameFrame b b' where
  next : b'.next = b.next
  prev : b'.prev = b.prev
  data : b'.data = Function.update b.data h { b.data h with qty := qty }
  levels : b'.levels = setAt b.levels s p
    { b.levels s p with totalQty := ((b.levels s p).totalQty + 2 ^ 32 - ((b.data h).qty - qty)) % 2 ^ 32 }
  freeHead : b'.freeHead = b.freeHead

/-- The cell of a new order: of no order yet, with the data of the new one and without
links. -/
structure NewCell (b : OrderBook) (A : Side → List (Resting ℕ)) (s : Side) (o : Resting ℕ) : Prop where
  fresh : ∀ s', ∀ x ∈ A s', x.key ≠ o.key
  lt : o.key < b.size
  data : b.data o.key = ⟨o.id, o.price, o.qty, s⟩
  next : b.next o.key = none
  prev : b.prev o.key = none

/-- The store after the order of a new cell has joined its level. -/
structure Joins (b b' : OrderBook) (s : Side) (p : ℤ) (h qty : ℕ) : Prop extends SameFrame b b' where
  next : b'.next = relink b.next (b.levels s p).tail (some h)
  prev : b'.prev = Function.update b.prev h (b.levels s p).tail
  data : b'.data = b.data
  levels : b'.levels = setAt b.levels s p
    { totalQty := ((b.levels s p).totalQty + qty) % 2 ^ 32
      head := if (b.levels s p).tail = none then some h else (b.levels s p).head
      tail := some h }
  freeHead : b'.freeHead = b.freeHead

namespace Queued

variable {b b' : OrderBook} {A : Side → List (Resting ℕ)} {s s' : Side} {o o' : Resting ℕ} {p p' : ℤ} {h q : ℕ}

/-- A handle belongs to one order only. -/
theorem eq_of_key (hst : Queued b A) (ho : o ∈ A s) (ho' : o' ∈ A s') (hkey : o.key = o'.key) :
    s = s' ∧ o = o' := by
  have h1 := hst.cells s o ho
  have h2 := hst.cells s' o' ho'
  rw [hkey, h2] at h1
  cases o; cases o'
  simp only [Data.mk.injEq] at h1 hkey
  obtain ⟨rfl, rfl, rfl, rfl⟩ := h1
  subst hkey
  exact ⟨rfl, rfl⟩

/-- The handles of a level say its side and its price. -/
theorem data_of_mem_level (hst : Queued b A) (hh : h ∈ keys (level (A s) p)) :
    (b.data h).side = s ∧ (b.data h).price = p ∧ 0 < (b.data h).qty ∧ h < b.size := by
  obtain ⟨o, hl, rfl⟩ := List.mem_map.mp hh
  obtain ⟨ho, rfl⟩ := mem_level.mp hl
  rw [hst.cells s o ho]
  exact ⟨rfl, rfl, hst.pos s o ho, hst.lt s o ho⟩

/-- Different levels have different handles. -/
theorem not_mem_level (hst : Queued b A) (hh : h ∈ keys (level (A s) p)) (hne : (s', p') ≠ (s, p)) :
    h ∉ keys (level (A s') p') := by
  intro hh'
  obtain ⟨rfl, rfl, -⟩ := hst.data_of_mem_level hh
  obtain ⟨h1, h2, -⟩ := hst.data_of_mem_level hh'
  exact hne (by rw [← h1, ← h2])

theorem nodup_level (hst : Queued b A) (s : Side) (p : ℤ) : (keys (level (A s) p)).Nodup :=
  (hst.nodup s).sublist (List.filter_sublist.map _)

/-- A pool has room for its orders. -/
theorem length_le (hst : Queued b A) (s : Side) : (A s).length ≤ b.size := by
  have hsub : keys (A s) ⊆ List.range b.size := by
    intro k hk
    obtain ⟨o, ho, rfl⟩ := List.mem_map.mp hk
    exact List.mem_range.mpr (hst.lt s o ho)
  have := (List.subperm_of_subset (hst.nodup s) hsub).length_le
  rwa [keys, List.length_map, List.length_range] at this

/-! ### An order leaves -/

theorem mem_update_remove (hst : Queued b A) (ho : o ∈ A s)
    (hx : o' ∈ Function.update A s (remove o.key (A s)) s') : o' ∈ A s' ∧ o'.key ≠ o.key := by
  by_cases hs : s' = s
  · subst hs
    rw [Function.update_self] at hx
    exact mem_remove.mp hx
  · rw [Function.update_of_ne hs] at hx
    exact ⟨hx, fun hkey => hs (hst.eq_of_key hx ho hkey).1⟩

/-- The level of an order, split at the order. -/
theorem exists_split_level (hst : Queued b A) (ho : o ∈ A s) :
    ∃ pre post, level (A s) o.price = pre ++ o :: post ∧ remove o.key (level (A s) o.price) = pre ++ post :=
  exists_split (mem_level.mpr ⟨ho, rfl⟩) (hst.nodup_level s o.price)

/-- The neighbours of an order are at its level. -/
theorem neighbours (hst : Queued b A) (ho : o ∈ A s) :
    (∀ x, b.prev o.key = some x → x ∈ keys (level (A s) o.price)) ∧
      ∀ x, b.next o.key = some x → x ∈ keys (level (A s) o.price) := by
  obtain ⟨pre, post, hl, -⟩ := hst.exists_split_level ho
  have hq := (hst.queues s o.price).linked
  rw [hl, keys, List.map_append, List.map_cons] at hq
  obtain ⟨hp, hn⟩ := hq.at_middle
  rw [hp, hn, hl, keys, List.map_append, List.map_cons]
  exact ⟨fun x hx => List.mem_append_left _ (List.mem_of_getLast? hx),
    fun x hx => List.mem_append_right _ (List.mem_cons_of_mem _ (List.mem_of_head? hx))⟩

/-- A level without the order, from the other levels. -/
theorem level_update_remove (hst : Queued b A) (ho : o ∈ A s) (hne : (s', p') ≠ (s, o.price)) :
    level (Function.update A s (remove o.key (A s)) s') p' = level (A s') p' := by
  by_cases hs : s' = s
  · subst hs
    rw [Function.update_self, level_remove]
    refine remove_of_not_mem fun x hx hkey => hne ?_
    obtain ⟨hxs, rfl⟩ := mem_level.mp hx
    rw [(hst.eq_of_key hxs ho hkey).2]
  · rw [Function.update_of_ne hs]

/-- Links that changed only at elements of other levels and at a cell of none. -/
theorem queue_congr (hst : Queued b A) (hframe : ∀ x ∈ keys (level (A s) p), b'.next x = b.next x ∧ b'.prev x = b.prev x)
    {lvl : Level} (hhead : lvl.head = (b.levels s p).head) (htail : lvl.tail = (b.levels s p).tail) :
    IsQueue b'.next b'.prev lvl (keys (level (A s) p)) := by
  have hq := hst.queues s p
  exact ⟨hq.linked.congr (fun x hx => (hframe x hx).1) fun x hx => (hframe x hx).2, hhead.trans hq.head,
    htail.trans hq.tail⟩

theorem drop (hst : Queued b A) (ho : o ∈ A s) (hd : Drops b b' s o.price o.key) :
    Queued b' (Function.update A s (remove o.key (A s))) := by
  obtain ⟨pre, post, hl, hrem⟩ := hst.exists_split_level ho
  obtain ⟨hprev, hnext⟩ := hst.neighbours ho
  have hqueue := hst.queues s o.price
  have hkeys : keys (level (A s) o.price) = keys pre ++ o.key :: keys post := by
    rw [hl, keys, List.map_append, List.map_cons]; rfl
  have hmem : ∀ {s' x}, x ∈ Function.update A s (remove o.key (A s)) s' → x ∈ A s' ∧ x.key ≠ o.key :=
    fun hx => hst.mem_update_remove ho hx
  have hlevel : level (Function.update A s (remove o.key (A s)) s) o.price = pre ++ post := by
    rw [Function.update_self, level_remove, hrem]
  have hself : o.key ∈ keys (level (A s) o.price) := List.mem_map_of_mem (mem_level.mpr ⟨ho, rfl⟩)
  refine ⟨fun s' => ?_, fun s' => ?_, fun s' x hx => ?_, fun s' x hx => ?_, fun s' x hx => ?_, fun s' x hx => ?_,
    fun s' p' => ?_, ?_⟩
  · by_cases hs : s' = s
    · subst hs; rw [Function.update_self]; exact (hst.sorted s').remove _
    · rw [Function.update_of_ne hs]; exact hst.sorted s'
  · by_cases hs : s' = s
    · subst hs; rw [Function.update_self]; exact (hst.nodup s').sublist (List.filter_sublist.map _)
    · rw [Function.update_of_ne hs]; exact hst.nodup s'
  · rw [hd.data, Function.update_of_ne (hmem hx).2]
    exact hst.cells s' x (hmem hx).1
  · rw [hd.size]; exact hst.lt s' x (hmem hx).1
  · exact hst.pos s' x (hmem hx).1
  · exact (hd.inRange _).mpr (hst.range s' x (hmem hx).1)
  · by_cases hsp : (s', p') = (s, o.price)
    · -- the order's own queue
      obtain ⟨hs, hp⟩ := Prod.mk.inj hsp
      rw [hs, hp, hlevel, hd.levels, setAt_self]
      have hsplit : keys (pre ++ post) = keys pre ++ keys post := List.map_append ..
      have hold := hqueue.linked
      rw [hkeys] at hold
      obtain ⟨hprev', hnext'⟩ := hold.at_middle
      have hnodup := hst.nodup_level s o.price
      rw [hkeys] at hnodup
      have hself' : o.key ∉ keys pre ++ keys post := by
        have := List.nodup_middle.mp hnodup
        exact (List.nodup_cons.mp this).1
      rw [hsplit]
      refine ⟨(hold.unlink hnodup).congr (fun x hx => ?_) (fun x _ => by rw [hd.prev]), ?_, ?_⟩
      · rw [hd.next, Function.update_of_ne]
        rintro rfl
        exact hself' hx
      · simp only [hqueue.head, hkeys, hprev', hnext']
        exact (Linked.head_unlink ..).symm
      · simp only [hqueue.tail, hkeys, hprev', hnext']
        exact (Linked.last_unlink ..).symm
    · rw [hst.level_update_remove ho hsp, hd.levels, setAt_of_ne hsp]
      refine hst.queue_congr (fun x hx => ?_) rfl rfl
      have hother : ∀ y ∈ keys (level (A s) o.price), y ≠ x := by
        rintro y hy rfl
        exact hst.not_mem_level hy hsp hx
      rw [hd.next, hd.prev, Function.update_of_ne (hother _ hself).symm, relink_of_ne, relink_of_ne]
      · exact ⟨rfl, rfl⟩
      · exact fun he => hother x (hnext x he) rfl
      · exact fun he => hother x (hprev x he) rfl
  · obtain ⟨f, hf⟩ := hst.free
    have hpos : ∀ x ∈ keys (level (A s) o.price), x ∉ f := by
      intro x hx hxf
      obtain ⟨-, -, hq, -⟩ := hst.data_of_mem_level hx
      have := hf.empty x hxf
      omega
    have hout := hpos _ hself
    refine ⟨o.key :: f, ?_, List.nodup_cons.mpr ⟨hout, hf.nodup⟩, fun x hx => ?_, fun x hx => ?_⟩
    · rw [hd.next, hd.freeHead]
      refine (hf.chained.congr fun x hx => relink_of_ne fun he => ?_).push hout
      exact hpos x (hprev x he) hx
    · rw [hd.size]
      obtain rfl | hx := List.mem_cons.mp hx
      · exact hst.lt s o ho
      · exact hf.lt x hx
    · rw [hd.data]
      by_cases hxo : x = o.key
      · rw [hxo, Function.update_self]
      · rw [Function.update_of_ne hxo]
        exact hf.empty x ((List.mem_cons.mp hx).resolve_left hxo)

/-! ### An order loses shares -/

theorem mem_update_resize (hst : Queued b A) (ho : o ∈ A s)
    (hx : o' ∈ Function.update A s (resize o.key q (A s)) s') :
    (o' ∈ A s' ∧ o'.key ≠ o.key) ∨ s' = s ∧ o' = { o with qty := q } := by
  by_cases hs : s' = s
  · subst hs
    rw [Function.update_self] at hx
    obtain ⟨y, hy, ⟨hk, rfl⟩ | ⟨hk, rfl⟩⟩ := mem_resize hx
    · exact .inl ⟨hy, hk⟩
    · rw [(hst.eq_of_key hy ho hk).2]
      exact .inr ⟨rfl, rfl⟩
  · rw [Function.update_of_ne hs] at hx
    exact .inl ⟨hx, fun hkey => hs (hst.eq_of_key hx ho hkey).1⟩

theorem level_update_resize (hst : Queued b A) (ho : o ∈ A s) (q : ℕ) (hne : (s', p') ≠ (s, o.price)) :
    level (Function.update A s (resize o.key q (A s)) s') p' = level (A s') p' := by
  by_cases hs : s' = s
  · subst hs
    rw [Function.update_self, level_resize]
    refine resize_of_not_mem (fun x hx hkey => hne ?_) q
    obtain ⟨hxs, rfl⟩ := mem_level.mp hx
    rw [(hst.eq_of_key hxs ho hkey).2]
  · rw [Function.update_of_ne hs]

theorem keys_level_update_resize (k q : ℕ) (s s' : Side) (p' : ℤ) :
    keys (level (Function.update A s (resize k q (A s)) s') p') = keys (level (A s') p') := by
  by_cases hs : s' = s
  · subst hs
    rw [Function.update_self, level_resize]
    exact key_resize ..
  · rw [Function.update_of_ne hs]

theorem shares_level_resize (hst : Queued b A) (ho : o ∈ A s) (q : ℕ) :
    shares (level (resize o.key q (A s)) o.price) + o.qty = shares (level (A s) o.price) + q := by
  obtain ⟨pre, post, hl, -⟩ := hst.exists_split_level ho
  have hnodup := hst.nodup_level s o.price
  rw [hl] at hnodup
  rw [level_resize, hl, resize_split hnodup]
  simp only [shares_append, shares_cons]
  omega

theorem resize (hst : Queued b A) (ho : o ∈ A s) (hq : 0 < q)
    (hr : Resizes b b' s o.price o.key q) : Queued b' (Function.update A s (resize o.key q (A s))) := by
  have hmem : ∀ {s' x}, x ∈ Function.update A s (TickToTrade.resize o.key q (A s)) s' →
      (x ∈ A s' ∧ x.key ≠ o.key) ∨ s' = s ∧ x = { o with qty := q } := fun hx => hst.mem_update_resize ho hx
  have hself : o.key ∈ keys (level (A s) o.price) := List.mem_map_of_mem (mem_level.mpr ⟨ho, rfl⟩)
  refine ⟨fun s' => ?_, fun s' => ?_, fun s' x hx => ?_, fun s' x hx => ?_, fun s' x hx => ?_, fun s' x hx => ?_,
    fun s' p' => ?_, ?_⟩
  · by_cases hs : s' = s
    · subst hs; rw [Function.update_self]; exact (hst.sorted s').resize _ _
    · rw [Function.update_of_ne hs]; exact hst.sorted s'
  · by_cases hs : s' = s
    · subst hs; rw [Function.update_self, keys, key_resize]; exact hst.nodup s'
    · rw [Function.update_of_ne hs]; exact hst.nodup s'
  · rw [hr.data]
    obtain ⟨hx, hk⟩ | ⟨rfl, rfl⟩ := hmem hx
    · rw [Function.update_of_ne hk]; exact hst.cells s' x hx
    · rw [Function.update_self, hst.cells s' o ho]
  · rw [hr.size]
    obtain ⟨hx, -⟩ | ⟨rfl, rfl⟩ := hmem hx
    · exact hst.lt s' x hx
    · exact hst.lt s' o ho
  · obtain ⟨hx, -⟩ | ⟨rfl, rfl⟩ := hmem hx
    · exact hst.pos s' x hx
    · exact hq
  · rw [hr.inRange]
    obtain ⟨hx, -⟩ | ⟨rfl, rfl⟩ := hmem hx
    · exact hst.range s' x hx
    · exact hst.range s' o ho
  · rw [keys_level_update_resize]
    have hqueue := hst.queues s' p'
    refine hst.queue_congr (fun x _ => ⟨congrFun hr.next x, congrFun hr.prev x⟩) ?_ ?_
    all_goals
      rw [hr.levels]
      by_cases hsp : (s', p') = (s, o.price)
      · obtain ⟨hs, hp⟩ := Prod.mk.inj hsp
        rw [hs, hp, setAt_self]
      · rw [setAt_of_ne hsp]
  · obtain ⟨f, hf⟩ := hst.free
    refine ⟨f, by rw [hr.next, hr.freeHead]; exact hf.chained, hf.nodup, fun x hx => by rw [hr.size]; exact hf.lt x hx,
      fun x hx => ?_⟩
    rw [hr.data, Function.update_of_ne]
    · exact hf.empty x hx
    · rintro rfl
      obtain ⟨-, -, hpos, -⟩ := hst.data_of_mem_level hself
      have := hf.empty o.key hx
      omega

/-! ### An order comes to rest -/

/-- Cells of no order may change, as long as the free cells are still linked. -/
theorem of_frame (hst : Queued b A) (hmin : b'.minPrice = b.minPrice) (hmax : b'.maxPrice = b.maxPrice)
    (hlevels : b'.levels = b.levels) (hsize : b.size ≤ b'.size)
    (hcells : ∀ s, ∀ o ∈ A s, b'.pool o.key = b.pool o.key) (hfree : ∃ f, FreeCells b' f) : Queued b' A := by
  have hdata : ∀ s, ∀ o ∈ A s, b'.data o.key = b.data o.key ∧ b'.next o.key = b.next o.key ∧
      b'.prev o.key = b.prev o.key := by
    intro s o ho
    simp only [OrderBook.data, OrderBook.next, OrderBook.prev, hcells s o ho, and_self]
  refine { hst with
    cells := fun s o ho => (hdata s o ho).1.trans (hst.cells s o ho)
    lt := fun s o ho => Nat.lt_of_lt_of_le (hst.lt s o ho) hsize
    range := fun s o ho => by rw [InRange, hmin, hmax]; exact hst.range s o ho
    queues := fun s p => ?_
    free := hfree }
  rw [hlevels]
  refine hst.queue_congr (fun x hx => ?_) rfl rfl
  obtain ⟨o, hl, rfl⟩ := List.mem_map.mp hx
  exact (hdata s o (mem_level.mp hl).1).2

/-- A cell is taken for a new order. -/
theorem alloc (hst : Queued b A) (id : ℕ) (s : Side) (p : ℤ) (q : ℕ) :
    let r := b.alloc
    let b' := r.2.setOrder r.1 { id := id, price := p, qty := q, side := s, prev := none, next := none }
    Queued b' A ∧ NewCell b' A s ⟨r.1, id, p, q⟩ ∧ b'.best = b.best ∧ b'.minPrice = b.minPrice ∧
      b'.maxPrice = b.maxPrice ∧ b'.levels = b.levels := by
  obtain ⟨f, hf⟩ := hst.free
  have hcell : ∀ (b₁ : OrderBook) h, (b₁.setOrder h ⟨id, p, q, s, none, none⟩).data h = ⟨id, p, q, s⟩ ∧
      (b₁.setOrder h ⟨id, p, q, s, none, none⟩).next h = none ∧
      (b₁.setOrder h ⟨id, p, q, s, none, none⟩).prev h = none := by
    intro b₁ h
    rw [data_setOrder, next_setOrder, prev_setOrder]
    simp
  unfold OrderBook.alloc
  cases hhead : b.freeHead with
  | none =>
      -- a new cell at the end of the pool
      have hfresh : ∀ s', ∀ x ∈ A s', x.key ≠ b.size := fun s' x hx => Nat.ne_of_lt (hst.lt s' x hx)
      have hnil : f = [] := by
        cases f with
        | nil => rfl
        | cons x f => exact absurd (hf.chained.1) (by rw [hhead]; simp)
      subst hnil
      simp only
      refine ⟨hst.of_frame rfl rfl rfl (Nat.le_succ _) (fun s' x hx => ?_) ⟨[], hhead, List.nodup_nil, by simp, by simp⟩,
        ⟨hfresh, Nat.lt_succ_self _, (hcell _ _).1, (hcell _ _).2.1, (hcell _ _).2.2⟩, rfl, rfl, rfl, rfl⟩
      simp [setOrder, hfresh s' x hx]
  | some h =>
      -- the first of the free cells
      obtain ⟨x, f', rfl⟩ : ∃ x f', f = x :: f' := by
        cases f with
        | nil => exact absurd hf.chained (by rw [hhead]; simp [Chained])
        | cons x f' => exact ⟨x, f', rfl⟩
      obtain ⟨hx, hchain⟩ := hf.chained
      rw [hhead] at hx
      cases hx
      obtain ⟨hout, hnodup⟩ := List.nodup_cons.mp hf.nodup
      have hfresh : ∀ s', ∀ x ∈ A s', x.key ≠ h := by
        rintro s' x hx rfl
        have hpos := hst.pos s' x hx
        have := hf.empty x.key (by simp)
        rw [hst.cells s' x hx] at this
        simp only at this
        omega
      simp only
      refine ⟨hst.of_frame rfl rfl rfl (Nat.le_refl _) (fun s' x hx => ?_) ⟨f', ?_, hnodup,
          fun x hx => hf.lt x (by simp [hx]), fun x hx => ?_⟩,
        ⟨hfresh, hf.lt h (by simp), (hcell _ _).1, (hcell _ _).2.1, (hcell _ _).2.2⟩, rfl, rfl, rfl, rfl⟩
      · simp [setOrder, hfresh s' x hx]
      · refine hchain.congr fun x hx => ?_
        rw [next_setOrder, Function.update_of_ne]
        · rfl
        · rintro rfl; exact hout hx
      · rw [data_setOrder, Function.update_of_ne]
        · exact hf.empty x (by simp [hx])
        · rintro rfl; exact hout hx

theorem joins_append (hprev : b.prev h = none) (s : Side) (p : ℤ) (q : ℕ) : Joins b (b.append s p h q) s p h q := by
  unfold append
  simp only
  cases ht : (b.levels s p).tail with
  | none =>
      have hsame : Function.update b.prev h none = b.prev := by rw [← hprev]; exact Function.update_eq_self ..
      exact ⟨⟨rfl, rfl, rfl, rfl⟩, by rw [ht]; rfl, by rw [ht, hsame]; rfl, rfl, by rw [ht, if_pos rfl]; rfl, rfl⟩
  | some t =>
      refine ⟨⟨rfl, rfl, rfl, rfl⟩, ?_, ?_, ?_, ?_, rfl⟩
      · rw [ht, next_setLevel, next_linkPrev, next_linkNext]
      · rw [ht, prev_setLevel, prev_linkPrev, prev_linkNext]; rfl
      · rw [data_setLevel, data_linkPrev, data_linkNext]
      · rw [ht, if_neg (Option.some_ne_none t)]; rfl

theorem level_update_enqueue (hst : Queued b A) (o : Resting ℕ) (s' : Side) (p' : ℤ) :
    level (Function.update A s (enqueue s o (A s)) s') p' =
      if (s', p') = (s, o.price) then level (A s) o.price ++ [o] else level (A s') p' := by
  split_ifs with hsp
  · obtain ⟨hs, hp⟩ := Prod.mk.inj hsp
    rw [hs, hp, Function.update_self, level_enqueue (hst.sorted s), if_pos rfl]
  · by_cases hs : s' = s
    · subst hs
      rw [Function.update_self, level_enqueue (hst.sorted s'), if_neg]
      rintro rfl
      exact hsp rfl
    · rw [Function.update_of_ne hs]

theorem mem_update_enqueue (hx : o' ∈ Function.update A s (enqueue s o (A s)) s') :
    o' ∈ A s' ∨ s' = s ∧ o' = o := by
  by_cases hs : s' = s
  · subst hs
    rw [Function.update_self] at hx
    exact (mem_enqueue.mp hx).symm.imp_right fun he => ⟨rfl, he⟩
  · rw [Function.update_of_ne hs] at hx
    exact .inl hx

theorem join (hst : Queued b A) (hcell : NewCell b A s o) (hq : 0 < o.qty) (hrange : b.InRange o.price)
    (hj : Joins b b' s o.price o.key o.qty) : Queued b' (Function.update A s (enqueue s o (A s))) := by
  have hqueue := hst.queues s o.price
  have hfresh : ∀ s p, o.key ∉ keys (level (A s) p) := by
    intro s' p' hk
    obtain ⟨x, hx, hkey⟩ := List.mem_map.mp hk
    exact hcell.fresh s' x (mem_level.mp hx).1 hkey
  have htail : ∀ x, (b.levels s o.price).tail = some x → x ∈ keys (level (A s) o.price) := by
    intro x hx
    rw [hqueue.tail] at hx
    exact List.mem_of_getLast? hx
  refine ⟨fun s' => ?_, fun s' => ?_, fun s' x hx => ?_, fun s' x hx => ?_, fun s' x hx => ?_, fun s' x hx => ?_,
    fun s' p' => ?_, ?_⟩
  · by_cases hs : s' = s
    · subst hs; rw [Function.update_self]; exact (hst.sorted s').enqueue o
    · rw [Function.update_of_ne hs]; exact hst.sorted s'
  · by_cases hs : s' = s
    · subst hs
      rw [Function.update_self]
      refine (((perm_enqueue s' o (A s')).map Resting.key).nodup_iff).mpr (List.nodup_cons.mpr ⟨?_, hst.nodup s'⟩)
      rintro hk
      obtain ⟨x, hx, hkey⟩ := List.mem_map.mp hk
      exact hcell.fresh s' x hx hkey
    · rw [Function.update_of_ne hs]; exact hst.nodup s'
  · rw [hj.data]
    obtain hx | ⟨rfl, rfl⟩ := mem_update_enqueue hx
    · exact hst.cells s' x hx
    · exact hcell.data
  · rw [hj.size]
    obtain hx | ⟨rfl, rfl⟩ := mem_update_enqueue hx
    · exact hst.lt s' x hx
    · exact hcell.lt
  · obtain hx | ⟨rfl, rfl⟩ := mem_update_enqueue hx
    · exact hst.pos s' x hx
    · exact hq
  · rw [hj.inRange]
    obtain hx | ⟨rfl, rfl⟩ := mem_update_enqueue hx
    · exact hst.range s' x hx
    · exact hrange
  · rw [hst.level_update_enqueue]
    split_ifs with hsp
    · obtain ⟨hs, hp⟩ := Prod.mk.inj hsp
      have hsplit : keys (level (A s) o.price ++ [o]) = keys (level (A s) o.price) ++ [o.key] := List.map_append ..
      rw [hs, hp, hj.levels, setAt_self, hsplit, hj.next, hj.prev]
      have hpush := hqueue.linked.push (hst.nodup_level s o.price) (hfresh _ _) hcell.next hcell.prev
      refine ⟨by rw [hqueue.tail]; exact hpush, ?_, by simp⟩
      simp only [hqueue.tail, hqueue.head]
      cases keys (level (A s) o.price) with
      | nil => rfl
      | cons y q => simp [List.getLast?_cons]
    · rw [hj.levels, setAt_of_ne hsp]
      refine hst.queue_congr (fun x hx => ⟨?_, ?_⟩) rfl rfl
      · rw [hj.next]
        exact relink_of_ne fun he => hst.not_mem_level (htail x he) hsp hx
      · rw [hj.prev, Function.update_of_ne]
        rintro rfl
        exact hfresh s' p' hx
  · obtain ⟨f, hf⟩ := hst.free
    refine ⟨f, ?_, hf.nodup, fun x hx => by rw [hj.size]; exact hf.lt x hx,
      fun x hx => by rw [hj.data]; exact hf.empty x hx⟩
    rw [hj.next, hj.freeHead]
    refine hf.chained.congr fun x hx => relink_of_ne fun he => ?_
    obtain ⟨-, -, hpos, -⟩ := hst.data_of_mem_level (htail x he)
    have := hf.empty x hx
    omega

end Queued

/-! ### The shares of the levels -/

namespace Stored

variable {b b' : OrderBook} {A : Side → List (Resting ℕ)} {s : Side} {o : Resting ℕ} {q : ℕ}

theorem drop (hst : Stored b A) (ho : o ∈ A s) (hd : Drops b b' s o.price o.key) :
    Stored b' (Function.update A s (remove o.key (A s))) := by
  obtain ⟨pre, post, hl, hrem⟩ := hst.exists_split_level ho
  have hlevel : level (Function.update A s (remove o.key (A s)) s) o.price = pre ++ post := by
    rw [Function.update_self, level_remove, hrem]
  have htotal := hst.totals s o.price
  have hbound := hst.bounded s o.price
  rw [hl, shares_append, shares_cons] at htotal hbound
  refine ⟨hst.toQueued.drop ho hd, fun s' p' => ?_, fun s' p' => ?_⟩
  · by_cases hsp : (s', p') = (s, o.price)
    · obtain ⟨hs, hp⟩ := Prod.mk.inj hsp
      rw [hs, hp, hlevel, hd.levels, setAt_self, hst.cells s o ho, htotal, shares_append]
      simp only
      omega
    · rw [hst.level_update_remove ho hsp, hd.levels, setAt_of_ne hsp]
      exact hst.totals s' p'
  · by_cases hsp : (s', p') = (s, o.price)
    · obtain ⟨hs, hp⟩ := Prod.mk.inj hsp
      rw [hs, hp, hlevel, shares_append]
      omega
    · rw [hst.level_update_remove ho hsp]
      exact hst.bounded s' p'

theorem resize (hst : Stored b A) (ho : o ∈ A s) (hq : 0 < q) (hle : q ≤ o.qty)
    (hr : Resizes b b' s o.price o.key q) : Stored b' (Function.update A s (resize o.key q (A s))) := by
  have hshares := hst.shares_level_resize ho q
  have htotal := hst.totals s o.price
  have hbound := hst.bounded s o.price
  refine ⟨hst.toQueued.resize ho hq hr, fun s' p' => ?_, fun s' p' => ?_⟩
  · by_cases hsp : (s', p') = (s, o.price)
    · obtain ⟨hs, hp⟩ := Prod.mk.inj hsp
      rw [hs, hp, hr.levels, setAt_self, hst.cells s o ho, Function.update_self, htotal]
      simp only
      omega
    · rw [hst.level_update_resize ho q hsp, hr.levels, setAt_of_ne hsp]
      exact hst.totals s' p'
  · by_cases hsp : (s', p') = (s, o.price)
    · obtain ⟨hs, hp⟩ := Prod.mk.inj hsp
      rw [hs, hp, Function.update_self]
      omega
    · rw [hst.level_update_resize ho q hsp]
      exact hst.bounded s' p'

theorem join (hst : Stored b A) (hcell : NewCell b A s o) (hq : 0 < o.qty) (hrange : b.InRange o.price)
    (hroom : shares (level (A s) o.price) + o.qty < 2 ^ 32) (hj : Joins b b' s o.price o.key o.qty) :
    Stored b' (Function.update A s (enqueue s o (A s))) := by
  have htotal := hst.totals s o.price
  refine ⟨hst.toQueued.join hcell hq hrange hj, fun s' p' => ?_, fun s' p' => ?_⟩
  · rw [hst.level_update_enqueue]
    split_ifs with hsp
    · obtain ⟨hs, hp⟩ := Prod.mk.inj hsp
      rw [hs, hp, hj.levels, setAt_self, htotal, shares_append, shares_cons, shares_nil]
      simp only
      omega
    · rw [hj.levels, setAt_of_ne hsp]
      exact hst.totals s' p'
  · rw [hst.level_update_enqueue]
    split_ifs with hsp
    · rw [shares_append, shares_cons, shares_nil]
      omega
    · exact hst.bounded s' p'

/-- Levels that stayed have the same shares. -/
theorem of_queued (hst : Stored b A) (hq : Queued b' A) (hlevels : b'.levels = b.levels) : Stored b' A :=
  ⟨hq, fun s p => by rw [hlevels]; exact hst.totals s p, hst.bounded⟩

end Stored

end OrderBook

end TickToTrade
