import TickToTrade.Lob.BookQueues
import TickToTrade.Protocol.Ouch50

/-!
# What a venue does, deed by deed

The abstract venue is a `Desk`: the resting orders, the client that each belongs to, and
the shares of clients' orders that are just arriving. Whatever a call of the venue does is
a list of `Deed`s. A deed says what happens to the orders (`Does`) and which messages are
sent about it (`Deed.oe`, `Deed.md`); it has no tables and no handles of its own, so what
holds of any list of deeds holds of any run of a venue that performs them.
-/

namespace TickToTrade

namespace Sim

/-- A tick as a price on the wire. -/
def wireOf (wirePerTick : ℕ) (tick : ℤ) : ℕ := u32 tick * wirePerTick % 2 ^ 32

/-- The abstract venue. -/
structure Desk (K : Type*) where
  orders : Sides K
  /-- The user reference of a client's resting order, by its order reference. -/
  owner : ℕ → Option ℕ
  /-- The shares of a client's arriving order that have neither traded nor come to rest,
  by its user reference. -/
  incoming : ℕ → ℕ

/-- How an order comes to rest: the tape's without a message. -/
inductive Coming where
  | added
  | replacing (origRef : ℕ)
  | quiet
deriving DecidableEq, Repr

/-- How an order leaves without a trade. -/
inductive Leaving where
  /-- By a client's wish or at the end of the day. -/
  | canceled (reason : Ouch.CancelReason)
  /-- A synthetic order. -/
  | deleted
  /-- An order of the tape. -/
  | quiet
deriving DecidableEq, Repr

/-- What a venue does. -/
inductive Deed (K : Type*) where
  /-- A client's new order is accepted. -/
  | accept (m : Ouch.Accepted)
  /-- A client's new order is accepted for its resting order `o`. -/
  | replace (s : Side) (o : Resting K) (m : Ouch.Replaced)
  | reject (m : Ouch.Rejected)
  | cancelReject (m : Ouch.CancelReject)
  /-- The resting order `o` trades `q` shares with an arriving one, of the client `agg` or
  of none. -/
  | hit (s : Side) (o : Resting K) (q : ℕ) (agg owner : Option ℕ) (matchNumber : ℕ)
  /-- A client's arriving order gives up the shares that it has left. -/
  | giveUp (user q : ℕ)
  | rest (s : Side) (o : Resting K) (owner : Option ℕ) (how : Coming)
  | leave (s : Side) (o : Resting K) (owner : Option ℕ) (how : Leaving)
  /-- The resting order `o` keeps `q` shares; a client is told. -/
  | shrink (s : Side) (o : Resting K) (q : ℕ) (owner : Option ℕ)
  /-- The market data alone has something to tell. -/
  | publish (m : Itch.Body)
  | clear

namespace Deed

variable {K : Type*}

/-- The answers to the clients. -/
def oe (wirePerTick : ℕ) : Deed K → List Ouch.Out
  | accept m => [.accepted m]
  | replace _ _ m => [.replaced m]
  | reject m => [.rejected m]
  | cancelReject m => [.cancelReject m]
  | hit _ o q agg owner n =>
      (agg.toList ++ owner.toList).map fun u => .executed ⟨u, q, wireOf wirePerTick o.price, n⟩
  | giveUp user q => [.canceled ⟨user, q, .ioc⟩]
  | leave _ o owner (.canceled r) => owner.toList.map fun u => .canceled ⟨u, o.qty, r⟩
  | shrink _ o q owner => owner.toList.map fun u => .canceled ⟨u, o.qty - q, .userRequested⟩
  | _ => []

/-- The market data. -/
def md (wirePerTick : ℕ) : Deed K → List Itch.Body
  | hit _ o q _ _ n => [.orderExecuted o.id q n]
  | rest s o _ .added => [.addOrder o.id s o.qty (wireOf wirePerTick o.price)]
  | rest _ o _ (.replacing orig) => [.orderReplace orig o.id o.qty (wireOf wirePerTick o.price)]
  | leave _ o _ (.canceled _) => [.orderDelete o.id]
  | leave _ o _ .deleted => [.orderDelete o.id]
  | shrink _ o q owner => owner.toList.map fun _ => .orderCancel o.id (o.qty - q)
  | publish m => [m]
  | _ => []

/-- The order that comes to rest, and whose it is. -/
def arrival? : Deed K → Option (ℕ × Option ℕ)
  | rest _ o owner _ => some (o.id, owner)
  | _ => none

/-- The client's order that is accepted, by its user reference and its order reference. -/
def accepted? : Deed K → Option (ℕ × ℕ)
  | accept m => some (m.userRefNum, m.orderReferenceNumber)
  | replace _ _ m => some (m.userRefNum, m.orderReferenceNumber)
  | _ => none

/-- The client's order that leaves for a new one, by its user reference and its shares. -/
def removed? : Deed K → Option (ℕ × ℕ)
  | replace _ o m => some (m.origUserRefNum, o.qty)
  | _ => none

/-- Nothing arrives or comes to rest. -/
def Calm : Deed K → Prop
  | accept _ => False
  | replace .. => False
  | rest .. => False
  | _ => True

end Deed

namespace Desk

variable {K : Type*} [DecidableEq K]

/-- A client's order arrives. -/
def arrive (d : Desk K) (user q : ℕ) : Desk K :=
  { d with incoming := Function.update d.incoming user (d.incoming user + q) }

/-- An arriving order, of a client or not, has traded. -/
def spend (d : Desk K) (agg : Option ℕ) (q : ℕ) : Desk K :=
  match agg with
  | some u => { d with incoming := Function.update d.incoming u (d.incoming u - q) }
  | none => d

/-- An order leaves. -/
def leave (d : Desk K) (s : Side) (o : Resting K) : Desk K :=
  { d with orders := d.orders.without s o.key, owner := Function.update d.owner o.id none }

/-- An order keeps `q` shares. -/
def shrink (d : Desk K) (s : Side) (o : Resting K) (q : ℕ) : Desk K :=
  { d with orders := d.orders.resized s o.key q }

/-- An order loses shares, and leaves without any. -/
def lose (d : Desk K) (s : Side) (o : Resting K) (q : ℕ) : Desk K :=
  if q = o.qty then d.leave s o else d.shrink s o (o.qty - q)

/-- An order comes to rest. -/
def rest (d : Desk K) (s : Side) (o : Resting K) (owner : Option ℕ) : Desk K :=
  let d := match owner with
    | some u => { d with incoming := Function.update d.incoming u 0 }
    | none => d
  { d with orders := d.orders.rested s o, owner := Function.update d.owner o.id owner }

section

variable (d : Desk K) (s : Side) (o : Resting K) (owner agg : Option ℕ) (q : ℕ)

omit [DecidableEq K] in
@[simp] theorem orders_spend : (d.spend agg q).orders = d.orders := by cases agg <;> rfl

omit [DecidableEq K] in
@[simp] theorem owner_spend : (d.spend agg q).owner = d.owner := by cases agg <;> rfl

omit [DecidableEq K] in
@[simp] theorem orders_rest : (d.rest s o owner).orders = d.orders.rested s o := by cases owner <;> rfl

omit [DecidableEq K] in
@[simp] theorem owner_rest : (d.rest s o owner).owner = Function.update d.owner o.id owner := by cases owner <;> rfl

theorem owner_lose_of_none {d : Desk K} {ref : ℕ} (h : d.owner ref = none) (s : Side) (o : Resting K) (q : ℕ) :
    (d.lose s o q).owner ref = none := by
  unfold lose leave shrink
  split_ifs
  · by_cases hr : ref = o.id
    · simp [hr]
    · simpa [hr] using h
  · exact h

@[simp] theorem incoming_lose : (d.lose s o q).incoming = d.incoming := by
  unfold lose
  split_ifs <;> rfl

@[simp] theorem orders_lose : (d.lose s o q).orders = d.orders.less s o q := by
  unfold lose Sides.less
  split_ifs <;> rfl

end

/-- A client has nothing under the user reference. -/
def Idle (d : Desk K) (user : ℕ) : Prop := (∀ ref, d.owner ref ≠ some user) ∧ d.incoming user = 0

/-- What a deed does to the orders, and when it can be done. -/
def Does (d : Desk K) : Deed K → Desk K → Prop
  | .accept m, d' => d.Idle m.userRefNum ∧ d' = d.arrive m.userRefNum m.quantity
  | .replace s o m, d' =>
      o ∈ d.orders s ∧ d.owner o.id = some m.origUserRefNum ∧ d.Idle m.userRefNum ∧
        d' = (d.leave s o).arrive m.userRefNum m.quantity
  | .hit s o q agg owner _, d' =>
      o ∈ d.orders s ∧ 0 < q ∧ q ≤ o.qty ∧ owner = d.owner o.id ∧ (∀ u, agg = some u → q ≤ d.incoming u) ∧
        d' = (d.spend agg q).lose s o q
  | .giveUp user q, d' =>
      0 < q ∧ d.incoming user = q ∧ d' = { d with incoming := Function.update d.incoming user 0 }
  | .rest s o owner _, d' =>
      0 < o.qty ∧ (∀ s', ∀ x ∈ d.orders s', x.key ≠ o.key) ∧ d.owner o.id = none ∧
        (∀ u, owner = some u →
          d.incoming u = o.qty ∧ (∀ ref, d.owner ref ≠ some u) ∧ ∀ s', ∀ x ∈ d.orders s', x.id ≠ o.id) ∧
        d' = d.rest s o owner
  | .leave s o owner how, d' =>
      o ∈ d.orders s ∧ owner = d.owner o.id ∧ (how = .deleted ∨ how = .quiet → owner = none) ∧ d' = d.leave s o
  | .shrink s o q owner, d' => o ∈ d.orders s ∧ 0 < q ∧ q < o.qty ∧ owner = d.owner o.id ∧ d' = d.shrink s o q
  | .clear, d' => (∀ ref, d.owner ref = none) ∧ d' = { d with orders := fun _ => [] }
  | _, d' => d' = d

/-- What a list of deeds does. -/
def DoesAll (d : Desk K) : List (Deed K) → Desk K → Prop
  | [], d' => d' = d
  | x :: xs, d' => ∃ d₁, d.Does x d₁ ∧ DoesAll d₁ xs d'

theorem DoesAll.append {d d' d'' : Desk K} {xs ys : List (Deed K)} (h : d.DoesAll xs d') (h' : d'.DoesAll ys d'') :
    d.DoesAll (xs ++ ys) d'' := by
  induction xs generalizing d with
  | nil => cases h; exact h'
  | cons x xs ih =>
      obtain ⟨d₁, hx, hxs⟩ := h
      exact ⟨d₁, hx, ih hxs⟩

theorem doesAll_one {d d' : Desk K} {x : Deed K} (h : d.Does x d') : d.DoesAll [x] d' := ⟨d', h, rfl⟩

/-- What every deed keeps: keys belong to one order each, and a client's order rests, alone
under its reference, with a user reference of its own. -/
structure Sound (d : Desk K) : Prop where
  distinct : d.orders.Distinct
  pos : ∀ s, ∀ o ∈ d.orders s, 0 < o.qty
  owned : ∀ ref u, d.owner ref = some u → ∃ s, ∃ o ∈ d.orders s, o.id = ref
  alone : ∀ s o s' o', o ∈ d.orders s → o' ∈ d.orders s' → o.id = o'.id → d.owner o.id ≠ none → o.key = o'.key
  single : ∀ ref ref' u, d.owner ref = some u → d.owner ref' = some u → ref = ref'

namespace Sound

variable {d d' : Desk K} {s : Side} {o : Resting K} {q : ℕ}

omit [DecidableEq K] in
/-- The orders and their owners alone matter. -/
theorem congr (h : d.Sound) (horders : d'.orders = d.orders) (howner : d'.owner = d.owner) : d'.Sound := by
  obtain ⟨o', w', i'⟩ := d'
  obtain rfl : o' = d.orders := horders
  obtain rfl : w' = d.owner := howner
  exact ⟨h.distinct, h.pos, h.owned, h.alone, h.single⟩

theorem leave (h : d.Sound) (ho : o ∈ d.orders s) : (d.leave s o).Sound where
  distinct := h.distinct.without ho
  pos s' x hx := h.pos s' x ((Sides.mem_without h.distinct ho).mp hx).1
  owned ref u hu := by
    unfold Desk.leave at hu ⊢
    by_cases hr : ref = o.id
    · simp [hr] at hu
    · simp only [Function.update_of_ne hr] at hu
      obtain ⟨s', x, hx, rfl⟩ := h.owned ref u hu
      refine ⟨s', x, (Sides.mem_without h.distinct ho).mpr ⟨hx, fun hk => hr ?_⟩, rfl⟩
      rw [(h.distinct hx ho hk).2]
  alone s₁ x s₂ y hx hy hid hown := by
    have hx := ((Sides.mem_without h.distinct ho).mp hx).1
    have hy := ((Sides.mem_without h.distinct ho).mp hy).1
    refine h.alone s₁ x s₂ y hx hy hid fun hnone => hown ?_
    unfold Desk.leave
    by_cases hr : x.id = o.id
    · simp [hr]
    · simpa only [Function.update_of_ne hr] using hnone
  single ref ref' u hr hr' := by
    unfold Desk.leave at hr hr'
    have hof : ∀ r, Function.update d.owner o.id none r = some u → d.owner r = some u := by
      intro r hu
      by_cases he : r = o.id
      · simp [he] at hu
      · rwa [Function.update_of_ne he] at hu
    exact h.single ref ref' u (hof _ hr) (hof _ hr')

theorem shrink (h : d.Sound) (ho : o ∈ d.orders s) (hq : 0 < q) : (d.shrink s o q).Sound where
  distinct := h.distinct.resized ho
  pos s' x hx := by
    obtain ⟨hx, -⟩ | ⟨rfl, rfl⟩ := (Sides.mem_resized h.distinct ho).mp hx
    · exact h.pos s' x hx
    · exact hq
  owned ref u hu := by
    obtain ⟨s', x, hx, rfl⟩ := h.owned ref u hu
    by_cases hk : x.key = o.key
    · obtain ⟨rfl, rfl⟩ := h.distinct hx ho hk
      exact ⟨s', _, (Sides.mem_resized h.distinct ho).mpr (.inr ⟨rfl, rfl⟩), rfl⟩
    · exact ⟨s', x, (Sides.mem_resized h.distinct ho).mpr (.inl ⟨hx, hk⟩), rfl⟩
  alone s₁ x s₂ y hx hy hid hown := by
    have hof : ∀ {s₁ x}, x ∈ (d.shrink s o q).orders s₁ → ∃ z ∈ d.orders s₁, z.id = x.id ∧ z.key = x.key := by
      intro s₁ x hx
      obtain ⟨hx, -⟩ | ⟨rfl, rfl⟩ := (Sides.mem_resized h.distinct ho).mp hx
      · exact ⟨x, hx, rfl, rfl⟩
      · exact ⟨o, ho, rfl, rfl⟩
    obtain ⟨x', hx', hxi, hxk⟩ := hof hx
    obtain ⟨y', hy', hyi, hyk⟩ := hof hy
    rw [← hxk, ← hyk]
    exact h.alone s₁ x' s₂ y' hx' hy' (by rw [hxi, hyi, hid]) (by rw [hxi]; exact hown)
  single := h.single

theorem lose (h : d.Sound) (ho : o ∈ d.orders s) (hle : q ≤ o.qty) : (d.lose s o q).Sound := by
  unfold Desk.lose
  split_ifs with he
  · exact h.leave ho
  · exact h.shrink ho (by omega)

omit [DecidableEq K] in
theorem rest (h : d.Sound) {owner : Option ℕ} (hq : 0 < o.qty) (hkey : ∀ s', ∀ x ∈ d.orders s', x.key ≠ o.key)
    (hnone : d.owner o.id = none)
    (hclient : ∀ u, owner = some u → (∀ ref, d.owner ref ≠ some u) ∧ ∀ s', ∀ x ∈ d.orders s', x.id ≠ o.id) :
    (d.rest s o owner).Sound := by
  have hmem : ∀ {s' x}, x ∈ (d.rest s o owner).orders s' ↔ x ∈ d.orders s' ∨ (s' = s ∧ x = o) := by
    intro s' x
    rw [orders_rest, Sides.mem_rested_iff]
  refine ⟨?_, fun s' x hx => ?_, fun ref u hu => ?_, fun s₁ x s₂ y hx hy hid hown => ?_, fun ref ref' u hr hr' => ?_⟩
  · rw [orders_rest]; exact h.distinct.rested hkey
  · obtain hx | ⟨rfl, rfl⟩ := hmem.mp hx
    · exact h.pos s' x hx
    · exact hq
  · rw [owner_rest] at hu
    by_cases he : ref = o.id
    · exact ⟨s, o, hmem.mpr (.inr ⟨rfl, rfl⟩), he.symm⟩
    · rw [Function.update_of_ne he] at hu
      obtain ⟨s', x, hx, hid⟩ := h.owned ref u hu
      exact ⟨s', x, hmem.mpr (.inl hx), hid⟩
  · rw [owner_rest] at hown
    have hself : ∀ {s' z}, z ∈ d.orders s' → z.id = o.id → Function.update d.owner o.id owner o.id ≠ none → False := by
      intro s' z hz hzo hown'
      rw [Function.update_self] at hown'
      cases owner with
      | none => exact hown' rfl
      | some u => exact (hclient u rfl).2 s' z hz hzo
    by_cases he : x.id = o.id
    · rw [he] at hown
      have honly : ∀ {s' z}, z ∈ (d.rest s o owner).orders s' → z.id = o.id → z = o := fun hz hzo =>
        (hmem.mp hz).elim (fun hz => (hself hz hzo hown).elim) fun hz => hz.2
      rw [honly hx he, honly hy (hid.symm.trans he)]
    · rw [Function.update_of_ne he] at hown
      have hold : ∀ {s' z}, z ∈ (d.rest s o owner).orders s' → z.id = x.id → z ∈ d.orders s' := fun hz hzx =>
        (hmem.mp hz).elim id fun hz => absurd (hzx.symm.trans (congrArg _ hz.2)) he
      exact h.alone s₁ x s₂ y (hold hx rfl) (hold hy hid.symm) hid hown
  · rw [owner_rest] at hr hr'
    by_cases he : ref = o.id
    · by_cases he' : ref' = o.id
      · rw [he, he']
      · rw [he, Function.update_self] at hr
        rw [Function.update_of_ne he'] at hr'
        exact absurd hr' ((hclient u hr).1 ref')
    · rw [Function.update_of_ne he] at hr
      by_cases he' : ref' = o.id
      · rw [he', Function.update_self] at hr'
        exact absurd hr ((hclient u hr').1 ref)
      · rw [Function.update_of_ne he'] at hr'
        exact h.single ref ref' u hr hr'

theorem does (h : d.Sound) {x : Deed K} (hx : d.Does x d') : d'.Sound := by
  cases x with
  | accept m => obtain ⟨-, rfl⟩ := hx; exact h.congr rfl rfl
  | replace s o m =>
      obtain ⟨ho, -, -, rfl⟩ := hx
      exact Sound.congr (d := d.leave s o) (h.leave ho) rfl rfl
  | reject m => cases hx; exact h
  | cancelReject m => cases hx; exact h
  | hit s o q agg owner n =>
      obtain ⟨ho, -, hle, -, -, rfl⟩ := hx
      cases agg with
      | none => exact h.lose ho hle
      | some u => exact Sound.lose (d := d.spend (some u) q) (h.congr rfl rfl) ho hle
  | giveUp user q => obtain ⟨-, -, rfl⟩ := hx; exact h.congr rfl rfl
  | rest s o owner how =>
      obtain ⟨hq, hkey, hnone, hclient, rfl⟩ := hx
      exact h.rest hq hkey hnone fun u hu => (hclient u hu).2
  | leave s o owner how => obtain ⟨ho, -, -, rfl⟩ := hx; exact h.leave ho
  | shrink s o q owner => obtain ⟨ho, hq, -, -, rfl⟩ := hx; exact h.shrink ho hq
  | publish m => cases hx; exact h
  | clear =>
      obtain ⟨hnone, rfl⟩ := hx
      refine ⟨fun _ _ _ _ hx => (nomatch hx), fun s x hx => (nomatch hx), fun ref u hu => ?_,
        fun _ _ _ _ hx => (nomatch hx), fun ref ref' u hr => ?_⟩
      · rw [hnone ref] at hu; cases hu
      · rw [hnone ref] at hr; cases hr

theorem doesAll (h : d.Sound) {xs : List (Deed K)} (hxs : d.DoesAll xs d') : d'.Sound := by
  induction xs generalizing d with
  | nil => cases hxs; exact h
  | cons x xs ih =>
      obtain ⟨d₁, hx, hxs⟩ := hxs
      exact ih (h.does hx) hxs

end Sound

/-! ### Where orders come from -/

/-- An order was there before the deed, or has come to rest with it. -/
theorem Does.mem {d d' : Desk K} {x : Deed K} {s : Side} {o : Resting K} (h : d.Does x d') (hd : d.Sound)
    (ho : o ∈ d'.orders s) : (∃ o₀ ∈ d.orders s, o₀.id = o.id) ∨ ∃ c, x.arrival? = some (o.id, c) := by
  cases x with
  | accept m => obtain ⟨-, rfl⟩ := h; exact .inl ⟨o, ho, rfl⟩
  | replace s' o' m =>
      obtain ⟨ho', -, -, rfl⟩ := h
      exact .inl ⟨o, ((Sides.mem_without hd.distinct ho').mp ho).1, rfl⟩
  | reject m => cases h; exact .inl ⟨o, ho, rfl⟩
  | cancelReject m => cases h; exact .inl ⟨o, ho, rfl⟩
  | hit s' o' q agg owner n =>
      obtain ⟨ho', -, -, -, -, rfl⟩ := h
      rw [orders_lose, orders_spend] at ho
      obtain ⟨y, hy, -, hid, -⟩ := Sides.mem_less hd.distinct ho' ho
      exact .inl ⟨y, hy, hid⟩
  | giveUp user q => obtain ⟨-, -, rfl⟩ := h; exact .inl ⟨o, ho, rfl⟩
  | rest s' o' owner how =>
      obtain ⟨-, -, -, -, rfl⟩ := h
      rw [orders_rest] at ho
      obtain ho | ⟨-, rfl⟩ := Sides.mem_rested ho
      · exact .inl ⟨o, ho, rfl⟩
      · exact .inr ⟨owner, rfl⟩
  | leave s' o' owner how =>
      obtain ⟨ho', -, -, rfl⟩ := h
      exact .inl ⟨o, ((Sides.mem_without hd.distinct ho').mp ho).1, rfl⟩
  | shrink s' o' q owner =>
      obtain ⟨ho', -, -, -, rfl⟩ := h
      obtain ⟨ho, -⟩ | ⟨rfl, rfl⟩ := (Sides.mem_resized hd.distinct ho').mp ho
      · exact .inl ⟨o, ho, rfl⟩
      · exact .inl ⟨o', ho', rfl⟩
  | publish m => cases h; exact .inl ⟨o, ho, rfl⟩
  | clear => obtain ⟨-, rfl⟩ := h; exact nomatch ho

/-- A client had its order before the deed, or has it come to rest with it. -/
theorem Does.owner_eq {d d' : Desk K} {x : Deed K} {ref u : ℕ} (h : d.Does x d') (hu : d'.owner ref = some u) :
    d.owner ref = some u ∨ x.arrival? = some (ref, some u) := by
  have herased : ∀ {r : ℕ}, Function.update d.owner r none ref = some u → d.owner ref = some u := by
    intro r hr
    by_cases he : ref = r
    · rw [he, Function.update_self] at hr; cases hr
    · rwa [Function.update_of_ne he] at hr
  cases x with
  | accept m => obtain ⟨-, rfl⟩ := h; exact .inl hu
  | replace s' o' m => obtain ⟨-, -, -, rfl⟩ := h; exact .inl (herased hu)
  | reject m => cases h; exact .inl hu
  | cancelReject m => cases h; exact .inl hu
  | hit s' o' q agg owner n =>
      obtain ⟨-, -, -, -, -, rfl⟩ := h
      unfold lose at hu
      split_ifs at hu
      · refine .inl (herased (r := o'.id) ?_)
        rw [← owner_spend d agg q]
        exact hu
      · rw [← owner_spend d agg q]
        exact .inl hu
  | giveUp user q => obtain ⟨-, -, rfl⟩ := h; exact .inl hu
  | rest s' o' owner how =>
      obtain ⟨-, -, -, -, rfl⟩ := h
      rw [owner_rest] at hu
      by_cases he : ref = o'.id
      · rw [he, Function.update_self] at hu
        exact .inr (by rw [he, ← hu]; rfl)
      · rw [Function.update_of_ne he] at hu
        exact .inl hu
  | leave s' o' owner how => obtain ⟨-, -, -, rfl⟩ := h; exact .inl (herased hu)
  | shrink s' o' q owner => obtain ⟨-, -, -, -, rfl⟩ := h; exact .inl hu
  | publish m => cases h; exact .inl hu
  | clear => obtain ⟨-, rfl⟩ := h; exact .inl hu

/-- The orders that come to rest. -/
def arrivals (xs : List (Deed K)) : List (ℕ × Option ℕ) := xs.filterMap Deed.arrival?

/-- The clients' orders that are accepted. -/
def acceptances (xs : List (Deed K)) : List (ℕ × ℕ) := xs.filterMap Deed.accepted?

/-- The clients' orders that leave for new ones. -/
def departures (xs : List (Deed K)) : List (ℕ × ℕ) := xs.filterMap Deed.removed?

omit [DecidableEq K] in
@[simp] theorem departures_append (xs ys : List (Deed K)) : departures (xs ++ ys) = departures xs ++ departures ys :=
  List.filterMap_append

omit [DecidableEq K] in
/-- An order leaves for another one only when that one is accepted. -/
theorem departures_of_acceptances {xs : List (Deed K)} (h : acceptances xs = []) : departures xs = [] := by
  refine List.filterMap_eq_nil_iff.mpr fun x hx => ?_
  have := List.filterMap_eq_nil_iff.mp h x hx
  cases x <;> first | rfl | cases this

omit [DecidableEq K] in
@[simp] theorem arrivals_append (xs ys : List (Deed K)) : arrivals (xs ++ ys) = arrivals xs ++ arrivals ys :=
  List.filterMap_append

omit [DecidableEq K] in
@[simp] theorem acceptances_append (xs ys : List (Deed K)) :
    acceptances (xs ++ ys) = acceptances xs ++ acceptances ys :=
  List.filterMap_append

omit [DecidableEq K] in
theorem acceptances_calm {xs : List (Deed K)} (h : ∀ x ∈ xs, x.Calm) : acceptances xs = [] := by
  refine List.filterMap_eq_nil_iff.mpr fun x hx => ?_
  have := h x hx
  cases x <;> first | rfl | exact this.elim

omit [DecidableEq K] in
theorem arrivals_calm {xs : List (Deed K)} (h : ∀ x ∈ xs, x.Calm) : arrivals xs = [] := by
  refine List.filterMap_eq_nil_iff.mpr fun x hx => ?_
  have := h x hx
  cases x <;> first | rfl | exact this.elim

theorem DoesAll.mem {d d' : Desk K} {xs : List (Deed K)} {s : Side} {o : Resting K} (h : d.DoesAll xs d') (hd : d.Sound)
    (ho : o ∈ d'.orders s) : (∃ o₀ ∈ d.orders s, o₀.id = o.id) ∨ ∃ c, (o.id, c) ∈ arrivals xs := by
  induction xs generalizing d with
  | nil => cases h; exact .inl ⟨o, ho, rfl⟩
  | cons x xs ih =>
      obtain ⟨d₁, hx, hxs⟩ := h
      obtain ⟨o₁, ho₁, hid⟩ | ⟨c, hc⟩ := ih hxs (hd.does hx)
      · obtain ⟨o₀, ho₀, hid₀⟩ | ⟨c, hc⟩ := hx.mem hd ho₁
        · exact .inl ⟨o₀, ho₀, hid₀.trans hid⟩
        · exact .inr ⟨c, List.mem_filterMap.mpr ⟨x, List.mem_cons_self, by rw [← hid]; exact hc⟩⟩
      · obtain ⟨y, hy, he⟩ := List.mem_filterMap.mp hc
        exact .inr ⟨c, List.mem_filterMap.mpr ⟨y, List.mem_cons_of_mem _ hy, he⟩⟩

theorem DoesAll.owner_eq {d d' : Desk K} {xs : List (Deed K)} {ref u : ℕ} (h : d.DoesAll xs d')
    (hu : d'.owner ref = some u) : d.owner ref = some u ∨ (ref, some u) ∈ arrivals xs := by
  induction xs generalizing d with
  | nil => cases h; exact .inl hu
  | cons x xs ih =>
      obtain ⟨d₁, hx, hxs⟩ := h
      obtain hu₁ | hmem := ih hxs
      · obtain hu₀ | he := hx.owner_eq hu₁
        · exact .inl hu₀
        · exact .inr (List.mem_filterMap.mpr ⟨x, List.mem_cons_self, he⟩)
      · obtain ⟨y, hy, he⟩ := List.mem_filterMap.mp hmem
        exact .inr (List.mem_filterMap.mpr ⟨y, List.mem_cons_of_mem _ hy, he⟩)

/-- The shares of a client's resting order. -/
def Holds (d : Desk K) (user q : ℕ) : Prop :=
  (∃ s, ∃ o ∈ d.orders s, d.owner o.id = some user ∧ o.qty = q) ∨ (∀ ref, d.owner ref ≠ some user) ∧ q = 0

omit [DecidableEq K] in
theorem Sound.holds (h : Sound d) (user : ℕ) : ∃ q, d.Holds user q := by
  by_cases hu : ∃ ref, d.owner ref = some user
  · obtain ⟨ref, hu⟩ := hu
    obtain ⟨s, o, ho, rfl⟩ := h.owned ref user hu
    exact ⟨o.qty, .inl ⟨s, o, ho, hu, rfl⟩⟩
  · exact ⟨0, .inr ⟨fun ref hr => hu ⟨ref, hr⟩, rfl⟩⟩

omit [DecidableEq K] in
theorem Holds.eq {d : Desk K} {user q : ℕ} {s : Side} {o : Resting K} (h : d.Holds user q) (hd : d.Sound)
    (ho : o ∈ d.orders s) (hu : d.owner o.id = some user) : o.qty = q := by
  obtain ⟨s', o', ho', hu', rfl⟩ | ⟨hnone, -⟩ := h
  · have hid := hd.single _ _ _ hu hu'
    have hk := hd.alone s o s' o' ho ho' hid (by simp [hu])
    rw [(hd.distinct ho ho' hk).2]
  · exact absurd hu (hnone o.id)

/-- A client's order that rests is not arriving any more. -/
def Still (d : Desk K) : Prop := ∀ ref u, d.owner ref = some u → d.incoming u = 0

theorem Does.still {d d' : Desk K} {x : Deed K} (h : d.Does x d') (hd : d.Still) : d'.Still := by
  have harrive : ∀ {user q}, d.Idle user → (d.arrive user q).Still := by
    intro user q hidle ref u hu
    have hne : u ≠ user := fun he => hidle.1 ref (he ▸ hu)
    unfold arrive
    simpa only [Function.update_of_ne hne] using hd ref u hu
  have hleft : ∀ r ref u, Function.update d.owner r none ref = some u → d.incoming u = 0 := by
    intro r ref u hu
    by_cases he : ref = r
    · rw [he, Function.update_self] at hu; cases hu
    · rw [Function.update_of_ne he] at hu
      exact hd ref u hu
  cases x with
  | accept m => obtain ⟨hidle, rfl⟩ := h; exact harrive hidle
  | replace s o m =>
      obtain ⟨-, -, hidle, rfl⟩ := h
      intro ref u hu
      have hne : u ≠ m.userRefNum := by
        rintro rfl
        have hu : Function.update d.owner o.id none ref = some m.userRefNum := hu
        by_cases he : ref = o.id
        · rw [he, Function.update_self] at hu; cases hu
        · rw [Function.update_of_ne he] at hu
          exact hidle.1 ref hu
      exact (Function.update_of_ne hne ..).trans (hleft o.id ref u hu)
  | reject m => cases h; exact hd
  | cancelReject m => cases h; exact hd
  | hit s o q agg owner n =>
      obtain ⟨-, -, -, -, -, rfl⟩ := h
      intro ref u hu
      rw [incoming_lose]
      have hu₀ : d.incoming u = 0 := by
        unfold lose at hu
        split_ifs at hu
        · refine hleft o.id ref u ?_
          rw [← owner_spend d agg q]
          exact hu
        · refine hd ref u ?_
          rw [← owner_spend d agg q]
          exact hu
      cases agg with
      | none => exact hu₀
      | some a =>
          by_cases ha : u = a
          · subst ha
            refine (Function.update_self ..).trans ?_
            rw [hu₀, Nat.zero_sub]
          · exact (Function.update_of_ne ha ..).trans hu₀
  | giveUp user q =>
      obtain ⟨-, -, rfl⟩ := h
      intro ref u hu
      by_cases ha : u = user
      · rw [ha]; exact Function.update_self ..
      · simpa only [Function.update_of_ne ha] using hd ref u hu
  | rest s o owner how =>
      obtain ⟨-, -, -, -, rfl⟩ := h
      intro ref u hu
      rw [owner_rest] at hu
      by_cases he : ref = o.id
      · rw [he, Function.update_self] at hu
        rw [hu]
        exact Function.update_self ..
      · rw [Function.update_of_ne he] at hu
        cases owner with
        | none => exact hd ref u hu
        | some a =>
            by_cases ha : u = a
            · rw [ha]; exact Function.update_self ..
            · exact (Function.update_of_ne ha ..).trans (hd ref u hu)
  | leave s o owner how => obtain ⟨-, -, -, rfl⟩ := h; exact fun ref u hu => hleft o.id ref u hu
  | shrink s o q owner => obtain ⟨-, -, -, -, rfl⟩ := h; exact hd
  | publish m => cases h; exact hd
  | clear => obtain ⟨-, rfl⟩ := h; exact hd

theorem DoesAll.still {d d' : Desk K} {xs : List (Deed K)} (h : d.DoesAll xs d') (hd : d.Still) : d'.Still := by
  induction xs generalizing d with
  | nil => cases h; exact hd
  | cons x xs ih =>
      obtain ⟨d₁, hx, hxs⟩ := h
      exact ih hxs (hx.still hd)

/-- The orders under the reference are the client's. -/
def Owned (d : Desk K) (ref user : ℕ) : Prop := ∀ s, ∀ o ∈ d.orders s, o.id = ref → d.owner ref = some user

theorem Does.owned {d d' : Desk K} {x : Deed K} {ref user : ℕ} (h : d.Does x d') (hd : d.Sound) (ho : d.Owned ref user)
    (harr : ∀ c, x.arrival? = some (ref, c) → c = some user) : d'.Owned ref user := by
  -- an order that leaves alone had the reference of a client to itself
  have hleave : ∀ {s o}, o ∈ d.orders s → ∀ s', ∀ y ∈ (d.leave s o).orders s', y.id = ref →
      (d.leave s o).owner ref = some user := by
    intro s o hmem s' y hy hid
    obtain ⟨hy, hk⟩ := (Sides.mem_without hd.distinct hmem).mp hy
    have hu := ho s' y hy hid
    have hne : ref ≠ o.id := fun he => by
      refine hk (hd.alone s' y s o hy hmem (hid.trans he) ?_)
      rw [hid, hu]
      simp
    unfold leave
    simpa only [Function.update_of_ne hne] using hu
  have hshrink : ∀ {s o q}, o ∈ d.orders s → ∀ s', ∀ y ∈ (d.shrink s o q).orders s', y.id = ref →
      d.owner ref = some user := by
    intro s o q hmem s' y hy hid
    obtain ⟨hy, -⟩ | ⟨rfl, rfl⟩ := (Sides.mem_resized hd.distinct hmem).mp hy
    · exact ho s' y hy hid
    · exact ho s' o hmem hid
  cases x with
  | accept m => obtain ⟨-, rfl⟩ := h; exact ho
  | replace s o m => obtain ⟨hmem, -, -, rfl⟩ := h; exact hleave hmem
  | reject m => cases h; exact ho
  | cancelReject m => cases h; exact ho
  | hit s o q agg owner n =>
      obtain ⟨hmem, -, -, -, -, rfl⟩ := h
      intro s' y hy hid
      have hlose : (d.lose s o q).owner = ((d.spend agg q).lose s o q).owner := by
        unfold lose
        cases agg <;> split_ifs <;> rfl
      rw [orders_lose, orders_spend, ← orders_lose] at hy
      rw [← hlose]
      unfold lose at hy ⊢
      split_ifs at hy ⊢
      · exact hleave hmem s' y hy hid
      · exact hshrink hmem s' y hy hid
  | giveUp user q => obtain ⟨-, -, rfl⟩ := h; exact ho
  | rest s o owner how =>
      obtain ⟨-, -, hnone, -, rfl⟩ := h
      intro s' y hy hid
      rw [orders_rest] at hy
      rw [owner_rest]
      by_cases he : ref = o.id
      · rw [he, Function.update_self]
        exact harr owner (by rw [he]; rfl)
      · rw [Function.update_of_ne he]
        obtain hy | ⟨-, rfl⟩ := Sides.mem_rested hy
        · exact ho s' y hy hid
        · exact absurd hid.symm he
  | leave s o owner how => obtain ⟨hmem, -, -, rfl⟩ := h; exact hleave hmem
  | shrink s o q owner => obtain ⟨hmem, -, -, -, rfl⟩ := h; exact hshrink hmem
  | publish m => cases h; exact ho
  | clear => obtain ⟨-, rfl⟩ := h; exact fun s y hy => nomatch hy

theorem DoesAll.owned {d d' : Desk K} {xs : List (Deed K)} {ref user : ℕ} (h : d.DoesAll xs d') (hd : d.Sound)
    (ho : d.Owned ref user) (harr : ∀ c, (ref, c) ∈ arrivals xs → c = some user) : d'.Owned ref user := by
  induction xs generalizing d with
  | nil => cases h; exact ho
  | cons x xs ih =>
      obtain ⟨d₁, hx, hxs⟩ := h
      refine ih hxs (hd.does hx) (hx.owned hd ho fun c hc => harr c ?_) fun c hc => harr c ?_
      · exact List.mem_filterMap.mpr ⟨x, List.mem_cons_self, hc⟩
      · obtain ⟨y, hy, he⟩ := List.mem_filterMap.mp hc
        exact List.mem_filterMap.mpr ⟨y, List.mem_cons_of_mem _ hy, he⟩

/-- The clients' orders that the answers accept, by user reference and order reference. -/
def answered (oe : List Ouch.Out) : List (ℕ × ℕ) :=
  oe.filterMap fun
    | .accepted m => some (m.userRefNum, m.orderReferenceNumber)
    | .replaced m => some (m.userRefNum, m.orderReferenceNumber)
    | _ => none

omit [DecidableEq K] in
theorem answered_oe (wirePerTick : ℕ) (xs : List (Deed K)) :
    answered (xs.flatMap (Deed.oe wirePerTick)) = acceptances xs := by
  induction xs with
  | nil => rfl
  | cons x xs ih =>
      have hhead : answered (x.oe wirePerTick) = (x.accepted?).toList := by
        cases x with
        | hit s o q agg owner n => cases agg <;> cases owner <;> rfl
        | leave s o owner how => cases how <;> cases owner <;> rfl
        | shrink s o q owner => cases owner <;> rfl
        | _ => rfl
      rw [List.flatMap_cons, answered, List.filterMap_append]
      change answered _ ++ answered _ = _
      rw [hhead, ih, acceptances, acceptances, List.filterMap_cons]
      cases x.accepted? <;> rfl

end Desk

end Sim

end TickToTrade
