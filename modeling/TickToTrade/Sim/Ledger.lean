import TickToTrade.Sim.Desk

/-!
# The shares of a client's order

The answers to the clients are a ledger: what was accepted under a user reference, what of
it was executed and what was cancelled. Whatever a desk does, the ledger balances
(`Balanced`), and no order is executed or cancelled for more than it has left (`Fits`).
-/

namespace TickToTrade.Sim

/-! ### Reading the answers -/

/-- The sum of what each answer counts. -/
def total (f : Ouch.Out → ℕ) (oe : List Ouch.Out) : ℕ := (oe.map f).sum

@[simp] theorem total_nil (f : Ouch.Out → ℕ) : total f [] = 0 := rfl

@[simp] theorem total_cons (f : Ouch.Out → ℕ) (m : Ouch.Out) (oe : List Ouch.Out) :
    total f (m :: oe) = f m + total f oe :=
  List.sum_cons

@[simp] theorem total_append (f : Ouch.Out → ℕ) (oe oe' : List Ouch.Out) :
    total f (oe ++ oe') = total f oe + total f oe' := by
  simp [total]

/-- The shares that an answer accepts for a user reference. -/
def accepts (user : ℕ) : Ouch.Out → ℕ
  | .accepted m => if m.userRefNum = user then m.quantity else 0
  | .replaced m => if m.userRefNum = user then m.quantity else 0
  | _ => 0

/-- The shares that an answer executes. -/
def executes (user : ℕ) : Ouch.Out → ℕ
  | .executed m => if m.userRefNum = user then m.quantity else 0
  | _ => 0

/-- The shares that an answer cancels. -/
def cancels (user : ℕ) : Ouch.Out → ℕ
  | .canceled m => if m.userRefNum = user then m.quantity else 0
  | _ => 0

/-- The user reference of an order that the answer executes or cancels. -/
def reduced? : Ouch.Out → Option ℕ
  | .executed m => some m.userRefNum
  | .canceled m => some m.userRefNum
  | _ => none

/-- The user references of orders that were replaced. -/
def replacedAway (oe : List Ouch.Out) : List ℕ :=
  oe.filterMap fun
    | .replaced m => some m.origUserRefNum
    | _ => none

/-- The shares of the orders under a user reference. -/
def sharesIn (user : ℕ) (gone : List (ℕ × ℕ)) : ℕ := ((gone.filter fun g => g.1 = user).map Prod.snd).sum

@[simp] theorem sharesIn_nil (user : ℕ) : sharesIn user [] = 0 := rfl

@[simp] theorem sharesIn_append (user : ℕ) (gone gone' : List (ℕ × ℕ)) :
    sharesIn user (gone ++ gone') = sharesIn user gone + sharesIn user gone' := by
  simp [sharesIn]

@[simp] theorem sharesIn_one (user u q : ℕ) : sharesIn user [(u, q)] = if u = user then q else 0 := by
  unfold sharesIn
  by_cases hu : u = user <;> simp [hu]

theorem replacedAway_append (oe oe' : List Ouch.Out) : replacedAway (oe ++ oe') = replacedAway oe ++ replacedAway oe' :=
  List.filterMap_append

/-- Shares are accepted by an answer that accepts the order. -/
theorem answered_of_accepts {user : ℕ} {oe : List Ouch.Out} (h : total (accepts user) oe ≠ 0) :
    ∃ ref, (user, ref) ∈ Desk.answered oe := by
  induction oe with
  | nil => exact absurd rfl h
  | cons m oe ih =>
      rw [total_cons] at h
      have hcons : Desk.answered oe ⊆ Desk.answered (m :: oe) := by
        rw [← List.singleton_append, Desk.answered, Desk.answered, List.filterMap_append]
        exact List.subset_append_right ..
      by_cases hm : accepts user m = 0
      · obtain ⟨ref, href⟩ := ih (by omega)
        exact ⟨ref, hcons href⟩
      · cases m with
        | accepted m =>
            simp only [accepts, ite_eq_right_iff, Classical.not_imp] at hm
            exact ⟨m.orderReferenceNumber, by rw [← hm.1]; exact List.mem_cons_self⟩
        | replaced m =>
            simp only [accepts, ite_eq_right_iff, Classical.not_imp] at hm
            exact ⟨m.orderReferenceNumber, by rw [← hm.1]; exact List.mem_cons_self⟩
        | canceled m => exact absurd rfl hm
        | executed m => exact absurd rfl hm
        | rejected m => exact absurd rfl hm
        | cancelReject m => exact absurd rfl hm

namespace Desk

variable {K : Type*} [DecidableEq K] {d d' : Desk K} {s : Side} {o : Resting K} {user q x : ℕ}

omit [DecidableEq K] in
theorem replacedAway_oe (wirePerTick : ℕ) (xs : List (Deed K)) :
    replacedAway (xs.flatMap (Deed.oe wirePerTick)) = (departures xs).map Prod.fst := by
  induction xs with
  | nil => rfl
  | cons x xs ih =>
      have hhead : replacedAway (x.oe wirePerTick) = (x.removed?.toList).map Prod.fst := by
        cases x with
        | hit s o q agg owner n => cases agg <;> cases owner <;> rfl
        | leave s o owner how => cases how <;> cases owner <;> rfl
        | shrink s o q owner => cases owner <;> rfl
        | _ => rfl
      rw [List.flatMap_cons, replacedAway_append, hhead, ih, departures, departures, List.filterMap_cons]
      cases x.removed? <;> rfl

/-! ### The shares that a client's order has -/

namespace Holds

omit [DecidableEq K] in
theorem congr (h : d.Holds user q) (horders : d'.orders = d.orders) (howner : d'.owner = d.owner) : d'.Holds user q := by
  unfold Holds at h ⊢
  rwa [horders, howner]

/-- The client's order loses shares. -/
theorem lose_self (hd : d.Sound) (ho : o ∈ d.orders s) (hu : d.owner o.id = some user) :
    (d.lose s o q).Holds user (o.qty - q) := by
  unfold lose
  split_ifs with hq
  · refine .inr ⟨fun ref hr => ?_, by omega⟩
    unfold leave at hr
    by_cases he : ref = o.id
    · simp [he] at hr
    · exact he (hd.single _ _ _ (by simpa [he] using hr) hu)
  · exact .inl ⟨s, _, (Sides.mem_resized hd.distinct ho).mpr (.inr ⟨rfl, rfl⟩), hu, rfl⟩

/-- Another order loses shares. -/
theorem lose_other (h : d.Holds user x) (hd : d.Sound) (ho : o ∈ d.orders s) (hu : d.owner o.id ≠ some user) :
    (d.lose s o q).Holds user x := by
  obtain ⟨s', o', ho', hu', rfl⟩ | ⟨hnone, rfl⟩ := h
  · have hid : o'.id ≠ o.id := fun he => hu (he ▸ hu')
    have hk : o'.key ≠ o.key := fun he => hid (congrArg _ (hd.distinct ho' ho he).2)
    refine .inl ⟨s', o', ?_, ?_, rfl⟩
    · rw [orders_lose]
      unfold Sides.less
      split_ifs
      · exact (Sides.mem_without hd.distinct ho).mpr ⟨ho', hk⟩
      · exact (Sides.mem_resized hd.distinct ho).mpr (.inl ⟨ho', hk⟩)
    · unfold lose leave shrink
      split_ifs
      · simpa [hid] using hu'
      · exact hu'
  · refine .inr ⟨fun ref hr => ?_, rfl⟩
    unfold lose leave shrink at hr
    split_ifs at hr
    · by_cases he : ref = o.id
      · simp [he] at hr
      · exact hnone ref (by simpa [he] using hr)
    · exact hnone ref hr

omit [DecidableEq K] in
/-- The client's order comes to rest. -/
theorem rest_self (d : Desk K) (s : Side) (o : Resting K) (user : ℕ) : (d.rest s o (some user)).Holds user o.qty := by
  refine .inl ⟨s, o, ?_, ?_, rfl⟩
  · rw [orders_rest]
    exact Sides.mem_rested_iff.mpr (.inr ⟨rfl, rfl⟩)
  · rw [owner_rest, Function.update_self]

omit [DecidableEq K] in
/-- Another order comes to rest. -/
theorem rest_other (h : d.Holds user x) {owner : Option ℕ} (hnone : d.owner o.id = none) (hne : owner ≠ some user) :
    (d.rest s o owner).Holds user x := by
  obtain ⟨s', o', ho', hu', rfl⟩ | ⟨hno, rfl⟩ := h
  · refine .inl ⟨s', o', ?_, ?_, rfl⟩
    · rw [orders_rest]
      exact Sides.mem_rested_iff.mpr (.inl ho')
    · have hid : o'.id ≠ o.id := fun he => by rw [he, hnone] at hu'; cases hu'
      rw [owner_rest, Function.update_of_ne hid]
      exact hu'
  · refine .inr ⟨fun ref hr => ?_, rfl⟩
    rw [owner_rest] at hr
    by_cases he : ref = o.id
    · rw [he, Function.update_self] at hr
      exact hne hr
    · rw [Function.update_of_ne he] at hr
      exact hno ref hr

end Holds

/-! ### The ledger balances -/

/-- What was accepted for a client was executed, cancelled or taken out for another order,
or the client still has it. -/
def Balanced (d : Desk K) (oe : List Ouch.Out) (gone : List (ℕ × ℕ)) : Prop :=
  ∀ user, ∃ q, d.Holds user q ∧
    total (accepts user) oe =
      total (executes user) oe + total (cancels user) oe + sharesIn user gone + q + d.incoming user

/-- The answers about a trade. -/
def tradeAnswers (agg owner : Option ℕ) (q price n : ℕ) : List Ouch.Out :=
  (agg.toList ++ owner.toList).map fun u => .executed ⟨u, q, price, n⟩

theorem total_tradeAnswers (agg owner : Option ℕ) (q price n user : ℕ) :
    total (accepts user) (tradeAnswers agg owner q price n) = 0 ∧
      total (cancels user) (tradeAnswers agg owner q price n) = 0 ∧
      total (executes user) (tradeAnswers agg owner q price n) =
        (if agg = some user then q else 0) + if owner = some user then q else 0 := by
  unfold tradeAnswers
  cases agg <;> cases owner <;> simp [accepts, cancels, executes]

/-- The answers about an order that loses shares without a trade. -/
theorem total_cancelAnswers (owner : Option ℕ) (q : ℕ) (r : Ouch.CancelReason) (user : ℕ) :
    total (accepts user) (owner.toList.map fun u => .canceled ⟨u, q, r⟩) = 0 ∧
      total (executes user) (owner.toList.map fun u => .canceled ⟨u, q, r⟩) = 0 ∧
      total (cancels user) (owner.toList.map fun u => .canceled ⟨u, q, r⟩) = if owner = some user then q else 0 := by
  cases owner <;> simp [accepts, cancels, executes]

omit [DecidableEq K] in
theorem incoming_arrive (d : Desk K) (u q user : ℕ) :
    (d.arrive u q).incoming user = d.incoming user + if u = user then q else 0 := by
  unfold arrive
  by_cases hu : user = u
  · simp [hu]
  · simp [hu, Ne.symm hu]

omit [DecidableEq K] in
theorem incoming_spend (d : Desk K) (agg : Option ℕ) (q user : ℕ) :
    (d.spend agg q).incoming user = d.incoming user - if agg = some user then q else 0 := by
  cases agg with
  | none => rfl
  | some u =>
      unfold spend
      by_cases hu : user = u
      · simp [hu]
      · simp [hu, Ne.symm hu]

/-- An order of a client or of nobody loses shares. -/
theorem Holds.lose (h : d.Holds user x) (hd : d.Sound) (ho : o ∈ d.orders s) (hle : q ≤ o.qty) :
    ∃ y, (d.lose s o q).Holds user y ∧ x = y + if d.owner o.id = some user then q else 0 := by
  by_cases hu : d.owner o.id = some user
  · refine ⟨o.qty - q, lose_self hd ho hu, ?_⟩
    rw [if_pos hu, ← h.eq hd ho hu]
    omega
  · exact ⟨x, h.lose_other hd ho hu, by rw [if_neg hu]; rfl⟩

theorem leave_eq_lose (d : Desk K) (s : Side) (o : Resting K) : d.leave s o = d.lose s o o.qty := (if_pos rfl).symm

theorem shrink_eq_lose (d : Desk K) (s : Side) (hq : 0 < q) (hlt : q < o.qty) :
    d.shrink s o q = d.lose s o (o.qty - q) := by
  unfold lose
  rw [if_neg (by omega), Nat.sub_sub_self (by omega)]

/-- **Every deed keeps the ledger balanced.** -/
theorem Does.balanced {a : Deed K} (h : d.Does a d') (hd : d.Sound) {oe : List Ouch.Out} {gone : List (ℕ × ℕ)}
    (hb : d.Balanced oe gone) (wirePerTick : ℕ) :
    d'.Balanced (oe ++ a.oe wirePerTick) (gone ++ a.removed?.toList) := by
  intro user
  obtain ⟨x, hx, heq⟩ := hb user
  simp only [total_append, sharesIn_append]
  cases a with
  | accept m =>
      obtain ⟨-, rfl⟩ := h
      refine ⟨x, hx.congr rfl rfl, ?_⟩
      simp only [Deed.oe, Deed.removed?, total_cons, total_nil, accepts, executes, cancels, incoming_arrive,
        Option.toList_none, sharesIn_nil]
      omega
  | replace s o m =>
      obtain ⟨ho, hu, -, rfl⟩ := h
      obtain ⟨y, hy, hxy⟩ := hx.lose hd ho (Nat.le_refl _)
      rw [← leave_eq_lose] at hy
      rw [hu] at hxy
      refine ⟨y, hy.congr rfl rfl, ?_⟩
      have hin : ((d.leave s o).arrive m.userRefNum m.quantity).incoming user =
          d.incoming user + if m.userRefNum = user then m.quantity else 0 := incoming_arrive ..
      simp only [Deed.oe, Deed.removed?, total_cons, total_nil, accepts, executes, cancels, hin, Option.toList_some,
        sharesIn_one]
      simp only [Option.some.injEq] at hxy
      omega
  | reject m => cases h; exact ⟨x, hx, by simpa [Deed.oe, Deed.removed?, accepts, executes, cancels] using heq⟩
  | cancelReject m => cases h; exact ⟨x, hx, by simpa [Deed.oe, Deed.removed?, accepts, executes, cancels] using heq⟩
  | hit s o q agg owner n =>
      obtain ⟨ho, -, hle, rfl, hagg, rfl⟩ := h
      have hx' : (d.spend agg q).Holds user x := hx.congr (orders_spend ..) (owner_spend ..)
      have hd' : (d.spend agg q).Sound := hd.congr (orders_spend ..) (owner_spend ..)
      obtain ⟨y, hy, hxy⟩ := hx'.lose hd' (by rw [orders_spend]; exact ho) hle
      rw [owner_spend] at hxy
      refine ⟨y, hy, ?_⟩
      rw [incoming_lose, incoming_spend]
      have hq : (if agg = some user then q else 0) ≤ d.incoming user := by
        split_ifs with ha
        · exact hagg user ha
        · omega
      obtain ⟨hacc, hcan, hexe⟩ := total_tradeAnswers agg (d.owner o.id) q (wireOf wirePerTick o.price) n user
      change total _ oe + total _ (tradeAnswers ..) = total _ oe + total _ (tradeAnswers ..) +
        (total _ oe + total _ (tradeAnswers ..)) + (sharesIn user gone + sharesIn user []) + _ + _
      rw [hacc, hcan, hexe, sharesIn_nil]
      omega
  | giveUp u q =>
      obtain ⟨-, hq, rfl⟩ := h
      refine ⟨x, hx.congr rfl rfl, ?_⟩
      simp only [Deed.oe, Deed.removed?, total_cons, total_nil, accepts, executes, cancels, Option.toList_none,
        sharesIn_nil]
      by_cases hu : u = user
      · subst hu
        rw [Function.update_self, if_pos rfl]
        omega
      · rw [Function.update_of_ne (Ne.symm hu), if_neg hu]
        omega
  | rest s o owner how =>
      obtain ⟨-, -, hnone, hclient, rfl⟩ := h
      simp only [Deed.oe, Deed.removed?, total_nil, Option.toList_none, sharesIn_nil, Nat.add_zero]
      by_cases hu : owner = some user
      · subst hu
        obtain ⟨hin, hown, -⟩ := hclient user rfl
        refine ⟨o.qty, Holds.rest_self .., ?_⟩
        have hzero : x = 0 := by
          obtain ⟨s', o', -, hu', -⟩ | ⟨-, rfl⟩ := hx
          · exact absurd hu' (hown _)
          · rfl
        have hout : (d.rest s o (some user)).incoming user = 0 := Function.update_self ..
        rw [hout]
        omega
      · refine ⟨x, hx.rest_other hnone hu, ?_⟩
        have hsame : (d.rest s o owner).incoming user = d.incoming user := by
          cases owner with
          | none => rfl
          | some u => exact Function.update_of_ne (fun he => hu (by rw [he])) ..
        rw [hsame]
        exact heq
  | leave s o owner how =>
      obtain ⟨ho, rfl, hquiet, rfl⟩ := h
      obtain ⟨y, hy, hxy⟩ := hx.lose hd ho (Nat.le_refl _)
      rw [← leave_eq_lose] at hy
      refine ⟨y, hy, ?_⟩
      have hin : (d.leave s o).incoming user = d.incoming user := rfl
      rw [hin]
      simp only [Deed.removed?, Option.toList_none, sharesIn_nil]
      cases how with
      | canceled r =>
          obtain ⟨hacc, hexe, hcan⟩ := total_cancelAnswers (d.owner o.id) o.qty r user
          change total _ oe + total _ (Option.toList _ |>.map _) = total _ oe + total _ (Option.toList _ |>.map _) +
            (total _ oe + total _ (Option.toList _ |>.map _)) + _ + _ + _
          rw [hacc, hexe, hcan]
          omega
      | deleted =>
          rw [hquiet (.inl rfl)] at hxy
          simp only [Deed.oe, total_nil]
          simp only [reduceCtorEq, if_false] at hxy
          omega
      | quiet =>
          rw [hquiet (.inr rfl)] at hxy
          simp only [Deed.oe, total_nil]
          simp only [reduceCtorEq, if_false] at hxy
          omega
  | shrink s o q owner =>
      obtain ⟨ho, hq, hlt, rfl, rfl⟩ := h
      obtain ⟨y, hy, hxy⟩ := hx.lose hd ho (Nat.sub_le o.qty q)
      rw [← shrink_eq_lose d s hq hlt] at hy
      refine ⟨y, hy, ?_⟩
      have hin : (d.shrink s o q).incoming user = d.incoming user := rfl
      rw [hin]
      simp only [Deed.removed?, Option.toList_none, sharesIn_nil]
      obtain ⟨hacc, hexe, hcan⟩ := total_cancelAnswers (d.owner o.id) (o.qty - q) .userRequested user
      change total _ oe + total _ (Option.toList _ |>.map _) = total _ oe + total _ (Option.toList _ |>.map _) +
        (total _ oe + total _ (Option.toList _ |>.map _)) + _ + _ + _
      rw [hacc, hexe, hcan]
      omega
  | publish m => cases h; exact ⟨x, hx, by simpa [Deed.oe, Deed.removed?] using heq⟩
  | clear =>
      obtain ⟨hnone, rfl⟩ := h
      obtain ⟨s, o, -, hu, -⟩ | ⟨-, rfl⟩ := hx
      · rw [hnone] at hu; cases hu
      · refine ⟨0, .inr ⟨fun ref hr => ?_, rfl⟩, by simpa [Deed.oe, Deed.removed?] using heq⟩
        rw [hnone ref] at hr
        cases hr

/-! ### No order loses more than it has -/

/-- After the answers `pre` the order of the client has been accepted and not been replaced,
has shares left, and has all that the answer `m` executes or cancels. -/
structure FitsAt (user : ℕ) (pre : List Ouch.Out) (m : Ouch.Out) : Prop where
  accepted : ∃ ref, (user, ref) ∈ answered pre
  notReplaced : user ∉ replacedAway pre
  left : total (executes user) pre + total (cancels user) pre < total (accepts user) pre
  enough : total (executes user) (pre ++ [m]) + total (cancels user) (pre ++ [m]) ≤ total (accepts user) pre

/-- Orders are executed and cancelled only while they have the shares. -/
def Fits (oe : List Ouch.Out) : Prop :=
  ∀ pre m post, oe = pre ++ m :: post → ∀ user, reduced? m = some user → FitsAt user pre m

/-- The answer `m` takes no more from the client's order than it has, and the answers `pre`
before it are about other orders. -/
structure Takes (d : Desk K) (user : ℕ) (pre : List Ouch.Out) (m : Ouch.Out) : Prop where
  accepts : total (accepts user) pre = 0
  executes : total (executes user) pre = 0
  cancels : total (cancels user) pre = 0
  replacedAway : replacedAway pre = []
  pos : 0 < Sim.executes user m + Sim.cancels user m
  le : ∀ q, d.Holds user q → Sim.executes user m + Sim.cancels user m ≤ q + d.incoming user

/-- What the answers of one deed take from a client's order, the client has. -/
theorem Does.takes {a : Deed K} (h : d.Does a d') (hd : d.Sound) (hstill : d.Still) (wirePerTick : ℕ)
    {pre post : List Ouch.Out} {m : Ouch.Out} (heq : a.oe wirePerTick = pre ++ m :: post)
    (hm : reduced? m = some user) : d.Takes user pre m := by
  have hone : ∀ {x : Ouch.Out}, [x] = pre ++ m :: post → pre = [] ∧ m = x := by
    intro x hx
    cases pre with
    | nil => exact ⟨rfl, (List.cons.inj hx).1.symm⟩
    | cons y pre => exact absurd (congrArg List.length hx) (by simp)
  have htwo : ∀ {x y : Ouch.Out}, [x, y] = pre ++ m :: post → pre = [] ∧ m = x ∨ pre = [x] ∧ m = y := by
    intro x y hxy
    cases pre with
    | nil => exact .inl ⟨rfl, (List.cons.inj hxy).1.symm⟩
    | cons z pre =>
        obtain ⟨rfl, hy⟩ := List.cons.inj hxy
        cases pre with
        | nil => exact .inr ⟨rfl, (List.cons.inj hy).1.symm⟩
        | cons z' pre => exact absurd (congrArg List.length hy) (by simp)
  have hnil : ∀ {k}, k = executes user m + cancels user m → 0 < k → (∀ q, d.Holds user q → k ≤ q + d.incoming user) →
      pre = [] → d.Takes user pre m := fun hk hpos hle hpre => by
    subst hk hpre
    exact ⟨rfl, rfl, rfl, rfl, hpos, hle⟩
  have hheld : ∀ {s o}, o ∈ d.orders s → d.owner o.id = some user → ∀ q, d.Holds user q → o.qty = q :=
    fun ho hu q hq => hq.eq hd ho hu
  cases a with
  | accept x => obtain ⟨-, rfl⟩ := hone heq; cases hm
  | replace s o x => obtain ⟨-, rfl⟩ := hone heq; cases hm
  | reject x => obtain ⟨-, rfl⟩ := hone heq; cases hm
  | cancelReject x => obtain ⟨-, rfl⟩ := hone heq; cases hm
  | hit s o q agg owner n =>
      obtain ⟨ho, hpos, hle, rfl, hagg, -⟩ := h
      have howned : ∀ y, d.owner o.id = some user → d.Holds user y → q ≤ y + d.incoming user := fun y hu hy => by
        rw [← hheld ho hu y hy]
        omega
      have harriving : agg = some user → ∀ y, d.Holds user y → q ≤ y + d.incoming user := fun hu y _ => by
        have := hagg user hu
        omega
      cases hw : d.owner o.id with
      | none =>
          rw [hw] at heq
          cases agg with
          | none => exact absurd (congrArg List.length heq) (by simp [Deed.oe])
          | some u =>
              obtain ⟨hpre, rfl⟩ := hone heq
              obtain rfl : u = user := Option.some.inj hm
              exact hnil (by simp [executes, cancels]) hpos (harriving rfl) hpre
      | some w =>
          rw [hw] at heq
          cases agg with
          | none =>
              obtain ⟨hpre, rfl⟩ := hone heq
              obtain rfl : w = user := Option.some.inj hm
              exact hnil (by simp [executes, cancels]) hpos (fun y hy => howned y hw hy) hpre
          | some u =>
              obtain ⟨hpre, rfl⟩ | ⟨rfl, rfl⟩ := htwo heq
              · obtain rfl : u = user := Option.some.inj hm
                exact hnil (by simp [executes, cancels]) hpos (harriving rfl) hpre
              · obtain rfl : w = user := Option.some.inj hm
                -- the client that arrives is not the one whose order rests
                have hne : u ≠ w := by
                  rintro rfl
                  have := hagg u rfl
                  have := hstill o.id u hw
                  omega
                refine ⟨by simp [accepts], by simp [executes, hne], by simp [cancels], rfl,
                  by simpa [executes, cancels] using hpos, fun y hy => ?_⟩
                simpa [executes, cancels] using howned y hw hy
  | giveUp u q =>
      obtain ⟨hpos, hq, -⟩ := h
      obtain ⟨hpre, rfl⟩ := hone heq
      obtain rfl : u = user := Option.some.inj hm
      refine hnil (by simp [executes, cancels]) hpos (fun y _ => ?_) hpre
      omega
  | rest s o owner how => exact absurd (congrArg List.length heq) (by simp [Deed.oe])
  | leave s o owner how =>
      obtain ⟨ho, rfl, -, -⟩ := h
      cases how with
      | canceled r =>
          cases hw : d.owner o.id with
          | none => rw [hw] at heq; exact absurd (congrArg List.length heq) (by simp [Deed.oe])
          | some w =>
              rw [hw] at heq
              obtain ⟨hpre, rfl⟩ := hone heq
              obtain rfl : w = user := Option.some.inj hm
              refine hnil (by simp [executes, cancels]) (hd.pos s o ho) (fun y hy => ?_) hpre
              rw [← hheld ho hw y hy]
              omega
      | deleted => exact absurd (congrArg List.length heq) (by simp [Deed.oe])
      | quiet => exact absurd (congrArg List.length heq) (by simp [Deed.oe])
  | shrink s o q owner =>
      obtain ⟨ho, hq, hlt, rfl, -⟩ := h
      cases hw : d.owner o.id with
      | none => rw [hw] at heq; exact absurd (congrArg List.length heq) (by simp [Deed.oe])
      | some w =>
          rw [hw] at heq
          obtain ⟨hpre, rfl⟩ := hone heq
          obtain rfl : w = user := Option.some.inj hm
          refine hnil (by simp [executes, cancels]) (show 0 < o.qty - q by omega) (fun y hy => ?_) hpre
          rw [← hheld ho hw y hy]
          omega
  | publish m => exact absurd (congrArg List.length heq) (by simp [Deed.oe])
  | clear => exact absurd (congrArg List.length heq) (by simp [Deed.oe])

/-- Nothing comes back under a user reference without being accepted again. -/
theorem Does.idle {a : Deed K} (h : d.Does a d') (hi : d.Idle user) (ha : ∀ ref, a.accepted? ≠ some (user, ref)) :
    d'.Idle user := by
  have hzero : ∀ {f : ℕ → ℕ} {u q : ℕ}, f user = 0 → q ≤ f u → Function.update f u q user = 0 := by
    intro f u q hf hq
    by_cases hu : user = u
    · rw [hu, Function.update_self]
      rw [hu] at hf
      omega
    · rw [Function.update_of_ne hu, hf]
  have harrive : ∀ {u q}, user ≠ u → (d.arrive u q).incoming user = 0 := fun hu =>
    (Function.update_of_ne hu ..).trans hi.2
  refine ⟨fun ref hr => ?_, ?_⟩
  · obtain hr | hr := h.owner_eq hr
    · exact hi.1 ref hr
    · -- the order that comes to rest was arriving
      cases a <;> try cases hr
      obtain ⟨hpos, -, -, hclient, -⟩ := h
      have := (hclient user rfl).1
      rw [hi.2] at this
      omega
  · cases a with
    | accept m =>
        obtain ⟨-, rfl⟩ := h
        exact harrive fun he => ha m.orderReferenceNumber (by rw [he]; rfl)
    | replace s o m =>
        obtain ⟨-, -, -, rfl⟩ := h
        exact harrive fun he => ha m.orderReferenceNumber (by rw [he]; rfl)
    | reject m => cases h; exact hi.2
    | cancelReject m => cases h; exact hi.2
    | hit s o q agg owner n =>
        obtain ⟨-, -, -, -, -, rfl⟩ := h
        rw [incoming_lose, incoming_spend, hi.2, Nat.zero_sub]
    | giveUp u q => obtain ⟨-, -, rfl⟩ := h; exact hzero hi.2 (Nat.zero_le _)
    | rest s o owner how =>
        obtain ⟨-, -, -, -, rfl⟩ := h
        cases owner with
        | none => exact hi.2
        | some u => exact hzero hi.2 (Nat.zero_le _)
    | leave s o owner how => obtain ⟨-, -, -, rfl⟩ := h; exact hi.2
    | shrink s o q owner => obtain ⟨-, -, -, -, rfl⟩ := h; exact hi.2
    | publish m => cases h; exact hi.2
    | clear => obtain ⟨-, rfl⟩ := h; exact hi.2

/-- What the answers so far say of the orders. -/
structure Books (d : Desk K) (oe : List Ouch.Out) (gone : List (ℕ × ℕ)) : Prop where
  sound : d.Sound
  still : d.Still
  balanced : d.Balanced oe gone
  away : ∀ u ∈ replacedAway oe, d.Idle u ∧ ∃ ref, (u, ref) ∈ answered oe
  fits : Fits oe

namespace Books

variable {oe : List Ouch.Out} {gone : List (ℕ × ℕ)} {xs : List (Deed K)}

theorem mem_answered_append {oe oe' : List Ouch.Out} {p : ℕ × ℕ} :
    p ∈ answered (oe ++ oe') ↔ p ∈ answered oe ∨ p ∈ answered oe' := by
  rw [answered, List.filterMap_append, List.mem_append]
  rfl

omit [DecidableEq K] in
/-- A client with shares was accepted. -/
theorem answered (h : d.Books oe gone) (hq : d.Holds user q) (hpos : 0 < q + d.incoming user) :
    ∃ ref, (user, ref) ∈ answered oe := by
  obtain ⟨x, hx, heq⟩ := h.balanced user
  have hxq : x = q := by
    obtain ⟨s, o, ho, hu, rfl⟩ | ⟨hnone, rfl⟩ := hx
    · exact hq.eq h.sound ho hu
    · obtain ⟨s, o, -, hu, -⟩ | ⟨-, rfl⟩ := hq
      · exact absurd hu (hnone _)
      · rfl
  exact answered_of_accepts (by omega)

/-- **Every deed keeps the books.** -/
theorem does {a : Deed K} (h : d.Books oe gone) (ha : d.Does a d') (wirePerTick : ℕ)
    (hfresh : ∀ u ref, a.accepted? = some (u, ref) → ∀ ref', (u, ref') ∉ Desk.answered oe) :
    d'.Books (oe ++ a.oe wirePerTick) (gone ++ a.removed?.toList) where
  sound := h.sound.does ha
  still := ha.still h.still
  balanced := ha.balanced h.sound h.balanced wirePerTick
  away u hu := by
    rw [replacedAway_append] at hu
    obtain hu | hu := List.mem_append.mp hu
    · obtain ⟨hidle, ref, href⟩ := h.away u hu
      exact ⟨ha.idle hidle fun ref' ha' => hfresh u ref' ha' ref href, ref, mem_answered_append.mpr (.inl href)⟩
    · cases a with
      | replace s o m =>
          obtain rfl : u = m.origUserRefNum := by simpa [Deed.oe, replacedAway] using hu
          obtain ⟨ho, howner, hidle, rfl⟩ := ha
          have hne : m.origUserRefNum ≠ m.userRefNum := fun he => hidle.1 o.id (he ▸ howner)
          have hin := h.still o.id _ howner
          refine ⟨⟨fun ref hr => ?_, (Function.update_of_ne hne ..).trans hin⟩, ?_⟩
          · have hr : Function.update d.owner o.id none ref = some m.origUserRefNum := hr
            by_cases he : ref = o.id
            · rw [he, Function.update_self] at hr; cases hr
            · rw [Function.update_of_ne he] at hr
              exact he (h.sound.single _ _ _ hr howner)
          · obtain ⟨ref, href⟩ := h.answered (.inl ⟨s, o, ho, howner, rfl⟩) (by have := h.sound.pos s o ho; omega)
            exact ⟨ref, mem_answered_append.mpr (.inl href)⟩
      | hit s o q agg owner n => cases agg <;> cases owner <;> simp [Deed.oe, replacedAway] at hu
      | leave s o owner how => cases how <;> cases owner <;> simp [Deed.oe, replacedAway] at hu
      | shrink s o q owner => cases owner <;> simp [Deed.oe, replacedAway] at hu
      | _ => simp [Deed.oe, replacedAway] at hu
  fits pre m post heq user hm := by
    have hin : ∀ pre', a.oe wirePerTick = pre' ++ m :: post → pre = oe ++ pre' → FitsAt user pre m := by
      intro pre' hdeed hpre
      have ht := ha.takes h.sound h.still wirePerTick hdeed hm
      obtain ⟨q, hq, hbal⟩ := h.balanced user
      have hle := ht.le q hq
      have hpos := ht.pos
      obtain ⟨ref, href⟩ := h.answered hq (by omega)
      have haway : user ∉ replacedAway oe := fun hu => by
        obtain ⟨hidle, -⟩ := h.away user hu
        obtain ⟨s, o, -, hown, -⟩ | ⟨-, rfl⟩ := hq
        · exact hidle.1 _ hown
        · have := hidle.2
          omega
      subst hpre
      refine ⟨⟨ref, mem_answered_append.mpr (.inl href)⟩, ?_, ?_, ?_⟩
      · rw [replacedAway_append, ht.replacedAway, List.append_nil]
        exact haway
      · simp only [total_append, ht.accepts, ht.executes, ht.cancels]
        omega
      · simp only [total_append, total_cons, total_nil, ht.accepts, ht.executes, ht.cancels]
        omega
    obtain ⟨pre', hpre, hdeed⟩ | ⟨bs, hoe, hdeed⟩ := List.append_eq_append_iff.mp heq
    · exact hin pre' hdeed hpre
    · cases bs with
      | nil => exact hin [] hdeed.symm (by rw [hoe, List.append_nil, List.append_nil])
      | cons b bs =>
          obtain ⟨rfl, -⟩ := List.cons.inj hdeed
          exact h.fits pre m bs hoe user hm

/-- **The books are kept along any list of deeds** that accepts no user reference twice. -/
theorem doesAll (h : d.Books oe gone) (hxs : d.DoesAll xs d') (wirePerTick : ℕ)
    (hfresh : (((Desk.answered oe) ++ acceptances xs).map Prod.fst).Nodup) :
    d'.Books (oe ++ xs.flatMap (Deed.oe wirePerTick)) (gone ++ departures xs) := by
  induction xs generalizing d oe gone with
  | nil =>
      cases hxs
      simpa [departures] using h
  | cons x xs ih =>
      obtain ⟨d₁, hx, hxs⟩ := hxs
      have hacc : acceptances (x :: xs) = x.accepted?.toList ++ acceptances xs := by
        rw [acceptances, List.filterMap_cons]
        cases x.accepted? <;> rfl
      have hgone : departures (x :: xs) = x.removed?.toList ++ departures xs := by
        rw [departures, List.filterMap_cons]
        cases x.removed? <;> rfl
      have hanswered : Desk.answered (oe ++ x.oe wirePerTick) = Desk.answered oe ++ x.accepted?.toList := by
        have := answered_oe wirePerTick [x]
        rw [List.flatMap_singleton] at this
        rw [Desk.answered, List.filterMap_append]
        change Desk.answered oe ++ Desk.answered (x.oe wirePerTick) = _
        rw [this, acceptances, List.filterMap_cons]
        cases x.accepted? <;> rfl
      rw [hacc, ← List.append_assoc] at hfresh
      have hone := h.does hx wirePerTick fun u ref hu ref' href' => by
        rw [hu, List.append_assoc, List.map_append] at hfresh
        refine (List.nodup_append.mp hfresh).2.2 u (List.mem_map.mpr ⟨_, href', rfl⟩) u ?_ rfl
        simp
      have := ih hone hxs (by rw [hanswered]; exact hfresh)
      rw [hgone, List.flatMap_cons, ← List.append_assoc, ← List.append_assoc]
      exact this

end Books

end Desk

end TickToTrade.Sim
