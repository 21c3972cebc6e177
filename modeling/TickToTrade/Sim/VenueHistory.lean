import Mathlib.Algebra.BigOperators.Intervals
import TickToTrade.Sim.Ledger
import TickToTrade.Sim.VenueRuns

/-!
# The history of a venue

What can be seen of a venue without its tables, the walks over the levels of its engine
and the answers that it has given, and the run lemma: an orderly run is a list of deeds,
after which the tables still stand for the desk.
-/

namespace TickToTrade.Sim.Venue

open Util

/-! ### Looking at the engine -/

/-- An order with the reference rests in the engine. -/
def Rests (v : Venue) (ref : ℕ) : Prop := ∃ s p, ∃ o ∈ v.engine.ordersAtLevel s p, o.id = ref

/-- The shares of a client's resting orders on a side. -/
def sideShares (v : Venue) (user : ℕ) (s : Side) : ℕ :=
  ∑ i ∈ Finset.range (v.engine.maxPrice + 1 - v.engine.minPrice).toNat,
    (((v.engine.ordersAtLevel s (v.engine.minPrice + i)).filter fun o => (user, o.id) ∈ Desk.answered v.oe).map
      Order.qty).sum

/-- The shares of a client's resting orders. -/
def sharesOf (v : Venue) (user : ℕ) : ℕ := v.sideShares user .buy + v.sideShares user .sell

/-- The shares that a client's order had when it was replaced, along a run. -/
def replacedShares (v : Venue) (user : ℕ) : List Op → ℕ
  | [] => 0
  | op :: ops =>
      (if user ∈ replacedAway ((v.step op).oe.drop v.oe.length) then v.sharesOf user else 0) +
        replacedShares (v.step op) user ops

theorem replacedShares_append (v : Venue) (user : ℕ) (ops ops' : List Op) :
    v.replacedShares user (ops ++ ops') = v.replacedShares user ops + (v.run ops).replacedShares user ops' := by
  induction ops generalizing v with
  | nil => exact (Nat.zero_add _).symm
  | cons op ops ih => rw [List.cons_append, replacedShares, replacedShares, ih, Nat.add_assoc]; rfl

section

variable {exact : Prop} {first : ℕ} {own syn tape known : List ℕ} {v w : Venue} {d d' : Desk ℕ} {s : Side}
  {o : Resting ℕ} {ref : ℕ} {op : Op}

/-- The cell of a resting order. -/
theorem Stands.cell (h : Stands exact v d) (ho : o ∈ d.orders s) :
    (v.engine.order o.key).id = o.id ∧ (v.engine.order o.key).price = o.price ∧ (v.engine.order o.key).side = s :=
  h.queued.cell ho

theorem Stands.mem_handles (h : Stands exact v d) {p : ℤ} {k : ℕ} :
    k ∈ v.engine.handlesAtLevel s p ↔ ∃ o ∈ d.orders s, o.key = k ∧ o.price = p :=
  h.queued.mem_handles

/-- The orders that rest are those of the engine's queues. -/
theorem rests_iff {A : Sides ℕ} (hb : v.engine.Queued A) : v.Rests ref ↔ ∃ s, ∃ o ∈ A s, o.id = ref := by
  constructor
  · rintro ⟨s, p, c, hc, rfl⟩
    rw [OrderBook.ordersAtLevel_eq_map] at hc
    obtain ⟨k, hk, rfl⟩ := List.mem_map.mp hc
    obtain ⟨o, ho, rfl, -⟩ := hb.mem_handles.mp hk
    exact ⟨s, o, ho, (hb.cell ho).1.symm⟩
  · rintro ⟨s, o, ho, rfl⟩
    refine ⟨s, o.price, v.engine.order o.key, ?_, (hb.cell ho).1⟩
    rw [OrderBook.ordersAtLevel_eq_map]
    exact List.mem_map_of_mem (hb.mem_handles.mpr ⟨o, ho, rfl, rfl⟩)

theorem Stands.rests_iff (h : Stands exact v d) : v.Rests ref ↔ ∃ s, ∃ o ∈ d.orders s, o.id = ref :=
  Venue.rests_iff h.queued

/-- A client's order rests while it is its client's. -/
theorem Kept.owner_iff (h : Kept exact first own syn tape known v d) {user : ℕ} :
    d.owner ref = some user ↔ v.Rests ref ∧ (user, ref) ∈ Desk.answered v.oe := by
  rw [h.rests_iff]
  constructor
  · intro hu
    exact ⟨h.sound.owned ref user hu, h.owners ref user hu⟩
  · rintro ⟨⟨s, o, ho, hid⟩, hu⟩
    exact (h.accepted user ref hu).2.2.2 s o ho hid

/-- The walk over a level meets the shares of the client's order there. -/
theorem Kept.level_eq (h : Kept exact first own syn tape known v d) (user : ℕ) (s : Side) (p : ℤ) :
    ((v.engine.ordersAtLevel s p).filter fun o => (user, o.id) ∈ Desk.answered v.oe).map Order.qty =
      ((level (d.orders s) p).filter fun o => d.owner o.id = some user).map Resting.qty := by
  rw [OrderBook.ordersAtLevel_eq_map, h.queued.handlesAtLevel_eq, OrderBook.keys, List.map_map, List.filter_map,
    List.map_map]
  have hmem : ∀ o ∈ level (d.orders s) p, o ∈ d.orders s := fun o ho => (mem_level.mp ho).1
  rw [List.filter_congr fun o ho => ?_]
  · exact List.map_congr_left fun o ho => h.queued.order_qty (hmem o (List.mem_of_mem_filter ho))
  · have hid : (v.engine.order o.key).id = o.id := (h.cell (hmem o ho)).1
    simp only [Function.comp_apply, hid, decide_eq_decide]
    rw [h.owner_iff]
    exact ⟨fun hu => ⟨h.rests_iff.mpr ⟨s, o, hmem o ho, rfl⟩, hu⟩, fun hu => hu.2⟩

/-- The shares of a client's resting orders are those of the one that it has. -/
theorem Kept.sharesOf_eq (h : Kept exact first own syn tape known v d) {user q : ℕ} (hq : d.Holds user q) :
    v.sharesOf user = q := by
  have hside : ∀ s, v.sideShares user s = ∑ i ∈ Finset.range (v.engine.maxPrice + 1 - v.engine.minPrice).toNat,
      (((level (d.orders s) (v.engine.minPrice + i)).filter fun o => d.owner o.id = some user).map Resting.qty).sum :=
    fun s => by
      unfold sideShares
      exact Finset.sum_congr rfl fun i _ => by rw [h.level_eq]
  have hzero : ∀ s p, (∀ o ∈ level (d.orders s) p, d.owner o.id ≠ some user) →
      (((level (d.orders s) p).filter fun o => d.owner o.id = some user).map Resting.qty).sum = 0 := by
    intro s p hnone
    rw [List.filter_eq_nil_iff.mpr fun o ho => by simpa using hnone o ho]
    rfl
  unfold sharesOf
  obtain ⟨s, o, ho, hu, rfl⟩ | ⟨hnone, rfl⟩ := hq
  · have honly : ∀ s', ∀ o' ∈ d.orders s', d.owner o'.id = some user → s' = s ∧ o' = o := fun s' o' ho' hu' =>
      h.sound.distinct ho' ho (h.sound.alone s' o' s o ho' ho (h.sound.single _ _ _ hu' hu) (by simp [hu']))
    have hself : v.sideShares user s = o.qty := by
      rw [hside]
      have hmem : o ∈ level (d.orders s) o.price := mem_level.mpr ⟨ho, rfl⟩
      have hnodup : (level (d.orders s) o.price).Nodup := (List.Nodup.of_map _ (h.queued.nodup s)).filter _
      have hrange : v.engine.minPrice ≤ o.price ∧ o.price ≤ v.engine.maxPrice := h.queued.range s o ho
      have hprice : v.engine.minPrice + ((o.price - v.engine.minPrice).toNat : ℤ) = o.price := by omega
      rw [Finset.sum_eq_single (o.price - v.engine.minPrice).toNat, hprice]
      · have hone : ((level (d.orders s) o.price).filter fun x => d.owner x.id = some user) =
            (level (d.orders s) o.price).filter fun x => x = o := by
          refine List.filter_congr fun x hx => ?_
          simp only [decide_eq_decide]
          exact ⟨fun hx' => (honly s x (mem_level.mp hx).1 hx').2, fun he => he ▸ hu⟩
        rw [hone, List.filter_eq, List.count_eq_one_of_mem hnodup hmem]
        simp
      · intro i _ hi
        refine hzero s _ fun x hx hx' => hi ?_
        have hxp := (mem_level.mp hx).2
        rw [(honly s x (mem_level.mp hx).1 hx').2] at hxp
        omega
      · intro hout
        exact absurd (Finset.mem_range.mpr (by omega)) hout
    have hother : v.sideShares user s.opposite = 0 := by
      rw [hside]
      refine Finset.sum_eq_zero fun i _ => hzero _ _ fun x hx hx' => ?_
      exact Side.ne_opposite s (honly s.opposite x (mem_level.mp hx).1 hx').1.symm
    cases s
    · exact (congrArg₂ (· + ·) hself hother).trans (Nat.add_zero _)
    · exact (congrArg₂ (· + ·) hother hself).trans (Nat.zero_add _)
  · have hall : ∀ s, v.sideShares user s = 0 := fun s => by
      rw [hside]
      exact Finset.sum_eq_zero fun i _ => hzero s _ fun o ho => hnone o.id
    rw [hall, hall]

/-- What a call takes out for a new order is what the replaced order had. -/
theorem Kept.replaced_step (h : Kept exact first own syn tape known v d) {xs : List (Deed ℕ)} {n : ℕ}
    (hf : Follows exact { v with nextOrderRef := n } d xs (v.step op) d') (hgone : Gone d op (Desk.departures xs))
    (user : ℕ) : sharesIn user (Desk.departures xs) = v.replacedShares user [op] := by
  have hoe : (v.step op).oe = v.oe ++ xs.flatMap (Deed.oe v.wirePerTick) := hf.oe
  rw [replacedShares, replacedShares, hoe, List.drop_left, Desk.replacedAway_oe, Nat.add_zero]
  obtain hnil | ⟨m, q, -, hq, hone⟩ := hgone
  · rw [hnil]
    rfl
  · rw [hone, sharesIn_one]
    by_cases hu : m.origUserRefNum = user
    · rw [if_pos hu, if_pos (by simp [hu]), ← hu, h.sharesOf_eq hq]
    · rw [if_neg hu, if_neg (by simpa using Ne.symm hu)]

/-! ### Orderly runs -/

theorem returned_one (v : Venue) (op : Op) : v.synthetics [op] = v.returned op := List.append_nil _

/-- The accepted orders of a call are the new ones of its request. -/
theorem Outcome.sublist {acc : List (ℕ × ℕ)} {arr : List (ℕ × Option ℕ)} (h : Outcome v op w acc arr) :
    (acc.map Prod.fst).Sublist op.newUsers := by
  cases h with
  | usual href hacc harr => rw [hacc]; exact List.nil_sublist _
  | injects href hop hacc harr => rw [hacc]; exact List.nil_sublist _
  | accepts user href huser hacc harr => rw [hacc, huser]; exact List.Sublist.refl _

/-- The venue's price range is the same all along. -/
theorem Fair.of_steady (h : v.Fair) (hs : Steady v w) : w.Fair where
  least := by rw [hs.range.1, hs.minTick]; exact h.least
  greatest := by rw [hs.range.2, hs.maxTick]; exact h.greatest
  low := by rw [hs.minTick]; exact h.low
  ordered := by rw [hs.minTick, hs.maxTick]; exact h.ordered
  high := by rw [hs.maxTick]; exact h.high

/-- The next call of an orderly run is ready, takes a reference that is left, and the tape
names no order of the venue. -/
theorem Kept.ready_next {ops : List Op} {d : Desk ℕ}
    (hk : Kept exact v.nextOrderRef (v.handedOut ops) (v.synthetics ops) (ops.flatMap Op.tapeNew) (ops.flatMap Op.newUsers)
      (v.run ops) d) (hpos : 0 < v.nextOrderRef) (h : Orderly v (ops ++ [op])) (hwrap : NoWrap v (ops ++ [op]))
    (hunique : exact → TapeUnique (ops ++ [op])) :
    Ready exact (v.run ops) d op ∧ v.nextOrderRef + (v.handedOut ops).length + ((v.run ops).handedOut [op]).length ≤ 2 ^ 64 ∧
      ∀ ref ∈ op.tapeRefs, ref ≠ 0 ∧ ref ∉ v.handedOut ops := by
  have hmem : op ∈ ops ++ [op] := List.mem_append_right _ List.mem_cons_self
  have hwrap : v.nextOrderRef + (v.handedOut ops).length + ((v.run ops).handedOut [op]).length ≤ 2 ^ 64 := by
    rw [NoWrap, handedOut_append, List.length_append] at hwrap
    omega
  have htape : ∀ ref ∈ op.tapeRefs, ref ≠ 0 ∧ ref ∉ v.handedOut ops := fun ref href => by
    obtain ⟨hne, hout⟩ := h.tape op hmem ref href
    rw [handedOut_append] at hout
    exact ⟨hne, fun hm => hout (List.mem_append_left _ hm)⟩
  refine ⟨?_, hwrap, htape⟩
  refine hk.ready hpos hwrap (fun hnew htaped => ?_) (h.users op hmem) (fun u hu hknown => ?_) htape
    (fun he ref href htaped => ?_) fun ref hop => ?_
  · obtain ⟨op', hop', hnew'⟩ := List.mem_flatMap.mp htaped
    have hout := (h.tape op' (List.mem_append_left _ hop') _ (op'.tapeNew_subset hnew')).2
    rw [handedOut_append] at hout
    exact hout (List.mem_append_right _ hnew)
  · have hnodup := h.fresh
    rw [List.flatMap_append] at hnodup
    exact (List.nodup_append.mp hnodup).2.2 u hknown u (by simpa using hu) rfl
  · have hnodup := hunique he
    rw [TapeUnique, List.flatMap_append] at hnodup
    exact (List.nodup_append.mp hnodup).2.2 ref htaped ref (by simpa using href) rfl
  · exact h.synthetics ops ref [] (by rw [hop])

theorem TapeUnique.of_append {ops ops' : List Op} (h : TapeUnique (ops ++ ops')) : TapeUnique ops := by
  rw [TapeUnique, List.flatMap_append] at h
  exact List.Nodup.of_append_left h

/-- **Along an orderly run the tables follow the desk.** The induction is on the run, from
its end; every call is ready because the run before it was orderly. -/
theorem kept_run {d₀ : Desk ℕ} (hkept : Kept exact v.nextOrderRef [] [] [] [] v d₀) (hpos : 0 < v.nextOrderRef)
    {ops : List Op} (h : Orderly v ops) (hwrap : NoWrap v ops) (hunique : exact → TapeUnique ops) :
    ∃ xs d, Follows exact { v with nextOrderRef := (v.run ops).nextOrderRef } d₀ xs (v.run ops) d ∧
      Kept exact v.nextOrderRef (v.handedOut ops) (v.synthetics ops) (ops.flatMap Op.tapeNew) (ops.flatMap Op.newUsers)
        (v.run ops) d ∧
      (v.Fair → d.incoming = d₀.incoming) ∧ ((Desk.acceptances xs).map Prod.fst).Sublist (ops.flatMap Op.newUsers) ∧
      ∀ user, sharesIn user (Desk.departures xs) = v.replacedShares user ops := by
  induction ops using List.reverseRecOn with
  | nil => exact ⟨[], d₀, .refl hkept.toStands, hkept, fun _ => rfl, List.Sublist.refl _, fun _ => rfl⟩
  | append_singleton ops op ih =>
      obtain ⟨xs, d, hf, hk, hin, hsub, hreplaced⟩ := ih h.of_append hwrap.of_append fun he => (hunique he).of_append
      obtain ⟨hready, hwrap, htape⟩ := hk.ready_next hpos h hwrap hunique
      obtain ⟨d', he⟩ := step_effect hk.toStands hready
      have hk' := hk.effect hready he hwrap fun ref href => (htape ref (op.tapeNew_subset href)).2
      obtain ⟨ys, hf', hout, hgone, -, hfair⟩ := he
      have hrun : v.run (ops ++ [op]) = (v.run ops).step op := run_append ..
      refine ⟨xs ++ ys, d', ?_, ?_, fun hv => ?_, ?_, fun user => ?_⟩
      · rw [hrun]
        exact (hf.with_ref _).trans hf'
      · rw [handedOut_append, synthetics_append, returned_one, List.flatMap_append, List.flatMap_append, hrun]
        simpa using hk'
      · have hstart : Fair { v with nextOrderRef := (v.run ops).nextOrderRef } :=
          ⟨hv.least, hv.greatest, hv.low, hv.ordered, hv.high⟩
        exact (hfair (hstart.of_steady hf.steady)).trans (hin hv)
      · rw [Desk.acceptances_append, List.map_append, List.flatMap_append]
        exact hsub.append (by simpa using hout.sublist)
      · rw [Desk.departures_append, sharesIn_append, hreplaced, hk.replaced_step hf' hgone, replacedShares_append]

/-- The desk of a new venue. -/
def emptyDesk : Desk ℕ := ⟨fun _ => [], fun _ => none, fun _ => 0⟩

/-- A new venue. -/
theorem kept_new (symbol : List UInt8) (stockLocate : ℕ) (minTick maxTick : ℤ)
    {wirePerTick firstOrderRef liveReserve stray : ℕ} (hfirst : firstOrderRef < 2 ^ 64) :
    let v := new symbol stockLocate minTick maxTick wirePerTick firstOrderRef liveReserve stray
    Kept exact v.nextOrderRef [] [] [] [] v emptyDesk ∧ 0 < v.nextOrderRef := by
  have hnext : (if firstOrderRef = 0 then 1 else firstOrderRef) < 2 ^ 64 := by split_ifs <;> omega
  refine ⟨⟨⟨⟨FlatHashMap.wf_empty _, FlatHashMap.wf_empty _, ⟨by simp [Sides.Distinct, emptyDesk], by simp [emptyDesk],
    by simp [emptyDesk], by simp [emptyDesk], by simp [emptyDesk]⟩, by simp [new], by simp [new, emptyDesk],
    by simp [emptyDesk], by simp [emptyDesk], List.nodup_nil, by simp [new, emptyDesk], by simp [new, emptyDesk]⟩,
    OrderBook.queued_new ..⟩, fun _ _ _ => rfl, ?_, by simp, by simp, by simp [emptyDesk], ?_, by simp [emptyDesk],
    by simp [emptyDesk]⟩, ?_⟩
  · rw [List.length_nil, Nat.add_zero]
    exact (Nat.mod_eq_of_lt hnext).symm
  · rintro u ref ⟨⟩
  · unfold new
    simp only
    split_ifs <;> omega

end

end TickToTrade.Sim.Venue
