import TickToTrade.Dut.HostileRefs
import TickToTrade.Sim.TablesAgree

/-!
# What the market data of a venue says

The venue publishes a message about each of its own orders that comes to rest, trades, loses
shares or leaves; the tape's orders are told by the tape itself. `listed` is the table of orders
that a reader of these messages keeps, and `Listed` says that it has the venue's own resting
orders, with their sides, prices and shares. Within a call the engine runs ahead of the messages,
so that the table is right again only when the call returns.

## What is proved

* `own_orders_published` — after every call of an orderly run the table has exactly the venue's
  own resting orders: those of the clients, and the synthetic ones as long as no day has ended.
-/

namespace TickToTrade.Sim

open Util
open Dut.BookBuilder (account lessen)

/-- The record of a resting order that a reader of the messages keeps, when it has not been told
of the last `debt` shares. -/
def recordOf {K : Type*} (wirePerTick debt : ℕ) (s : Side) (o : Resting K) : Dut.Resting :=
  ⟨toPrice (wireOf wirePerTick o.price), o.qty + debt, s, false⟩

/-- The table has the orders with these references that rest, but for the shares of each that
never came to rest. -/
structure Lists {K : Type*} (refs : Set ℕ) (debt : ℕ → ℕ) (wirePerTick : ℕ) (f : FiniteMap Dut.Resting) (A : Sides K) :
    Prop where
  record : ∀ s, ∀ o ∈ A s, o.id ∈ refs → f.lookup o.id = some (recordOf wirePerTick (debt o.id) s o)
  absent : ∀ ref ∈ refs, (∀ s, ∀ o ∈ A s, o.id ≠ ref) → ∀ r, f.lookup ref = some r → r.shares ≤ debt ref
  alone : ∀ s o s' o', o ∈ A s → o' ∈ A s' → o.id ∈ refs → o.id = o'.id → o.key = o'.key

/-- A table in which every order has shares. -/
def Positive (f : FiniteMap Dut.Resting) : Prop := ∀ ref r, f.lookup ref = some r → 0 < r.shares

theorem Positive.insert {f : FiniteMap Dut.Resting} (h : Positive f) {ref : ℕ} {r : Dut.Resting} (hr : 0 < r.shares) :
    Positive (f.insert ref r) := by
  intro k r' hk
  by_cases hkr : k = ref
  · rw [hkr, Finmap.lookup_insert] at hk
    rwa [← Option.some.inj hk]
  · rw [Finmap.lookup_insert_of_ne _ hkr] at hk
    exact h k r' hk

theorem Positive.erase {f : FiniteMap Dut.Resting} (h : Positive f) (ref : ℕ) : Positive (f.erase ref) := by
  intro k r hk
  by_cases hkr : k = ref
  · rw [hkr, Finmap.lookup_erase] at hk
    cases hk
  · rw [Finmap.lookup_erase_ne hkr] at hk
    exact h k r hk

theorem Positive.lessen {f : FiniteMap Dut.Resting} (h : Positive f) (ref shares : ℕ) : Positive (lessen f ref shares) := by
  unfold Dut.BookBuilder.lessen
  cases f.lookup ref with
  | none => exact h
  | some r =>
      simp only
      split_ifs with hle
      · exact h.erase ref
      · exact h.insert (by simp only; omega)

theorem Positive.account {f : FiniteMap Dut.Resting} (h : Positive f) (m : Itch.Body) : Positive (account 0 f m) := by
  cases m with
  | addOrder ref s shares price =>
      simp only [Dut.BookBuilder.account]
      split_ifs with hzero
      · exact h
      · exact h.insert (Nat.pos_of_ne_zero hzero)
  | orderExecuted ref shares mn => exact h.lessen ref shares
  | orderExecutedWithPrice ref shares mn price => exact h.lessen ref shares
  | orderCancel ref shares => exact h.lessen ref shares
  | orderDelete ref => exact h.erase ref
  | orderReplace orig new shares price =>
      simp only [Dut.BookBuilder.account]
      cases f.lookup orig with
      | none => exact h
      | some r =>
          simp only
          split_ifs with hzero
          · exact h.erase orig
          · exact (h.erase orig).insert (Nat.pos_of_ne_zero hzero)
  | _ => exact h

theorem positive_fold (ms : List Itch.Body) {f : FiniteMap Dut.Resting} (h : Positive f) : Positive (ms.foldl (account 0) f) := by
  induction ms generalizing f with
  | nil => exact h
  | cons m ms ih => exact ih (h.account m)

theorem positive_empty : Positive ∅ := fun ref r hr => by
  rw [Finmap.lookup_empty] at hr
  cases hr

/-- What is left under a reference from which shares are taken. -/
theorem lookup_lessen (f : FiniteMap Dut.Resting) (ref shares k : ℕ) :
    (lessen f ref shares).lookup k = if k = ref then
      (f.lookup ref).bind fun r => if r.shares ≤ shares then none else some { r with shares := r.shares - shares }
      else f.lookup k := by
  unfold Dut.BookBuilder.lessen
  by_cases hk : k = ref
  · rw [if_pos hk, hk]
    cases hr : f.lookup ref with
    | none => simp only [hr, Option.bind_none]
    | some r =>
        simp only [Option.bind_some]
        split_ifs
        · exact Finmap.lookup_erase _ _
        · exact Finmap.lookup_insert _
  · rw [if_neg hk]
    cases f.lookup ref with
    | none => rfl
    | some r =>
        simp only
        split_ifs
        · exact Finmap.lookup_erase_ne hk
        · exact Finmap.lookup_insert_of_ne _ hk

/-- Shares that are taken do not come back. -/
theorem shares_le_of_lessen {f : FiniteMap Dut.Resting} {ref shares : ℕ} {r : Dut.Resting}
    (hr : (lessen f ref shares).lookup ref = some r) : ∃ r', f.lookup ref = some r' ∧ r.shares ≤ r'.shares := by
  rw [lookup_lessen, if_pos rfl] at hr
  obtain ⟨r', hr', hsome⟩ := Option.bind_eq_some_iff.mp hr
  split_ifs at hsome with hle
  refine ⟨r', hr', ?_⟩
  rw [← Option.some.inj hsome]
  exact Nat.sub_le ..

namespace Lists

variable {K : Type*} {refs : Set ℕ} {debt : ℕ → ℕ} {wirePerTick : ℕ} {f f' : FiniteMap Dut.Resting} {A A' : Sides K} {s : Side}
  {o : Resting K} {q : ℕ}

/-- Only the orders with the references matter, and what the table has for them. -/
theorem congr (h : Lists refs debt wirePerTick f A) (hA : ∀ s, ∀ o : Resting K, o.id ∈ refs → (o ∈ A' s ↔ o ∈ A s))
    (hf : ∀ ref ∈ refs, f'.lookup ref = f.lookup ref) : Lists refs debt wirePerTick f' A' where
  record s o ho hid := by
    rw [hf _ hid]
    exact h.record s o ((hA s o hid).mp ho) hid
  absent ref href hnone := by
    rw [hf _ href]
    refine h.absent ref href fun s o ho hid => ?_
    exact hnone s o ((hA s o (hid ▸ href)).mpr ho) hid
  alone s o s' o' ho ho' hid he :=
    h.alone s o s' o' ((hA s o hid).mp ho) ((hA s' o' (he ▸ hid)).mp ho') hid he

/-- No order has the reference, and what the table has under it never came to rest. -/
theorem aside (h : Lists refs debt wirePerTick f A) {ref : ℕ} (hno : ∀ s, ∀ o ∈ A s, o.id ≠ ref)
    (hf : ∀ k ≠ ref, f'.lookup k = f.lookup k) (hle : ∀ r, f'.lookup ref = some r → r.shares ≤ debt ref) :
    Lists refs debt wirePerTick f' A where
  record s o ho hid := by
    rw [hf _ (hno s o ho)]
    exact h.record s o ho hid
  absent k hin hnone r hr := by
    by_cases hk : k = ref
    · rw [hk] at hr ⊢
      exact hle r hr
    · rw [hf k hk] at hr
      exact h.absent k hin hnone r hr
  alone := h.alone

/-- The record of a reference whose order came to rest as it was told is that of its order. -/
theorem lookup_iff (h : Lists refs debt wirePerTick f A) (hpos : Positive f) {ref : ℕ} (href : ref ∈ refs) (hdebt : debt ref = 0)
    {r : Dut.Resting} : f.lookup ref = some r ↔ ∃ s, ∃ o ∈ A s, o.id = ref ∧ r = recordOf wirePerTick 0 s o := by
  constructor
  · intro hr
    by_contra hno
    push Not at hno
    by_cases hex : ∃ s, ∃ o ∈ A s, o.id = ref
    · obtain ⟨s, o, ho, rfl⟩ := hex
      rw [h.record s o ho href, hdebt] at hr
      exact hno s o ho rfl (Option.some.inj hr).symm
    · push Not at hex
      have hle := h.absent ref href hex r hr
      have := hpos ref r hr
      omega
  · rintro ⟨s, o, ho, rfl, rfl⟩
    rw [h.record s o ho href, hdebt]

variable [DecidableEq K]

/-- An order leaves; what the table keeps of it never came to rest. -/
theorem leave (h : Lists refs debt wirePerTick f A) (hd : A.Distinct) (ho : o ∈ A s)
    (hf : ∀ ref ≠ o.id, f'.lookup ref = f.lookup ref) (hleft : ∀ r, f'.lookup o.id = some r → r.shares ≤ debt o.id) :
    Lists refs debt wirePerTick f' (A.without s o.key) := by
  have hmem : ∀ {s' x}, x ∈ A.without s o.key s' ↔ x ∈ A s' ∧ x.key ≠ o.key := Sides.mem_without hd ho
  have hne : ∀ {s' x}, x ∈ A.without s o.key s' → x.id ∈ refs → x.id ≠ o.id := fun hx hid he =>
    (hmem.mp hx).2 (h.alone _ _ _ _ (hmem.mp hx).1 ho hid he)
  refine ⟨fun s' x hx hid => ?_, fun ref href hnone r hr => ?_, fun s' x s'' y hx hy => ?_⟩
  · rw [hf _ (hne hx hid)]
    exact h.record s' x (hmem.mp hx).1 hid
  · by_cases hid : ref = o.id
    · rw [hid] at hr ⊢
      exact hleft r hr
    · rw [hf ref hid] at hr
      refine h.absent ref href (fun s' x hx hxid => ?_) r hr
      by_cases hk : x.key = o.key
      · exact hid (by rw [← hxid, (hd hx ho hk).2])
      · exact hnone s' x (hmem.mpr ⟨hx, hk⟩) hxid
  · exact h.alone s' x s'' y (hmem.mp hx).1 (hmem.mp hy).1

/-- An order that leaves leaves the table. -/
theorem erase (h : Lists refs debt wirePerTick f A) (hd : A.Distinct) (ho : o ∈ A s) :
    Lists refs debt wirePerTick (f.erase o.id) (A.without s o.key) := by
  refine h.leave hd ho (fun ref hne => Finmap.lookup_erase_ne hne) fun r hr => ?_
  rw [Finmap.lookup_erase] at hr
  cases hr

/-- An order that comes to rest enters the table. -/
theorem rest (h : Lists refs debt wirePerTick f A) (hfresh : ∀ s', ∀ x ∈ A s', x.id ≠ o.id)
    (hf : ∀ ref ≠ o.id, f'.lookup ref = f.lookup ref) (ho : f'.lookup o.id = some (recordOf wirePerTick (debt o.id) s o)) :
    Lists refs debt wirePerTick f' (A.rested s o) := by
  refine ⟨fun s' x hx hid => ?_, fun ref href hnone => ?_, fun s' x s'' y hx hy hid he => ?_⟩
  · obtain hx | ⟨rfl, rfl⟩ := Sides.mem_rested_iff.mp hx
    · rw [hf _ (hfresh s' x hx)]
      exact h.record s' x hx hid
    · exact ho
  · have hr : ref ≠ o.id := fun he => hnone s o (Sides.mem_rested_iff.mpr (.inr ⟨rfl, rfl⟩)) he.symm
    rw [hf ref hr]
    exact h.absent ref href fun s' x hx => hnone s' x (Sides.mem_rested_iff.mpr (.inl hx))
  · obtain hx | ⟨-, hxo⟩ := Sides.mem_rested_iff.mp hx
    · obtain hy | ⟨-, hyo⟩ := Sides.mem_rested_iff.mp hy
      · exact h.alone s' x s'' y hx hy hid he
      · exact absurd (he.trans (congrArg _ hyo)) (hfresh s' x hx)
    · obtain hy | ⟨-, hyo⟩ := Sides.mem_rested_iff.mp hy
      · exact absurd (he.symm.trans (congrArg _ hxo)) (hfresh s'' y hy)
      · rw [hxo, hyo]

/-- An order that comes to rest as it is told. -/
theorem insert (h : Lists refs debt wirePerTick f A) (hfresh : ∀ s', ∀ x ∈ A s', x.id ≠ o.id) (hdebt : debt o.id = 0) :
    Lists refs debt wirePerTick (f.insert o.id (recordOf wirePerTick 0 s o)) (A.rested s o) :=
  h.rest hfresh (fun _ hne => Finmap.lookup_insert_of_ne _ hne) (by rw [Finmap.lookup_insert, hdebt])

/-- An order that keeps `q` shares keeps its record, with these. -/
theorem shrink (h : Lists refs debt wirePerTick f A) (hd : A.Distinct) (ho : o ∈ A s)
    (hf : ∀ ref ≠ o.id, f'.lookup ref = f.lookup ref)
    (hkept : o.id ∈ refs → f'.lookup o.id = some (recordOf wirePerTick (debt o.id) s { o with qty := q })) :
    Lists refs debt wirePerTick f' (A.resized s o.key q) := by
  have hmem : ∀ {s' x}, x ∈ A.resized s o.key q s' ↔ (x ∈ A s' ∧ x.key ≠ o.key) ∨ (s' = s ∧ x = { o with qty := q }) :=
    Sides.mem_resized hd ho
  have hold : ∀ {s' x}, x ∈ A.resized s o.key q s' → ∃ y ∈ A s', y.id = x.id ∧ y.key = x.key := by
    intro s' x hx
    obtain ⟨hx, -⟩ | ⟨rfl, rfl⟩ := hmem.mp hx
    · exact ⟨x, hx, rfl, rfl⟩
    · exact ⟨o, ho, rfl, rfl⟩
  refine ⟨fun s' x hx hid => ?_, fun ref href hnone => ?_, fun s' x s'' y hx hy hid he => ?_⟩
  · obtain ⟨hx, hk⟩ | ⟨rfl, rfl⟩ := hmem.mp hx
    · have hne : x.id ≠ o.id := fun he => hk (h.alone _ _ _ _ hx ho hid he)
      rw [hf _ hne]
      exact h.record s' x hx hid
    · exact hkept hid
  · have hr : ref ≠ o.id := fun he => hnone s _ (hmem.mpr (.inr ⟨rfl, rfl⟩)) he.symm
    rw [hf ref hr]
    refine h.absent ref href fun s' x hx hid => ?_
    refine hnone s' x (hmem.mpr (.inl ⟨hx, fun hk => hr ?_⟩)) hid
    rw [← hid, (hd hx ho hk).2]
  · obtain ⟨x', hx', hxid, hxk⟩ := hold hx
    obtain ⟨y', hy', hyid, hyk⟩ := hold hy
    rw [← hxk, ← hyk]
    exact h.alone s' x' s'' y' hx' hy' (by rw [hxid]; exact hid) (by rw [hxid, hyid, he])

/-- What the table keeps of an order from which shares are taken. -/
theorem lookup_lessen_record (h : Lists refs debt wirePerTick f A) (ho : o ∈ A s) (hid : o.id ∈ refs) (q : ℕ) :
    (Dut.BookBuilder.lessen f o.id q).lookup o.id = if o.qty + debt o.id ≤ q then none
      else some ⟨toPrice (wireOf wirePerTick o.price), o.qty + debt o.id - q, s, false⟩ := by
  rw [lookup_lessen, if_pos rfl, h.record s o ho hid]
  rfl

/-- The table after a message about all the shares that an order has, or more. -/
theorem lessen_all (h : Lists refs debt wirePerTick f A) (hd : A.Distinct) (ho : o ∈ A s) (hle : o.qty ≤ q) :
    Lists refs debt wirePerTick (Dut.BookBuilder.lessen f o.id q) (A.without s o.key) := by
  by_cases hid : o.id ∈ refs
  · refine h.leave hd ho (fun ref hne => by rw [lookup_lessen, if_neg hne]) fun r hr => ?_
    rw [h.lookup_lessen_record ho hid] at hr
    split_ifs at hr
    rw [← Option.some.inj hr]
    simp only
    omega
  · refine h.congr (fun s' x hx => ?_) fun ref href => ?_
    · rw [Sides.mem_without hd ho]
      exact ⟨fun hm => hm.1, fun hm => ⟨hm, fun hk => hid (by rw [← (hd hm ho hk).2]; exact hx)⟩⟩
    · rw [lookup_lessen, if_neg fun he : ref = o.id => hid (he ▸ href)]

/-- The table after a message about some of the shares that an order has. -/
theorem lessen_some (h : Lists refs debt wirePerTick f A) (hd : A.Distinct) (ho : o ∈ A s) (hlt : q < o.qty) :
    Lists refs debt wirePerTick (Dut.BookBuilder.lessen f o.id q) (A.resized s o.key (o.qty - q)) := by
  by_cases hid : o.id ∈ refs
  · refine h.shrink hd ho (fun ref hne => by rw [lookup_lessen, if_neg hne]) fun _ => ?_
    rw [h.lookup_lessen_record ho hid, if_neg (by omega), recordOf]
    simp only [Nat.sub_add_comm hlt.le]
  · refine h.congr (fun s' x hx => ?_) fun ref href => ?_
    · have hk : ∀ s', x ∈ A s' → x.key ≠ o.key := fun s' hmem hk => hid (by rw [← (hd hmem ho hk).2]; exact hx)
      rw [Sides.mem_resized hd ho]
      refine ⟨?_, fun hm => .inl ⟨hm, hk s' hm⟩⟩
      rintro (⟨hm, -⟩ | ⟨-, rfl⟩)
      · exact hm
      · exact absurd hx hid
    · rw [lookup_lessen, if_neg fun he : ref = o.id => hid (he ▸ href)]

/-- The table after a message about shares that an order has lost. -/
theorem lessen (h : Lists refs debt wirePerTick f A) (hd : A.Distinct) (ho : o ∈ A s) (hle : q ≤ o.qty) :
    Lists refs debt wirePerTick (lessen f o.id q) (A.less s o q) := by
  unfold Sides.less
  split_ifs with he
  · exact h.lessen_all hd ho he.ge
  · exact h.lessen_some hd ho (by omega)

/-- Trades, one after the other. -/
theorem hitsAll (h : Lists refs debt wirePerTick f A) (hd : A.Distinct) {ts : List Trade} (hts : A.HitsAll s ts A') :
    Lists refs debt wirePerTick (ts.foldl (fun f t => Dut.BookBuilder.lessen f t.restingId t.qty) f) A' := by
  induction ts generalizing f A with
  | nil =>
      cases hts
      exact h
  | cons t ts ih =>
      obtain ⟨A₁, ⟨o, ho, hid, -, hq, hle, -, rfl⟩, hts⟩ := hts
      rw [List.foldl_cons, hid]
      exact ih (h.lessen hd ho hle) (hd.less ho) hts

end Lists

namespace Venue

/-- The market data as the changes that it tells. -/
def bodies (v : Venue) : List Itch.Body := v.md.map Itch.Msg.body

/-- A table, and how many of the messages it has already. -/
structure Reader where
  table : FiniteMap Dut.Resting := ∅
  read : ℕ := 0

/-- The table when the rest of the market data is read. -/
def listed (v : Venue) (rd : Reader) : FiniteMap Dut.Resting := (v.bodies.drop rd.read).foldl (account 0) rd.table

/-- The table has the orders with these references that rest in the engine. -/
structure Listed (rd : Reader) (refs : Set ℕ) (debt : ℕ → ℕ) (v : Venue) : Prop where
  read : rd.read ≤ v.bodies.length
  queued : ∃ A, v.engine.Queued A ∧ Lists refs debt v.wirePerTick (v.listed rd) A

section

variable {exact : Prop} {rd : Reader} {refs : Set ℕ} {debt : ℕ → ℕ} {v w : Venue} {d d' : Desk ℕ} {s : Side} {o : Resting ℕ}
  {l : LiveOrder} {ref q user : ℕ} {tick : ℤ}

theorem listed_of_bodies (hr : rd.read ≤ v.bodies.length) {ms : List Itch.Body} (h : w.bodies = v.bodies ++ ms) :
    w.listed rd = ms.foldl (account 0) (v.listed rd) ∧ rd.read ≤ w.bodies.length := by
  refine ⟨?_, ?_⟩
  · rw [listed, h, List.drop_append_of_le_length hr, List.foldl_append]
    rfl
  · rw [h, List.length_append]
    omega

theorem bodies_of_sent (h : w.sent = v.sent) : w.bodies = v.bodies := by
  unfold bodies md
  rw [h]

theorem listed_of_sent (h : w.sent = v.sent) : w.listed rd = v.listed rd := by
  unfold listed
  rw [bodies_of_sent h]

theorem Tells.bodies {msgs : List Sent} (h : Tells v msgs w) :
    w.bodies = v.bodies ++ (msgs.filterMap Sent.data?).map Itch.Msg.body := by
  rw [Venue.bodies, h.md_eq, List.map_append]
  rfl

theorem Tells.bodies_nil (h : Tells v [] w) : w.bodies = v.bodies := h.bodies.trans (List.append_nil _)

theorem Tells.listed {msgs : List Sent} (h : Tells v msgs w) (hr : rd.read ≤ v.bodies.length) :
    w.listed rd = ((msgs.filterMap Sent.data?).map Itch.Msg.body).foldl (account 0) (v.listed rd) ∧
      rd.read ≤ w.bodies.length :=
  listed_of_bodies hr h.bodies

/-- A message of the market data. -/
theorem listed_sendMd (hr : rd.read ≤ v.bodies.length) (m : Itch.Body) :
    (v.sendMd m).listed rd = account 0 (v.listed rd) m ∧ rd.read ≤ (v.sendMd m).bodies.length :=
  (Tells.sendMd v m).listed hr

theorem Follows.listed {xs : List (Deed ℕ)} (h : Follows exact v d xs w d') (hr : rd.read ≤ v.bodies.length) :
    w.listed rd = (xs.flatMap (Deed.md v.wirePerTick)).foldl (account 0) (v.listed rd) ∧ rd.read ≤ w.bodies.length :=
  listed_of_bodies hr h.md

namespace Listed

/-- The orders of the engine are the ones that the table has, however they are written down. -/
theorem lists (h : Listed rd refs debt v) {A : Sides ℕ} (hb : v.engine.Queued A) :
    Lists refs debt v.wirePerTick (v.listed rd) A := by
  obtain ⟨A', hb', h⟩ := h.queued
  exact h.congr (fun _ _ _ => hb.mem_iff hb') fun _ _ => rfl

theorem tells (h : Listed rd refs debt v) {msgs : List Sent} (hw : Tells v msgs w) (hmsgs : msgs.filterMap Sent.data? = []) :
    Listed rd refs debt w := by
  obtain ⟨hr, A, hb, h⟩ := h
  obtain ⟨hlisted, hr'⟩ := hw.listed hr
  refine ⟨hr', A, by rw [hw.engine]; exact hb, ?_⟩
  rw [hlisted, hmsgs, hw.steady.wirePerTick]
  exact h

/-- What is sent and what the engine has are all that matters. -/
theorem same (h : Listed rd refs debt v) (hsent : w.sent = v.sent) (hengine : w.engine = v.engine)
    (hwire : w.wirePerTick = v.wirePerTick) : Listed rd refs debt w := by
  obtain ⟨hr, A, hb, h⟩ := h
  refine ⟨by rw [bodies_of_sent hsent]; exact hr, A, by rw [hengine]; exact hb, ?_⟩
  rw [listed_of_sent hsent, hwire]
  exact h

/-- The engine drops or shrinks an order of the tape. -/
theorem other (h : Listed rd refs debt v) {A A' : Sides ℕ} (hb : v.engine.Queued A) (hb' : w.engine.Queued A')
    (hsent : w.sent = v.sent) (hwire : w.wirePerTick = v.wirePerTick)
    (hA : ∀ s, ∀ o : Resting ℕ, o.id ∈ refs → (o ∈ A' s ↔ o ∈ A s)) : Listed rd refs debt w := by
  refine ⟨by rw [bodies_of_sent hsent]; exact h.read, A', hb', ?_⟩
  rw [listed_of_sent hsent, hwire]
  exact (h.lists hb).congr hA fun _ _ => rfl

/-- The deed that a trade is. -/
theorem hit (h : Listed rd refs debt v) (hs : Stands exact v d) {agg owner : Option ℕ} {n : ℕ} (ho : o ∈ d.orders s)
    (hle : q ≤ o.qty) (hf : Follows exact v d [.hit s o q agg owner n] w (d.lose s o q)) : Listed rd refs debt w := by
  obtain ⟨hlisted, hr⟩ := hf.listed h.read
  refine ⟨hr, _, hf.queued, ?_⟩
  rw [hlisted, hf.steady.wirePerTick, Desk.orders_lose]
  exact (h.lists hs.queued).lessen hs.sound.distinct ho hle

/-- The deed that a cancelled order is. -/
theorem leave (h : Listed rd refs debt v) (hs : Stands exact v d) {owner : Option ℕ} {how : Leaving} (ho : o ∈ d.orders s)
    (hhow : how ≠ .quiet) (hf : Follows exact v d [.leave s o owner how] w (d.leave s o)) : Listed rd refs debt w := by
  obtain ⟨hlisted, hr⟩ := hf.listed h.read
  refine ⟨hr, _, hf.queued, ?_⟩
  rw [hlisted, hf.steady.wirePerTick]
  cases how with
  | quiet => exact absurd rfl hhow
  | canceled r => exact (h.lists hs.queued).erase hs.sound.distinct ho
  | deleted => exact (h.lists hs.queued).erase hs.sound.distinct ho

end Listed

/-! ### New orders -/

/-- A trade of the engine is told by its shares. -/
theorem handleTrade_listed (client : Bool) (user : ℕ) (v : Venue) (t : Trade) (hr : rd.read ≤ v.bodies.length) :
    (handleTrade client user v t).listed rd = lessen (v.listed rd) t.restingId t.qty ∧
      rd.read ≤ (handleTrade client user v t).bodies.length := by
  obtain ⟨hlisted, hr'⟩ := (tells_reportTrade client user v t).listed hr
  have hsame := (settleTrade_same (reportTrade client user v t) t).1
  rw [handleTrade_eq, listed_of_sent hsame, bodies_of_sent hsame, hlisted, data_tradeMsgs]
  exact ⟨rfl, hr'⟩

theorem handleTrades_listed (client : Bool) (user : ℕ) (ts : List Trade) (v : Venue) (hr : rd.read ≤ v.bodies.length) :
    (ts.foldl (handleTrade client user) v).listed rd = ts.foldl (fun f t => lessen f t.restingId t.qty) (v.listed rd) ∧
      rd.read ≤ (ts.foldl (handleTrade client user) v).bodies.length ∧
      (ts.foldl (handleTrade client user) v).engine = v.engine ∧
      (ts.foldl (handleTrade client user) v).wirePerTick = v.wirePerTick := by
  induction ts generalizing v with
  | nil => exact ⟨rfl, hr, rfl, rfl⟩
  | cons t ts ih =>
      obtain ⟨hone, hr'⟩ := handleTrade_listed client user v t hr
      obtain ⟨hlisted, hread, hengine, hwire⟩ := ih (handleTrade client user v t) hr'
      have hsteady : Steady v (handleTrade client user v t) := by
        rw [handleTrade_eq]
        exact (tells_reportTrade ..).steady.trans (settleTrade_same ..).2.2
      exact ⟨hlisted.trans (by rw [hone]; rfl), hread, hengine.trans (handleTrade_engine ..), hwire.trans hsteady.wirePerTick⟩

/-- **A new order trades and rests**: what it trades and what is left of it is told. -/
theorem Listed.processOrder (h : Listed rd refs debt v) (hb : v.engine.Queued d.orders)
    (hfresh : ∀ s', ∀ x ∈ d.orders s', x.id ≠ ref) (hdebt : debt ref = 0) (s : Side) (tick : ℤ) (q : ℕ) (client : Bool)
    (user : ℕ) : Listed rd refs debt (v.processOrder ref s tick q client user) := by
  by_cases hout : q = 0 ∨ ¬ v.engine.InRange tick
  · rw [processOrder_out client hout]
    exact h
  obtain ⟨hq, hp⟩ := not_or.mp hout
  obtain ⟨k, b, left, ts, A₁, heq, hts, -, -, hend⟩ := hb.add ref s hq (not_not.mp hp)
  have hlists := (h.lists hb).hitsAll hb.distinct hts
  obtain ⟨hlisted, hread, hengine, hwire⟩ := handleTrades_listed client user ts { v with engine := b } h.read
  unfold Venue.processOrder
  rw [heq]
  simp only
  generalize ts.foldl (handleTrade client user) { v with engine := b } = w at hlisted hread hengine hwire ⊢
  have hw : Lists refs debt w.wirePerTick (w.listed rd) A₁ := by
    rw [hlisted, hwire]
    exact hlists
  obtain ⟨rfl, -, hb₁⟩ | ⟨k, rfl, hleft, -, hb₁, hshares⟩ := hend
  · exact ⟨hread, A₁, by rw [hengine]; exact hb₁, hw⟩
  · have hfresh₁ : ∀ s', ∀ x ∈ A₁ s', x.id ≠ ref := fun s' x hx hid => by
      obtain ⟨y, hy, hyid⟩ := Sides.mem_hitsAll hb.distinct hts hx
      exact hfresh s' y hy (hyid.trans hid)
    obtain ⟨htold, hread'⟩ := listed_sendMd hread (.addOrder ref s (w.engine.order k).qty (w.tickToWire tick))
    have hadd : (w.emitItchAdd ref s tick (w.engine.order k).qty).listed rd =
        (w.listed rd).insert ref (recordOf w.wirePerTick 0 s (⟨k, ref, tick, left⟩ : Resting ℕ)) := by
      refine htold.trans ?_
      rw [hengine, hshares]
      exact if_neg (Nat.ne_of_gt hleft)
    have hall : Listed rd refs debt (w.emitItchAdd ref s tick (w.engine.order k).qty) := by
      refine ⟨hread', A₁.rested s ⟨k, ref, tick, left⟩, ?_, ?_⟩
      · change w.engine.Queued _
        rw [hengine]
        exact hb₁
      · rw [hadd]
        exact hw.insert (o := (⟨k, ref, tick, left⟩ : Resting ℕ)) hfresh₁ hdebt
    split_ifs
    · exact hall.same rfl rfl rfl
    · exact hall.same rfl rfl rfl

theorem Listed.processImmediate (h : Listed rd refs debt v) (hb : v.engine.Queued d.orders) (ref : ℕ) (s : Side) (tick : ℤ) (q user : ℕ) :
    Listed rd refs debt (v.processImmediate ref s tick q user) := by
  by_cases hout : q = 0 ∨ ¬ v.engine.InRange tick
  · rw [processImmediate_out hout]
    exact h
  obtain ⟨hq, hp⟩ := not_or.mp hout
  obtain ⟨b, left, ts, A₁, heq, hb₁, hts, -, -⟩ := hb.match ref s hq (not_not.mp hp)
  have hlists := (h.lists hb).hitsAll hb.distinct hts
  obtain ⟨hlisted, hread, hengine, hwire⟩ := handleTrades_listed true user ts { v with engine := b } h.read
  unfold Venue.processImmediate
  rw [heq]
  simp only
  generalize ts.foldl (handleTrade true user) { v with engine := b } = w at hlisted hread hengine hwire ⊢
  have hw : Listed rd refs debt w := by
    refine ⟨hread, A₁, by rw [hengine]; exact hb₁, ?_⟩
    rw [hlisted, hwire]
    exact hlists
  split_ifs
  · exact hw.tells (Tells.sendOe w _) rfl
  · exact hw

/-! ### The tape -/

/-- A client's order that trades with the tape is told. -/
theorem Listed.fillClient (h : Listed rd refs debt v) (hs : Stands exact v d) (hl : v.live.get? ref = some l)
    (href : ref ∈ v.clientRefs) (hq : 0 < q) (hle : q ≤ v.qtyAt l.handle) :
    Listed rd refs debt (v.fillClient ref q) ∧ ∃ d', Stands exact (v.fillClient ref q) d' := by
  obtain ⟨o, ho, -, -, hhandle, -, hf⟩ := fillClient_calms hs hl href hq hle
  have hcur : v.qtyAt l.handle = o.qty := by
    rw [hhandle]
    exact hs.queued.order_qty ho
  exact ⟨h.hit hs ho (hcur ▸ hle) hf, _, hf.stands⟩

/-- The shares of a client's order. -/
theorem Stands.client_pos (hs : Stands exact v d) (hl : v.live.get? ref = some l) (href : ref ∈ v.clientRefs) :
    0 < v.qtyAt l.handle := by
  obtain ⟨l', hl', -, hne⟩ := hs.client href
  rw [← FlatHashMap.lookup_eq_get? _ hne] at hl
  obtain ⟨o, ho, -, -, -, hqty⟩ := hs.order_of_live hl
  rw [hqty]
  exact hs.sound.pos _ o ho

theorem Listed.crossLoop (h : Listed rd refs debt v) (hs : Stands exact v d) (s : Side) (tick : ℤ) (fuel q : ℕ) :
    Listed rd refs debt (Venue.crossLoop s tick fuel v q).2 := by
  induction fuel generalizing v d q with
  | zero => exact h
  | succ fuel ih =>
      unfold Venue.crossLoop
      simp only
      by_cases hq : q = 0
      · rw [if_pos hq]
        exact h
      rw [if_neg hq]
      by_cases hbest : (v.bestClient s tick).1 = 0
      · rw [if_pos hbest]
        exact h
      · rw [if_neg hbest]
        obtain ⟨hmem, l, hl, hhandle⟩ := bestClient_mem v s tick hbest
        rw [← hhandle]
        have hpos := hs.client_pos hl hmem
        have hcount := Tells.count v fun m => { m with crossFills := inc64 m.crossFills }
        generalize hf : (if q < v.qtyAt l.handle then q else v.qtyAt l.handle) = fill
        have hfill : 0 < fill ∧ fill ≤ v.qtyAt l.handle := by
          rw [← hf]
          split_ifs <;> omega
        obtain ⟨h', d', hs'⟩ := (h.tells hcount rfl).fillClient (hs.tells hcount) hl hmem hfill.1 hfill.2
        exact ih h' hs' (q - fill)

theorem Listed.shadowLoop (h : Listed rd refs debt v) (hs : Stands exact v d) (s : Side) (tick : ℤ) (realRef fuel i q : ℕ) :
    Listed rd refs debt (Venue.shadowLoop s tick realRef fuel i v q) := by
  induction fuel generalizing v d i q with
  | zero => exact h
  | succ fuel ih =>
      unfold Venue.shadowLoop
      by_cases hgo : i < v.clientRefs.length ∧ q > 0
      · rw [if_pos hgo]
        have hmem : v.clientRefs.getD i 0 ∈ v.clientRefs := by
          rw [List.getD_eq_getElem _ _ hgo.1]
          exact List.getElem_mem hgo.1
        simp only
        cases hl : v.live.get? (v.clientRefs.getD i 0) with
        | none => exact ih h hs (i + 1) q
        | some l =>
            simp only
            by_cases hskip : l.side ≠ s ∨ ¬ v.isAhead s tick realRef (v.clientRefs.getD i 0) l
            · rw [if_pos hskip]
              exact ih h hs (i + 1) q
            rw [if_neg hskip]
            have hpos := hs.client_pos hl hmem
            generalize hf : (if q < v.qtyAt l.handle then q else v.qtyAt l.handle) = fill
            have hfill : 0 < fill ∧ fill ≤ v.qtyAt l.handle := by
              rw [← hf]
              split_ifs <;> omega
            have hcount := Tells.count v fun m =>
              { m with shadowFills := inc64 m.shadowFills, shadowShares := (m.shadowShares + fill) % 2 ^ 64 }
            obtain ⟨h', d', hs'⟩ := (h.tells hcount rfl).fillClient (hs.tells hcount) hl hmem hfill.1 hfill.2
            exact ih h' hs' _ (q - fill)
      · rw [if_neg hgo]
        exact h

/-- A tape order that leaves is in no message of the venue. -/
theorem Listed.removeReal (h : Listed rd refs debt v) (hs : Stands exact v d) (href : ref ≠ 0) (hl : v.live.get? ref = some l)
    (hnone : d.owner ref = none) (hout : ref ∉ refs) : Listed rd refs debt (v.removeReal ref l) := by
  obtain ⟨o, ho, rfl, hf⟩ := removeReal_calms hs href hl hnone
  obtain ⟨hlisted, hread⟩ := hf.listed h.read
  refine ⟨hread, _, hf.queued, ?_⟩
  rw [hlisted, hf.steady.wirePerTick]
  refine (h.lists hs.queued).congr (fun s' x hx => ?_) fun _ _ => rfl
  refine (Sides.mem_without hs.sound.distinct ho).trans ⟨fun hm => hm.1, fun hm => ⟨hm, fun hk => hout ?_⟩⟩
  rw [← (hs.sound.distinct hm ho hk).2]
  exact hx

theorem Listed.takeShares (h : Listed rd refs debt v) (hs : Stands exact v d) (href : ref ≠ 0) (hl : v.live.get? ref = some l)
    (hnone : d.owner ref = none) (hout : ref ∉ refs) (shares : ℕ) : Listed rd refs debt (v.takeShares ref shares l) := by
  obtain ⟨o, ho, hid, hhandle, -, hqty⟩ := hs.order_of_live (by rwa [FlatHashMap.lookup_eq_get? _ href])
  unfold Venue.takeShares
  simp only [hqty]
  generalize hw : (if shares > o.qty then v.count fun m => { m with overReduce := inc64 m.overReduce } else v) = w
  have htells : Tells v [] w := by
    rw [← hw]
    split_ifs
    · exact Tells.count v _
    · exact Tells.refl v
  have hsw := hs.tells htells
  have h' := h.tells htells rfl
  split_ifs with hall
  · exact h'.removeReal hsw href (by rw [htells.live]; exact hl) hnone hout
  · rw [hhandle]
    by_cases hzero : shares = 0
    · have hsame : (w.engineReduce (some o.key) (o.qty - shares)).2 = w := by
        simp only [engineReduce, hsw.queued.reduce_of_le ho (show o.qty ≤ o.qty - shares by omega)]
      rw [hsame]
      exact h'
    · obtain ⟨b, heq, hb, -⟩ := engineReduce_eq hsw ho (q := o.qty - shares) (by omega) (by omega)
      rw [heq]
      refine h'.other hsw.queued hb rfl rfl fun s' x hx => ?_
      rw [Sides.mem_resized hsw.sound.distinct ho]
      constructor
      · rintro (⟨hm, -⟩ | ⟨-, rfl⟩)
        · exact hm
        · exact absurd (hid ▸ hx) hout
      · refine fun hm => .inl ⟨hm, fun hk => hout ?_⟩
        rw [← hid, ← (hsw.sound.distinct hm ho hk).2]
        exact hx

/-- A message of the tape about an order that the table has, or has not. -/
theorem Listed.known (h : Listed rd refs debt v) (hs : Stands exact v d) (hnone : d.owner ref = none) (f : MirrorStats → MirrorStats)
    (g : Venue → LiveOrder → Venue)
    (hg : ∀ w l, Stands exact w d → Listed rd refs debt w → w.live.get? ref = some l → d.owner ref = none → Listed rd refs debt (g w l)) :
    Listed rd refs debt (match (v.count f).live.get? ref with
      | none => (v.count f).count fun m => { m with unknownRef := inc64 m.unknownRef }
      | some l => g (v.count f) l) := by
  have hcount := Tells.count v f
  cases hl : (v.count f).live.get? ref with
  | none => exact (h.tells hcount rfl).tells (Tells.count _ _) rfl
  | some l => exact hg _ l (hs.tells hcount) (h.tells hcount rfl) hl hnone

theorem Listed.mirrorExecute (h : Listed rd refs debt v) (hs : Stands exact v d) (href : ref ≠ 0) (hnone : d.owner ref = none)
    (hout : ref ∉ refs) (shares : ℕ) : Listed rd refs debt (v.mirrorExecute ref shares) := by
  refine h.known hs hnone (fun m => { m with executes := inc64 m.executes }) (fun w l =>
    (if w.clientRefs ≠ [] then w.shadowFill l.side l.tick ref shares else w).takeShares ref shares l)
    fun w l hsw hw hl hnone => ?_
  split_ifs
  · obtain ⟨d₁, hcalms, hspares⟩ := shadowLoop_calms hsw l.side l.tick ref w.clientRefs.length 0 shares
    exact (hw.shadowLoop hsw l.side l.tick ref _ 0 shares).takeShares hcalms.stands href
      ((hspares.live ref href hnone).trans hl) (hspares.owner ref hnone) hout shares
  · exact hw.takeShares hsw href hl hnone hout shares

theorem Listed.mirrorCancel (h : Listed rd refs debt v) (hs : Stands exact v d) (href : ref ≠ 0) (hnone : d.owner ref = none)
    (hout : ref ∉ refs) (shares : ℕ) : Listed rd refs debt (v.mirrorCancel ref shares) :=
  h.known hs hnone (fun m => { m with cancels := inc64 m.cancels }) _ fun _ _ hsw hw hl hnone =>
    hw.takeShares hsw href hl hnone hout shares

theorem Listed.mirrorDelete (h : Listed rd refs debt v) (hs : Stands exact v d) (href : ref ≠ 0) (hnone : d.owner ref = none)
    (hout : ref ∉ refs) : Listed rd refs debt (v.mirrorDelete ref) :=
  h.known hs hnone (fun m => { m with deletes := inc64 m.deletes }) _ fun _ _ hsw hw hl hnone =>
    hw.removeReal hsw href hl hnone hout

/-- A tape order that comes to rest is in no message of the venue. -/
theorem Listed.mirrorAdd (h : Listed rd refs debt v) (hs : Stands exact v d) (hout : ref ∉ refs) (s : Side) (wire q : ℕ) :
    Listed rd refs debt (v.mirrorAdd ref s wire q) := by
  have hcount := Tells.count v fun m => { m with adds := inc64 m.adds }
  have hs₁ := hs.tells hcount
  have h₁ := h.tells hcount rfl
  unfold Venue.mirrorAdd
  simp only
  generalize v.count _ = w at hs₁ h₁ ⊢
  cases w.validPrice wire with
  | none => exact h₁.tells (Tells.count w _) rfl
  | some tick =>
      simp only
      have hcross : Listed rd refs debt (if w.clientRefs ≠ [] then w.crossClients s tick q else (q, w)).2 ∧
          ∃ d', Stands exact (if w.clientRefs ≠ [] then w.crossClients s tick q else (q, w)).2 d' := by
        split_ifs
        · obtain ⟨d₁, hcalms, -⟩ := crossLoop_calms hs₁ s tick (w.clientRefs.length + 1) q
          exact ⟨h₁.crossLoop hs₁ s tick _ q, d₁, hcalms.stands⟩
        · exact ⟨h₁, d, hs₁⟩
      generalize (if w.clientRefs ≠ [] then w.crossClients s tick q else (q, w)) = x at hcross ⊢
      obtain ⟨h₂, d₁, hs₂⟩ := hcross
      by_cases hrem : x.1 = 0
      · rw [if_pos hrem]
        exact h₂
      rw [if_neg hrem]
      by_cases hp : x.2.engine.InRange tick
      · obtain ⟨k, b, heq, -, hb, -⟩ := hs₂.queued.place ref s hrem hp
        rw [heq]
        refine h₂.other hs₂.queued hb rfl rfl fun s' y hy => ?_
        rw [Sides.mem_rested_iff]
        refine ⟨?_, .inl⟩
        rintro (hm | ⟨-, rfl⟩)
        · exact hm
        · exact absurd hy hout
      · unfold OrderBook.place
        rw [if_pos (.inr hp)]
        exact h₂.same rfl rfl rfl

theorem Listed.mirrorReplace (h : Listed rd refs debt v) (hs : Stands exact v d) {orig : ℕ} (horig : orig ≠ 0)
    (horigNone : d.owner orig = none) (horigOut : orig ∉ refs) (hout : ref ∉ refs) (shares wire : ℕ) :
    Listed rd refs debt (v.mirrorReplace orig ref shares wire) := by
  refine h.known hs horigNone (fun m => { m with replaces := inc64 m.replaces }) (fun w l =>
    ((w.removeReal orig l).count fun m => { m with adds := dec64 m.adds }).mirrorAdd ref l.side wire shares)
    fun w l hsw hw hl hnone => ?_
  obtain ⟨o, -, -, hf⟩ := removeReal_calms hsw horig hl hnone
  have hcount := Tells.count (w.removeReal orig l) fun m => { m with adds := dec64 m.adds }
  exact ((hw.removeReal hsw horig hl hnone horigOut).tells hcount rfl).mirrorAdd (hf.stands.tells hcount) hout l.side wire
    shares

/-! ### Requests and the end of a day -/

theorem Listed.onEnterOrder (h : Listed rd refs debt v) (hs : Stands exact v d) (m : Ouch.EnterOrder)
    (hfresh : (v.onEnterOrder m).nextOrderRef ≠ v.nextOrderRef → Unused v d ∧ debt v.nextOrderRef = 0) :
    Listed rd refs debt (v.onEnterOrder m) := by
  unfold Venue.onEnterOrder at hfresh ⊢
  simp only at hfresh ⊢
  cases hside : parseSide m.side with
  | none => exact h.tells (Tells.sendOe v _) rfl
  | some s =>
      simp only [hside] at hfresh ⊢
      by_cases hq : m.quantity = 0
      · rw [if_pos hq]
        exact h.tells (Tells.sendOe v _) rfl
      rw [if_neg hq] at hfresh ⊢
      by_cases hsym : m.symbol ≠ v.symbol
      · rw [if_pos hsym]
        exact h.tells (Tells.sendOe v _) rfl
      rw [if_neg hsym] at hfresh ⊢
      cases hp : v.validPrice m.price with
      | none => exact h.tells (Tells.sendOe v _) rfl
      | some tick =>
          simp only [hp, takeRef] at hfresh ⊢
          obtain ⟨⟨-, hfresh⟩, hdebt⟩ := hfresh (by
            split_ifs
            · rw [nextOrderRef_processImmediate]; exact inc64_ne _
            · rw [nextOrderRef_processOrder]; exact inc64_ne _)
          have haccepted : ∀ st, Listed rd refs debt (emitAccepted { v with nextOrderRef := inc64 v.nextOrderRef } m v.nextOrderRef st) :=
            fun st => (h.same rfl rfl rfl : Listed rd refs debt { v with nextOrderRef := inc64 v.nextOrderRef }).tells (Tells.sendOe _ _) rfl
          split_ifs
          · exact (haccepted .dead).processImmediate hs.queued ..
          · exact (haccepted .live).processOrder hs.queued hfresh hdebt ..

theorem Listed.onCancelOrder (h : Listed rd refs debt v) (hs : Stands exact v d) (m : Ouch.CancelOrder) (huser : m.userRefNum ≠ 0) :
    Listed rd refs debt (v.onCancelOrder m) := by
  unfold Venue.onCancelOrder
  simp only
  cases href : v.byUserRef.get? m.userRefNum with
  | none => exact h.tells (Tells.sendOe v _) rfl
  | some ref =>
      obtain ⟨l, hl, hclient, hu, hne⟩ := hs.order_of_user huser href
      simp only [hl]
      obtain ⟨o, ho, hid, hhandle, -, hqty⟩ := hs.order_of_live (by rwa [FlatHashMap.lookup_eq_get? _ hne])
      rw [hqty]
      by_cases hge : m.quantity ≥ o.qty
      · rw [if_pos hge]
        exact h.tells (Tells.sendOe v _) rfl
      rw [if_neg hge]
      by_cases hzero : m.quantity = 0
      · rw [if_pos hzero, ← hu]
        obtain ⟨o', ho', -, hf⟩ := cancelClient_follows hs hl hclient hne .userRequested
        exact h.leave hs ho' (by simp) hf
      · rw [if_neg hzero, hhandle]
        obtain ⟨b, heq, hb, -⟩ := engineReduce_eq hs ho (q := m.quantity) (by omega) (by omega)
        rw [heq]
        -- the message tells the shares that have gone
        have hless : d.orders.less l.side o (o.qty - m.quantity) = d.orders.resized l.side o.key m.quantity := by
          unfold Sides.less
          rw [if_neg (by omega), Nat.sub_sub_self (by omega)]
        have hlists := (h.lists hs.queued).lessen hs.sound.distinct ho (q := o.qty - m.quantity) (by omega)
        rw [hless, hid] at hlists
        obtain ⟨hlisted, hread⟩ := listed_sendMd (v := { v with engine := b }) h.read (.orderCancel ref (o.qty - m.quantity))
        have htold : Listed rd refs debt (emitItchCancel { v with engine := b } ref (o.qty - m.quantity)) :=
          ⟨hread, _, hb, by rw [emitItchCancel, hlisted]; exact hlists⟩
        exact htold.tells (Tells.sendOe _ _) rfl

/-- The last part of a replacement: the old order has left the engine, and the messages tell
it. -/
theorem Listed.arriveReplaced {A : Sides ℕ} (hr : rd.read ≤ v.bodies.length)
    (hlists : Lists refs debt v.wirePerTick (v.listed rd) A) (hA : A.Distinct)
    (ho : o ∈ A s) (hb : v.engine.Queued (A.without s o.key)) (hfresh : ∀ s', ∀ x ∈ A s', x.id ≠ ref) (hdebt : debt ref = 0)
    (tick : ℤ) (hq : q ≠ 0) (hp : v.engine.InRange tick) (hwas : o.id ∈ refs) (user : ℕ) :
    Listed rd refs debt (v.arriveReplaced o.id ref s tick q user) := by
  have hfresh' : ∀ s', ∀ x ∈ A.without s o.key s', x.id ≠ ref := fun s' x hx =>
    hfresh s' x ((Sides.mem_without hA ho).mp hx).1
  have hleft := hlists.erase hA ho
  unfold Venue.arriveReplaced
  by_cases hmarket : v.isMarketable s tick
  · rw [if_pos hmarket]
    obtain ⟨hlisted, hread⟩ := listed_sendMd hr (.orderDelete o.id)
    have hdeleted : Listed rd refs debt (v.emitItchDelete o.id) :=
      ⟨hread, _, hb, by rw [emitItchDelete, hlisted]; exact hleft⟩
    exact hdeleted.processOrder (d := ⟨A.without s o.key, fun _ => none, fun _ => 0⟩) hb hfresh' hdebt ..
  · rw [if_neg hmarket]
    have hts := add_quiet (by simpa using hmarket) (q := q) ref
    obtain ⟨k, b, left, ts, A₁, heq, hhits, hsum, -, hend⟩ := hb.add ref s hq hp
    rw [heq] at hts ⊢
    obtain rfl : ts = [] := hts
    obtain rfl : A₁ = A.without s o.key := hhits
    obtain rfl : left = q := hsum
    obtain ⟨-, hzero, -⟩ | ⟨k, rfl, hleftq, -, hb₁, -⟩ := hend
    · exact absurd hzero hq
    have hrest := hleft.insert (s := s) (o := (⟨k, ref, tick, left⟩ : Resting ℕ)) hfresh' hdebt
    obtain ⟨hlisted, hread⟩ := listed_sendMd (v := { v with engine := b }) hr (.orderReplace o.id ref left (wireOf v.wirePerTick tick))
    have htold : (emitItchReplace { v with engine := b } o.id ref left tick).listed rd =
        ((v.listed rd).erase o.id).insert ref (recordOf v.wirePerTick 0 s (⟨k, ref, tick, left⟩ : Resting ℕ)) := by
      refine hlisted.trans ?_
      change account 0 (v.listed rd) _ = _
      simp only [account, hlists.record s o ho hwas]
      rw [if_neg hq]
      rfl
    have hall : Listed rd refs debt (emitItchReplace { v with engine := b } o.id ref left tick) :=
      ⟨hread, _, hb₁, by rw [htold]; exact hrest⟩
    exact hall.same rfl rfl rfl

theorem Listed.onReplaceOrder (h : Listed rd refs debt v) (hs : Stands exact v d) (m : Ouch.ReplaceOrder)
    (hfresh : (v.onReplaceOrder m).nextOrderRef ≠ v.nextOrderRef → Unused v d ∧ debt v.nextOrderRef = 0) (horig : m.origUserRefNum ≠ 0)
    (hfair : v.Fair) (hrefs : ∀ r u, d.owner r = some u → r ∈ refs) : Listed rd refs debt (v.onReplaceOrder m) := by
  unfold Venue.onReplaceOrder at hfresh ⊢
  simp only at hfresh ⊢
  cases hby : v.byUserRef.get? m.origUserRefNum with
  | none => exact h.tells (Tells.sendOe v _) rfl
  | some origRef =>
      obtain ⟨l, hl, hclient, -, hne⟩ := hs.order_of_user horig hby
      simp only [hby, hl] at hfresh ⊢
      by_cases hq : m.quantity = 0
      · rw [if_pos hq]
        exact h.tells (Tells.sendOe v _) rfl
      rw [if_neg hq] at hfresh ⊢
      cases hp : v.validPrice m.price with
      | none => exact h.tells (Tells.sendOe v _) rfl
      | some tick =>
          simp only [hp, takeRef] at hfresh ⊢
          obtain ⟨o, ho, rfl, howner, -, hleave⟩ := dropClient_stands hs hl hclient hne
          obtain ⟨hstands, hsent, hsteady⟩ := hleave [] _ (Tells.refl _)
          rw [List.append_nil] at hsent
          generalize (v.engineCancel l.handle).2.dropClient o.id l = w at hstands hsent hsteady hfresh ⊢
          rw [hsteady.nextOrderRef] at hfresh ⊢
          obtain ⟨⟨-, hfresh⟩, hdebt⟩ := hfresh fun he =>
            inc64_ne _ ((nextOrderRef_arriveReplaced _ o.id _ l.side tick m.quantity m.userRefNum).symm.trans he)
          have hlists := h.lists hs.queued
          rw [← hsteady.wirePerTick, ← listed_of_sent hsent] at hlists
          have hread : rd.read ≤ w.bodies.length := by
            rw [bodies_of_sent hsent]
            exact h.read
          obtain ⟨hreplaced, hread'⟩ := (Tells.sendOe { w with nextOrderRef := inc64 v.nextOrderRef } (.replaced
            ⟨m.origUserRefNum, m.userRefNum, ouchSide l.side, m.quantity, m.price, v.nextOrderRef, .live⟩)).listed hread
          refine Listed.arriveReplaced (v := emitReplaced { w with nextOrderRef := inc64 v.nextOrderRef } m v.nextOrderRef l.side)
            (A := d.orders) hread' ?_ hs.sound.distinct ho hstands.queued hfresh hdebt tick hq ?_ (hrefs _ _ howner) _
          · rw [emitReplaced, hreplaced]
            exact hlists
          · exact hsteady.inRange.mpr (hfair.inRange hp)

theorem Listed.cancelSynthetic (h : Listed rd refs debt v) (hs : Stands exact v d) (hnone : d.owner ref = none) :
    Listed rd refs debt (v.cancelSynthetic ref) := by
  unfold Venue.cancelSynthetic
  obtain ⟨herase, -⟩ | ⟨l, m, herase, hl, -, -⟩ := hs.liveWF.lookup_erase ref
  · rw [herase]
    exact h
  · rw [herase]
    obtain ⟨o, ho, rfl, hhandle, -, -⟩ := hs.order_of_live hl
    obtain ⟨b, heq, hb, -⟩ := hs.queued.cancel ho
    simp only [hhandle, engineCancel, heq]
    obtain ⟨hlisted, hread⟩ := listed_sendMd (v := { v with live := m, engine := b }) h.read (.orderDelete o.id)
    refine ⟨hread, _, hb, ?_⟩
    rw [emitItchDelete, hlisted]
    exact (h.lists hs.queued).erase hs.sound.distinct ho

theorem Listed.closeClients (h : Listed rd refs debt v) (hs : Stands exact v d) (fuel : ℕ) :
    Listed rd refs debt (Venue.closeClients fuel v) := by
  induction fuel generalizing v d with
  | zero => exact h
  | succ fuel ih =>
      unfold Venue.closeClients
      cases hlast : v.clientRefs.getLast? with
      | none => exact h
      | some ref =>
          obtain ⟨l, hl, hclient, href⟩ := hs.client (List.mem_of_getLast? hlast)
          simp only [hl]
          obtain ⟨o, ho, -, hf⟩ := cancelClient_follows hs hl hclient href .closed
          exact ih (h.leave hs ho (by simp) hf) hf.stands

/-- **The end of a day**: the clients' orders are told, so that none of the references is left. -/
theorem Listed.resetDay (h : Listed rd refs debt v) (hs : Stands exact v d)
    (hrefs : ∀ s, ∀ o ∈ d.orders s, o.id ∈ refs → d.owner o.id ≠ none) : Listed rd refs debt v.resetDay := by
  have hclosed := h.closeClients hs v.clientRefs.length
  obtain ⟨d', ⟨xs, hf, hcalm, -⟩, hnil⟩ := closeClients_calms hs v.clientRefs.length (Nat.le_refl _)
  unfold Venue.resetDay
  simp only
  generalize Venue.closeClients v.clientRefs.length v = w at hclosed hf hnil
  have hs' := hf.stands
  have hleft : ∀ s, ∀ o ∈ d'.orders s, o.id ∉ refs := by
    intro s o ho hid
    -- it was a client's, and it would be in the clients' list
    obtain ⟨o₀, ho₀, hid₀⟩ | ⟨c, hc⟩ := hf.does.mem hs.sound ho
    · cases hu : d.owner o.id with
      | none => exact hrefs s o₀ ho₀ (hid₀ ▸ hid) (hid₀ ▸ hu)
      | some u =>
          have howned : d.Owned o.id u := fun _ _ _ _ => hu
          have hmem := (hs'.clients o.id).mpr (by
            rw [hf.does.owned hs.sound howned (by simp [Desk.arrivals_calm hcalm]) s o ho rfl]
            simp)
          rw [hnil] at hmem
          cases hmem
    · rw [Desk.arrivals_calm hcalm] at hc
      cases hc
  have hlists := hclosed.lists hs'.queued
  refine ⟨hclosed.read, fun _ => [], OrderBook.queued_new .., ?_⟩
  refine hlists.congr (fun s o hid => ?_) fun _ _ => rfl
  exact iff_of_false List.not_mem_nil fun ho => hleft s o ho hid

/-! ### Calls and runs -/

/-- **Every call that is ready** leaves the table right, when the tape keeps to its own
references and no order that is still told of is lost with a day. -/
theorem Listed.step (h : Listed rd refs debt v) (hs : Stands exact v d) {op : Op} (hready : Ready exact v d op) (hfair : v.Fair)
    (htape : ∀ ref ∈ op.tapeRefs, ref ∉ refs) (howners : ∀ ref user, d.owner ref = some user → ref ∈ refs)
    (hdebt : (v.step op).nextOrderRef ≠ v.nextOrderRef → debt v.nextOrderRef = 0)
    (hday : op = .resetDay → ∀ s, ∀ o ∈ d.orders s, o.id ∈ refs → d.owner o.id ≠ none) : Listed rd refs debt (v.step op) := by
  cases op with
  | request m =>
      cases m with
      | enterOrder m => exact h.onEnterOrder hs m fun hne => ⟨hready.unused hne, hdebt hne⟩
      | replaceOrder m =>
          exact h.onReplaceOrder hs m (fun hne => ⟨hready.unused hne, hdebt hne⟩) (hready.users _ List.mem_cons_self) hfair howners
      | cancelOrder m => exact h.onCancelOrder hs m (hready.users _ List.mem_cons_self)
  | injectSynthetic s tick q =>
      have hne : (v.step (.injectSynthetic s tick q)).nextOrderRef ≠ v.nextOrderRef := by
        rw [Venue.step, nextOrderRef_injectSynthetic]
        exact inc64_ne _
      exact (h.same rfl rfl rfl : Listed rd refs debt { v with nextOrderRef := inc64 v.nextOrderRef }).processOrder hs.queued
        (hready.unused hne).2 (hdebt hne) s tick q false 0
  | cancelSynthetic ref => exact h.cancelSynthetic hs (hready.synthetic ref rfl)
  | mirrorAdd ref s wire q => exact h.mirrorAdd hs (htape ref List.mem_cons_self) s wire q
  | mirrorExecute ref shares =>
      obtain ⟨hne, hnone⟩ := hready.tape ref List.mem_cons_self
      exact h.mirrorExecute hs hne hnone (htape ref List.mem_cons_self) shares
  | mirrorCancel ref shares =>
      obtain ⟨hne, hnone⟩ := hready.tape ref List.mem_cons_self
      exact h.mirrorCancel hs hne hnone (htape ref List.mem_cons_self) shares
  | mirrorDelete ref =>
      obtain ⟨hne, hnone⟩ := hready.tape ref List.mem_cons_self
      exact h.mirrorDelete hs hne hnone (htape ref List.mem_cons_self)
  | mirrorReplace orig ref shares wire =>
      obtain ⟨horig, horigNone⟩ := hready.tape orig List.mem_cons_self
      exact h.mirrorReplace hs horig horigNone (htape orig List.mem_cons_self)
        (htape ref (List.mem_cons_of_mem _ List.mem_cons_self)) shares wire
  | resetDay => exact h.resetDay hs (hday rfl)

/-- A reference that was handed out went to a synthetic order or to a client's. -/
def Placed (own syn : List ℕ) (v : Venue) : Prop := ∀ ref ∈ own, ref ∈ syn ∨ ∃ user, (user, ref) ∈ Desk.answered v.oe

theorem Placed.effect {own syn : List ℕ} {op : Op} (h : Placed own syn v) (he : Effect exact v d op (v.step op) d') :
    Placed (own ++ v.handedOut [op]) (syn ++ v.returned op) (v.step op) := by
  obtain ⟨xs, hf, hout, -⟩ := he
  have hanswered := answered_step hf
  intro ref hmem
  obtain hmem | hmem := List.mem_append.mp hmem
  · obtain hsyn | ⟨user, hu⟩ := h ref hmem
    · exact .inl (List.mem_append_left _ hsyn)
    · exact .inr ⟨user, by rw [hanswered]; exact List.mem_append_left _ hu⟩
  · obtain ⟨hhand, -⟩ | ⟨hhand, -, ⟨hret, -⟩ | ⟨user, -, -, hacc, -⟩⟩ := hout.handedOut
    · rw [hhand] at hmem
      cases hmem
    · rw [hret, ← hhand]
      exact .inl (List.mem_append_right _ hmem)
    · rw [hhand, List.mem_singleton] at hmem
      rw [hanswered, hacc, hmem]
      exact .inr ⟨user, by simp⟩

/-- The synthetic orders of the days that have ended. -/
def Expired (v : Venue) (ops : List Op) (ref : ℕ) : Prop := ∃ pre post, ops = pre ++ .resetDay :: post ∧ ref ∈ v.synthetics pre

theorem Expired.append {ops : List Op} (h : Expired v ops ref) (ops' : List Op) : Expired v (ops ++ ops') ref := by
  obtain ⟨pre, post, rfl, hsyn⟩ := h
  exact ⟨pre, post ++ ops', by simp, hsyn⟩

/-- **Along an orderly run the table follows the engine.** The induction is on the run, from
its end, with the desk that the run before it leaves. -/
theorem listed_run {d₀ : Desk ℕ} (hkept : Kept False v.nextOrderRef [] [] [] [] v d₀) (hpos : 0 < v.nextOrderRef)
    (hfair : v.Fair) (hlisted : Listed rd refs debt v) {ops : List Op} (h : Orderly v ops) (hwrap : NoWrap v ops)
    (htape : ∀ op ∈ ops, ∀ ref ∈ op.tapeRefs, ref ∉ refs) (hdebt : ∀ ref ∈ v.handedOut ops, debt ref = 0)
    (hclients : ∀ user ref, (user, ref) ∈ Desk.answered (v.run ops).oe → ref ∈ refs)
    (hexpired : ∀ ref ∈ refs, ¬ Expired v ops ref) :
    Listed rd refs debt (v.run ops) ∧ Placed (v.handedOut ops) (v.synthetics ops) (v.run ops) := by
  induction ops using List.reverseRecOn with
  | nil => exact ⟨hlisted, fun ref href => absurd href List.not_mem_nil⟩
  | append_singleton ops op ih =>
      obtain ⟨xs, d, hf, hk, -⟩ := kept_run hkept hpos h.of_append hwrap.of_append fun he => he.elim
      obtain ⟨hready, -⟩ := hk.ready_next hpos h hwrap fun he => he.elim
      obtain ⟨d', he⟩ := step_effect hk.toStands hready
      have hrun : v.run (ops ++ [op]) = (v.run ops).step op := run_append ..
      have hanswered : ∀ a ∈ Desk.answered (v.run ops).oe, a ∈ Desk.answered (v.run (ops ++ [op])).oe := by
        intro a ha
        obtain ⟨ys, hf', -⟩ := he
        rw [hrun, answered_step hf']
        exact List.mem_append_left _ ha
      have hdebts : ∀ ref ∈ v.handedOut ops ++ (v.run ops).handedOut [op], debt ref = 0 := by
        rw [← handedOut_append]
        exact hdebt
      obtain ⟨hl, hplaced⟩ := ih h.of_append hwrap.of_append (fun op' hop' => htape op' (List.mem_append_left _ hop'))
        (fun ref href => hdebts ref (List.mem_append_left _ href)) (fun user ref hu => hclients user ref (hanswered _ hu)) fun ref href he => hexpired ref href (he.append _)
      refine ⟨?_, ?_⟩
      · rw [hrun]
        have hstart : Fair { v with nextOrderRef := (v.run ops).nextOrderRef } :=
          ⟨hfair.least, hfair.greatest, hfair.low, hfair.ordered, hfair.high⟩
        refine hl.step hk.toStands hready (hstart.of_steady hf.steady)
          (htape op (List.mem_append_right _ List.mem_cons_self))
          (fun ref user hu => hclients user ref (hanswered _ (hk.owners ref user hu)))
          (fun hne => hdebts _ (List.mem_append_right _ (by rw [handedOut_one, if_neg hne]; exact List.mem_cons_self)))
          fun hop s o ho href hnone => ?_
        -- an order that is nobody's is the tape's or synthetic
        have hown : o.id ∈ v.handedOut ops := (hk.ids s o ho).resolve_right fun htaped => by
          obtain ⟨op', hop', hnew⟩ := List.mem_flatMap.mp htaped
          exact htape op' (List.mem_append_left _ hop') _ (op'.tapeNew_subset hnew) href
        obtain hsyn | ⟨user, hu⟩ := hplaced _ hown
        · exact hexpired _ href ⟨ops, [], by rw [hop], hsyn⟩
        · rw [(hk.accepted user _ hu).2.2.2 s o ho rfl] at hnone
          cases hnone
      · rw [handedOut_append, synthetics_append, returned_one, hrun]
        exact hplaced.effect he

/-- What the table has under a reference, in terms of the levels of the engine. -/
theorem Listed.lookup_iff (h : Listed rd refs debt v) (hpos : Positive rd.table) (href : ref ∈ refs) (hdebt : debt ref = 0)
    {r : Dut.Resting} : (v.listed rd).lookup ref = some r ↔ ∃ s p, ∃ o ∈ v.engine.ordersAtLevel s p, o.id = ref ∧
      r = ⟨toPrice (wireOf v.wirePerTick p), o.qty, s, false⟩ := by
  obtain ⟨-, A, hb, hl⟩ := h
  rw [hl.lookup_iff (positive_fold _ hpos) href hdebt]
  constructor
  · rintro ⟨s, o, ho, hid, rfl⟩
    refine ⟨s, o.price, v.engine.order o.key, ?_, (hb.cell ho).1.trans hid, ?_⟩
    · rw [OrderBook.ordersAtLevel_eq_map]
      exact List.mem_map_of_mem (hb.mem_handles.mpr ⟨o, ho, rfl, rfl⟩)
    · rw [recordOf, hb.order_qty ho, Nat.add_zero]
  · rintro ⟨s, p, c, hc, hid, rfl⟩
    rw [OrderBook.ordersAtLevel_eq_map] at hc
    obtain ⟨k, hk, rfl⟩ := List.mem_map.mp hc
    obtain ⟨o, ho, rfl, rfl⟩ := hb.mem_handles.mp hk
    refine ⟨s, o, ho, (hb.cell ho).1.symm.trans hid, ?_⟩
    rw [recordOf, hb.order_qty ho, Nat.add_zero]

/-- A new venue has told nothing, and has no orders. -/
theorem listed_new (refs : Set ℕ) (debt : ℕ → ℕ) (symbol : List UInt8) (stockLocate : ℕ) (minTick maxTick : ℤ)
    (wirePerTick firstOrderRef liveReserve stray : ℕ) :
    Listed {} refs debt (new symbol stockLocate minTick maxTick wirePerTick firstOrderRef liveReserve stray) :=
  ⟨Nat.zero_le _, fun _ => [], OrderBook.queued_new .., fun _ _ ho => absurd ho List.not_mem_nil,
    fun ref _ _ r hr => absurd ((Finmap.lookup_empty ref).symm.trans hr) (Option.some_ne_none r).symm,
    fun _ _ _ _ ho => absurd ho List.not_mem_nil⟩

end

/-- **The market data tells the venue's own orders**: after every call of an orderly run, a
reader that folds the published messages into a table has an order under a reference of the
venue exactly when an order with this reference rests in the engine, with its side, price and
shares. Synthetic orders of a day that has ended are not told to leave. -/
theorem own_orders_published (symbol : List UInt8) (stockLocate : ℕ) (minTick maxTick : ℤ)
    (wirePerTick firstOrderRef liveReserve stray : ℕ) (hfirst : firstOrderRef < 2 ^ 64) (hlow : -2 ^ 31 ≤ minTick)
    (hordered : minTick ≤ maxTick) (hhigh : maxTick < 2 ^ 31) (ops : List Op)
    (h : Orderly (new symbol stockLocate minTick maxTick wirePerTick firstOrderRef liveReserve stray) ops)
    (hwrap : NoWrap (new symbol stockLocate minTick maxTick wirePerTick firstOrderRef liveReserve stray) ops) (ref : ℕ)
    (href : ref ∈ (new symbol stockLocate minTick maxTick wirePerTick firstOrderRef liveReserve stray).handedOut ops)
    (hday : ¬ Expired (new symbol stockLocate minTick maxTick wirePerTick firstOrderRef liveReserve stray) ops ref)
    (r : Dut.Resting) :
    let v := (new symbol stockLocate minTick maxTick wirePerTick firstOrderRef liveReserve stray).run ops
    (v.bodies.foldl (account 0) ∅).lookup ref = some r ↔ ∃ s p, ∃ o ∈ v.engine.ordersAtLevel s p, o.id = ref ∧
      r = ⟨toPrice (wireOf v.wirePerTick p), o.qty, s, false⟩ := by
  set v₀ := new symbol stockLocate minTick maxTick wirePerTick firstOrderRef liveReserve stray with hv₀
  obtain ⟨hkept, hpos⟩ := kept_new symbol stockLocate minTick maxTick hfirst
  -- the orders that are told of to the end
  let refs : Set ℕ := {r | r ∈ v₀.handedOut ops ∧ ¬ Expired v₀ ops r}
  have hlisted : Listed {} refs (fun _ => 0) (v₀.run ops) := by
    refine (listed_run hkept hpos ⟨rfl, rfl, hlow, hordered, hhigh⟩ (listed_new ..) h hwrap ?_ (fun _ _ => rfl) ?_ fun r hr => hr.2).1
    · exact fun op hop r hr hmem => (h.tape op hop r hr).2 hmem.1
    · intro user r hu
      obtain ⟨xs, d, -, hk, -⟩ := kept_run hkept hpos h hwrap fun he : False => he.elim
      refine ⟨(hk.accepted user r hu).1, ?_⟩
      rintro ⟨pre, post, rfl, hsyn⟩
      refine (hk.accepted user r hu).2.1 ?_
      rw [synthetics_append]
      exact List.mem_append_left _ hsyn
  exact hlisted.lookup_iff positive_empty ⟨href, hday⟩ rfl

/-- A client's order that has replaced another, was traded with and cancelled in part. -/
theorem own_orders_published_sample :
    ((sampleVenue.run sampleOps).bodies.foldl (account 0) ∅).lookup (2 ^ 62 + 3) = some ⟨4800, 10, .buy, false⟩ := by
  refine (own_orders_published [65] 1 1 100000 100 (2 ^ 62) 16 0 (by decide) (by decide) (by decide) (by decide) sampleOps
    sampleOps_orderly.1 sampleOps_orderly.2.2 (2 ^ 62 + 3) (by decide +kernel) ?_ _).mpr ?_
  · rintro ⟨pre, post, heq, -⟩
    have hmem : Op.resetDay ∈ sampleOps := heq ▸ List.mem_append_right _ List.mem_cons_self
    exact absurd hmem (by decide +kernel)
  · exact ⟨.buy, 48, ⟨2 ^ 62 + 3, 48, 10, .buy, none, none⟩, by decide +kernel, rfl, by decide +kernel⟩

end Venue

end TickToTrade.Sim
