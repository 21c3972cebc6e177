import TickToTrade.Dut.BandShift

/-!
# The version of the top

The session quotes again when `topVersion` has changed. The counter goes up where the top
of the book may change; what has to be shown is that no other place changes it, and that
one call does not count once around its 32 bits. `Watched n` says so of a part of a call:
either nothing of the top has changed, nor has the version, or the version has gone up by
one to `n`.

## What is proved

* `version_turns` — a message, a trade price or a reset after which the top is another one
  leaves another version.
-/

namespace TickToTrade.Dut

open Util

/-- What is shown of the top of a book. -/
structure Top where
  bestBid : ℤ
  bestAsk : ℤ
  /-- The shares at the best bid. -/
  bidSize : ℕ
  /-- The shares at the best offer. -/
  askSize : ℕ
  bandLow : ℤ
  bandHigh : ℤ
deriving DecidableEq, Repr

namespace BookBuilder

variable {b b' b'' : BookBuilder} {L : List Resting} {m n : ℕ}

/-- The top of the book. -/
def top (b : BookBuilder) : Top :=
  ⟨b.bestBid, b.bestAsk, b.sizeAt .buy b.bestBid, b.sizeAt .sell b.bestAsk, b.bandLow, b.bandHigh⟩

/-! ### Counting up -/

/-- The version has gone up `lo` to `hi` times. -/
def Turned (lo hi : ℕ) (b b' : BookBuilder) : Prop :=
  ∃ k, lo ≤ k ∧ k ≤ hi ∧ b'.topVersion = (bumpIf True)^[k] b.topVersion

theorem turned_of_eq (h : b'.topVersion = b.topVersion) : Turned 0 n b b' := ⟨0, le_rfl, Nat.zero_le n, h⟩

theorem turned_one (lo : ℕ) (hlo : lo ≤ 1) (h : b'.topVersion = (b.topVersion + 1) % 2 ^ 32) : Turned lo 1 b b' :=
  ⟨1, hlo, le_rfl, h⟩

theorem Turned.trans {lo hi lo' hi' : ℕ} (h : Turned lo hi b b') (h' : Turned lo' hi' b' b'') :
    Turned (lo + lo') (hi + hi') b b'' := by
  obtain ⟨k, hlo, hhi, hk⟩ := h
  obtain ⟨k', hlo', hhi', hk'⟩ := h'
  refine ⟨k' + k, by omega, by omega, ?_⟩
  rw [hk', hk, ← Function.iterate_add_apply]

theorem Turned.mono {lo hi lo' hi' : ℕ} (h : Turned lo hi b b') (hlo : lo' ≤ lo) (hhi : hi ≤ hi') : Turned lo' hi' b b' :=
  let ⟨k, h1, h2, hk⟩ := h
  ⟨k, hlo.trans h1, h2.trans hhi, hk⟩

theorem iterate_bump (k v : ℕ) : (bumpIf True)^[k + 1] v = (v + (k + 1)) % 2 ^ 32 := by
  induction k with
  | zero => rfl
  | succ k ih =>
      rw [Function.iterate_succ_apply', ih]
      unfold bumpIf
      rw [if_pos trivial]
      omega

/-- Fewer turns than the word has values end at another version. -/
theorem Turned.ne (h : Turned 1 n b b') (hn : n < 2 ^ 32) : b'.topVersion ≠ b.topVersion := by
  obtain ⟨k, hlo, hhi, hk⟩ := h
  obtain ⟨k, rfl⟩ : ∃ i, k = i + 1 := ⟨k - 1, by omega⟩
  rw [hk, iterate_bump]
  omega

theorem turned_addLevel (b : BookBuilder) (s : Side) (p : ℤ) (q : ℕ) : Turned 0 1 b (b.addLevel s p q) := by
  by_cases h : (b.side s).best = kNoPrice ∨ s.atLeast p (b.side s).best
  · exact turned_one 0 (by omega) (if_pos h)
  · exact turned_of_eq (if_neg h)

theorem turned_removeShares (b : BookBuilder) (s : Side) (p : ℤ) (q : ℕ) : Turned 0 1 b (b.removeShares s p q) := by
  unfold removeShares
  split_ifs
  · refine turned_of_eq ?_
    unfold unpark
    simp only
    split_ifs <;> rfl
  · by_cases h : p = (b.side s).best
    · exact turned_one 0 (by omega) (if_pos h)
    · exact turned_of_eq (if_neg h)

theorem turned_addShares (b : BookBuilder) (s : Side) (p : ℤ) (q : ℕ) : Turned 0 1 b (b.addShares s p q) := by
  unfold addShares
  split_ifs
  · exact turned_of_eq rfl
  · exact turned_addLevel b s p q

theorem turned_rebuildOne (b : BookBuilder) (r : Resting) : Turned 0 1 b (b.rebuildOne r) := by
  unfold rebuildOne
  split_ifs
  · exact turned_of_eq rfl
  · exact turned_addLevel ..
  · exact turned_of_eq rfl

theorem turned_rebuildLevels (l : List (ℕ × Resting)) (b : BookBuilder) :
    Turned 0 l.length b (l.foldl (fun b e => b.rebuildOne e.2) b) := by
  induction l generalizing b with
  | nil => exact turned_of_eq rfl
  | cons e l ih =>
      have h := (turned_rebuildOne b e.2).trans (ih (b.rebuildOne e.2))
      rw [Nat.add_comm 1] at h
      exact h

theorem topVersion_shiftLevels (b : BookBuilder) (s : Side) (lo hi : ℤ) :
    (b.shiftLevels s lo hi).topVersion = b.topVersion := by
  unfold shiftLevels
  simp only
  refine List.foldlRecOn (motive := fun c : BookBuilder => c.topVersion = b.topVersion) _ _ rfl fun c hc i _ => ?_
  split_ifs <;> exact hc

/-- An anchor counts up once, and once more at most for each order that it counts again. -/
theorem turned_anchor (b : BookBuilder) (price : ℤ) (trusted : Bool) :
    Turned 1 (1 + b.orders.entries.length) b (b.anchor price trusted) := by
  have hstart : Turned 1 1 b b.countAnchor := turned_one 1 le_rfl rfl
  rw [anchor_eq]
  split_ifs
  · have hshift : (b.anchorShift price trusted).topVersion = b.countAnchor.topVersion :=
      (topVersion_shiftLevels ..).trans (topVersion_shiftLevels ..)
    exact (hstart.trans (turned_of_eq (n := 0) hshift)).mono le_rfl (by omega)
  · obtain ⟨k, hlo, hhi, hk⟩ := turned_rebuildLevels b.orders.entries
      { b.countAnchor with
        band := ⟨b.anchorMin price trusted, b.anchorMax price trusted, b.anchorTick price,
          DivBy.ofDivisor (u32 (b.anchorTick price))⟩
        side := fun _ =>
          let ticks := b.anchorTicks price (b.anchorTick price) trusted
          BookSide.empty (2 * ticks + 1) (2 * ticks + 1)
        anchored := true, parkedShares := 0, parkedLo := kNoPrice, parkedHi := kNoPrice }
    exact hstart.trans ⟨k, hlo, hhi, hk⟩

/-! ### Changes of the top -/

/-- Nothing of the top has changed and nothing was counted, or the version has gone up. -/
def Watched (n : ℕ) (b b' : BookBuilder) : Prop := Turned 1 n b b' ∨ b'.topVersion = b.topVersion ∧ b'.top = b.top

theorem Watched.trans (h : Watched m b b') (h' : Watched n b' b'') : Watched (m + n) b b'' := by
  rcases h with h | ⟨hv, ht⟩
  · rcases h' with h' | ⟨hv', -⟩
    · exact .inl ((h.trans h').mono (by omega) le_rfl)
    · exact .inl ((h.trans (turned_of_eq (n := n) hv')).mono le_rfl le_rfl)
  · rcases h' with ⟨k, hlo, hhi, hk⟩ | ⟨hv', ht'⟩
    · exact .inl ⟨k, hlo, by omega, by rw [hk, hv]⟩
    · exact .inr ⟨hv'.trans hv, ht'.trans ht⟩

/-- The top is that of the band and the sides. -/
theorem top_congr (hband : b'.band = b.band) (hside : b'.side = b.side) : b'.top = b.top := by
  unfold top bestBid bestAsk sizeAt bandLow bandHigh
  rw [hband, hside]

/-- What is not counted and not shown may change. -/
theorem Watched.congr (h : Watched n b b') (hversion : b''.topVersion = b'.topVersion) (hband : b''.band = b'.band)
    (hside : b''.side = b'.side) : Watched n b b'' := by
  have htop : b''.top = b'.top := top_congr hband hside
  rcases h with ⟨k, hlo, hhi, hk⟩ | ⟨hv, ht⟩
  · exact .inl ⟨k, hlo, hhi, hversion.trans hk⟩
  · exact .inr ⟨hversion.trans hv, htop.trans ht⟩

theorem Watched.mono (h : Watched m b b') (hle : m ≤ n) : Watched n b b' := h.imp_left fun ht => ht.mono le_rfl hle

theorem Watched.refl (b : BookBuilder) : Watched n b b := .inr ⟨rfl, rfl⟩

/-- A change at a level that is not a best price is not seen. -/
theorem top_update (hb : b.Views L) (hhigh : b.bandHigh < 2 ^ 31) {s : Side} {p : ℤ} (hp : b.band.inBand p = true)
    (hne : (b.side s).best ≠ p) {x : BookSide} (hbest : x.best = (b.side s).best)
    (hsize : ∀ i, i ≠ b.band.index p → x.size i = (b.side s).size i) (hside : b'.side = Function.update b.side s x)
    (hband : b'.band = b.band) : b'.top = b.top := by
  have hwire : ∀ {q : ℤ}, b.band.inBand q = true → Band.Wire q := fun hq => by
    have hrange := Band.inRange_iff.mp (Band.inRange_of_inBand hq)
    have hmin := hb.grid.min_nonneg
    unfold bandHigh at hhigh
    exact ⟨by omega, by omega⟩
  have hbests : ∀ s', (b'.side s').best = (b.side s').best := by
    intro s'
    rw [hside]
    by_cases hs : s' = s
    · rw [hs, Function.update_self, hbest]
    · rw [Function.update_of_ne hs]
  have hsizes : ∀ s', b'.sizeAt s' (b.side s').best = b.sizeAt s' (b.side s').best := by
    intro s'
    unfold sizeAt
    rw [hside, hband]
    by_cases hs : s' = s
    · subst hs
      rw [Function.update_self]
      cases hin : b.band.inBand (b.side s').best with
      | false => rfl
      | true =>
          refine hsize _ fun hi => hne ?_
          rw [← hb.grid.priceOf_index (hwire hin) hin, hi, hb.grid.priceOf_index (hwire hp) hp]
    · rw [Function.update_of_ne hs]
  unfold top bandLow bandHigh bestBid bestAsk
  rw [hbests, hbests, hsizes, hsizes, hband]

theorem watched_addShares (hb : b.Views L) (hhigh : b.bandHigh < 2 ^ 31) (s : Side) (p : ℤ) (q : ℕ) :
    Watched 1 b (b.addShares s p q) := by
  unfold addShares
  split_ifs with hin
  · exact .inr ⟨rfl, top_congr rfl rfl⟩
  · by_cases htop : (b.side s).best = kNoPrice ∨ s.atLeast p (b.side s).best
    · exact .inl (turned_one 1 le_rfl (if_pos htop))
    · refine .inr ⟨if_neg htop, ?_⟩
      have hne : (b.side s).best ≠ p := fun he => htop (.inr (he ▸ s.atLeast_refl _))
      exact top_update hb hhigh (by simpa using hin) hne (if_neg htop) (fun i hi => Function.update_of_ne hi _ _) rfl rfl

theorem watched_removeShares (hb : b.Views L) (hhigh : b.bandHigh < 2 ^ 31) (s : Side) (p : ℤ) (q : ℕ) :
    Watched 1 b (b.removeShares s p q) := by
  unfold removeShares
  split_ifs with hin
  · refine .inr ?_
    unfold unpark
    simp only
    split_ifs <;> exact ⟨rfl, top_congr rfl rfl⟩
  · by_cases htop : p = (b.side s).best
    · exact .inl (turned_one 1 le_rfl (if_pos htop))
    · refine .inr ⟨if_neg htop, ?_⟩
      have hrem : ((b.side s).remove b.band s p q).best = (b.side s).best ∧
          ∀ i, i ≠ b.band.index p → ((b.side s).remove b.band s p q).size i = (b.side s).size i := by
        unfold BookSide.remove
        simp only [if_neg htop]
        split_ifs <;> exact ⟨rfl, fun i hi => Function.update_of_ne hi _ _⟩
      exact top_update hb hhigh (by simpa using hin) (Ne.symm htop) hrem.1 hrem.2 rfl rfl

/-! ### The calls -/

theorem watched_insertOrder (hb : b.Views L) (hhigh : b.bandHigh < 2 ^ 31) (ref : ℕ) (p : ℤ) (q : ℕ) (s : Side) (own : Bool) :
    Watched 1 b (b.insertOrder ref p q s own) := by
  unfold insertOrder
  simp only
  split_ifs
  · exact (Watched.refl b).congr rfl rfl rfl
  · have hb' : ({ b with orders := b.orders.insertOrAssign ref (Resting.make p q s own) } : BookBuilder).Views L :=
      hb.congr rfl rfl rfl rfl rfl
    have hstart : Watched 0 b { b with orders := b.orders.insertOrAssign ref (Resting.make p q s own) } :=
      (Watched.refl b).congr rfl rfl rfl
    exact hstart.trans (watched_addShares hb' hhigh s p q)

theorem watched_countOut (hb : b.Views L) (hhigh : b.bandHigh < 2 ^ 31) (orders : FlatHashMap mix Resting) (o : Resting) :
    Watched 1 b ({ b with orders := orders }.countOut o) := by
  unfold countOut
  split_ifs
  · exact (Watched.refl b).congr rfl rfl rfl
  · have hb' : ({ b with orders := orders } : BookBuilder).Views L := hb.congr rfl rfl rfl rfl rfl
    have hstart : Watched 0 b { b with orders := orders } := (Watched.refl b).congr rfl rfl rfl
    exact hstart.trans (watched_removeShares hb' hhigh o.side o.price o.shares)

/-- The band stays where it is when an order leaves. -/
theorem band_countOut (b : BookBuilder) (o : Resting) : (b.countOut o).band = b.band := by
  unfold countOut removeShares unpark
  simp only
  split_ifs <;> rfl

theorem watched_onAddOrder (h : b.Inv) (hhigh : b.bandHigh < 2 ^ 31) (ref : ℕ) (s : Side) (shares wire : ℕ) :
    Watched (2 + b.orders.entries.length) b (b.onAddOrder ref s shares wire) := by
  unfold onAddOrder
  simp only
  split_ifs
  · exact .refl b
  · -- the first order places the band
    have hinsert : ∀ x : BookBuilder, ∀ own, Turned 0 1 x (x.insertOrder ref (toPrice wire) shares s own) := by
      intro x own
      unfold insertOrder
      simp only
      split_ifs
      · exact turned_of_eq rfl
      · obtain ⟨k, hlo, hhi, hk⟩ := turned_addShares
          { x with orders := x.orders.insertOrAssign ref (Resting.make (toPrice wire) shares s own) } s (toPrice wire) shares
        exact ⟨k, hlo, hhi, hk⟩
    exact .inl (((turned_anchor b (toPrice wire) false).trans (hinsert _ _)).mono le_rfl (by omega))
  · have hone := watched_insertOrder h.views hhigh ref (toPrice wire) shares s
      (decide (b.ownRefMin ≠ 0 ∧ ref ≥ b.ownRefMin))
    exact hone.mono (by omega)

theorem watched_onOrderReplace (h : b.Inv) (hhigh : b.bandHigh < 2 ^ 31) (orig new shares wire : ℕ) :
    Watched 2 b (b.onOrderReplace orig new shares wire) := by
  unfold onOrderReplace
  rcases h.map.erase_cases orig with hno | ⟨o, orders, herase, -, -, hwf, -, hperm⟩
  · rw [hno]
    exact .refl b
  · rw [herase]
    simp only
    have hout := watched_countOut h.views hhigh orders o
    have hinv := h.countOut hwf hperm
    have hhigh' : ({ b with orders := orders }.countOut o).bandHigh < 2 ^ 31 := by
      unfold bandHigh
      rw [band_countOut]
      exact hhigh
    split_ifs
    · exact hout.mono (by omega)
    · exact hout.trans (watched_insertOrder hinv.views hhigh' ..)

theorem watched_reduceOrder (h : b.Inv) (hhigh : b.bandHigh < 2 ^ 31) (ref shares : ℕ) (trade : Bool) :
    Watched (2 + b.orders.entries.length) b (b.reduceOrder ref shares trade) := by
  unfold reduceOrder
  cases b.orders.find ref with
  | none => exact .refl b
  | some i =>
      simp only
      generalize b.orders.valueAt i = o
      generalize (if shares < o.shares then shares else o.shares) = gone
      generalize hx : (if (trade && b.needsAnchor o.price) = true then b.anchor o.price true else b) = x
      have hsums : Watched (2 + b.orders.entries.length) b (if (!o.own) = true then x.removeShares o.side o.price gone else x) := by
        by_cases hanchor : (trade && b.needsAnchor o.price) = true
        · rw [if_pos hanchor] at hx
          subst hx
          split_ifs
          · exact .inl (((turned_anchor b o.price true).trans (turned_removeShares ..)).mono le_rfl (by omega))
          · exact .inl ((turned_anchor b o.price true).mono le_rfl (by omega))
        · rw [if_neg hanchor] at hx
          subst hx
          split_ifs
          · exact (watched_removeShares h.views hhigh ..).mono (by omega)
          · exact .refl b
      split_ifs at hsums ⊢
      all_goals exact hsums.congr rfl rfl rfl

theorem watched_onTradePrice (b : BookBuilder) (price : ℤ) : Watched (2 + b.orders.entries.length) b (b.onTradePrice price) := by
  unfold onTradePrice
  split_ifs
  · exact .inl ((turned_anchor b price true).mono le_rfl (by omega))
  · exact .refl b

/-- **Each call is watched.** -/
theorem watched_step (h : b.Inv) (hhigh : b.bandHigh < 2 ^ 31) (op : Op) : Watched (2 + b.orders.entries.length) b (b.step op) := by
  cases op with
  | clear =>
      refine .inl ((turned_one 1 le_rfl ?_).mono le_rfl (by omega))
      change b.clear.topVersion = _
      unfold clear
      simp only
      split_ifs <;> rfl
  | message body =>
      cases body with
      | addOrder ref side shares price => exact watched_onAddOrder h hhigh ..
      | orderExecuted ref shares mn => exact watched_reduceOrder h hhigh ..
      | orderExecutedWithPrice ref shares mn price => exact watched_reduceOrder h hhigh ..
      | orderCancel ref shares => exact watched_reduceOrder h hhigh ..
      | orderDelete ref =>
          change Watched _ b (b.removeOrder ref)
          unfold removeOrder
          cases b.orders.erase ref with
          | none => exact .refl b
          | some r => exact (watched_countOut h.views hhigh r.2 r.1).mono (by omega)
      | orderReplace orig new shares price =>
          exact (watched_onOrderReplace h hhigh ..).mono (by omega)
      | tradeNonCross ref side shares price mn => exact watched_onTradePrice ..
      | crossTrade shares price mn =>
          change Watched _ b (if shares > 0 ∧ price > 0 then b.onTradePrice (toPrice price) else b)
          split_ifs
          · exact watched_onTradePrice ..
          · exact .refl b
      | _ => exact .refl b

/-- **The version misses no change of the top.** The end of the band is a 32-bit word. -/
theorem version_turns (h : b.Inv) (hhigh : b.bandHigh < 2 ^ 31) (hlive : b.liveOrders < 2 ^ 31) :
    (∀ op, (b.step op).top ≠ b.top → (b.step op).topVersion ≠ b.topVersion) ∧
      ∀ price, (b.onTradePrice price).top ≠ b.top → (b.onTradePrice price).topVersion ≠ b.topVersion := by
  have hcount := h.map.count
  have hlen : 2 + b.orders.entries.length < 2 ^ 32 := by
    unfold liveOrders wrapNeg at hlive
    split_ifs at hlive <;> omega
  have hturns : ∀ {x : BookBuilder}, Watched (2 + b.orders.entries.length) b x → x.top ≠ b.top → x.topVersion ≠ b.topVersion :=
    fun hw htop => hw.elim (fun ht => ht.ne hlen) fun hsame => absurd hsame.2 htop
  exact ⟨fun op => hturns (watched_step h hhigh op), fun price => hturns (watched_onTradePrice b price)⟩

/-- The offer of the short feed, executed, leaves the top; so the version is another one. -/
theorem version_turns_exampleFeed :
    let b := exampleFeed.foldl step (ofConfig exampleConfig)
    (b.step (.message (.orderDelete 2))).topVersion ≠ b.topVersion := by
  have hcfg : ConfigValid exampleConfig := by constructor <;> decide
  have hinv := (reachable_of_feedOk exampleFeed .refl (by decide +kernel)).inv hcfg
  exact (version_turns hinv.1 (by decide +kernel) (by decide +kernel)).1 _ (by decide +kernel)

end BookBuilder

end TickToTrade.Dut
