import TickToTrade.Dut.BookSums
import Mathlib.Data.List.Perm.Basic

/-!
# The order of a rebuild

A rebuild counts the orders of the map as the map lists them, and how it lists them depends on
its capacity and on everything that was ever put into it. The sums that come out do not depend
on the order (`beside_rebuild`), for orders at prices other than `kNoPrice`: that price is also
the mark of an empty side and of empty parking, and where it comes decides which bounds
are kept.
-/

namespace TickToTrade.Dut

open Util

/-! ### Setting bits -/

theorem LevelBits.set_comm (b : LevelBits) (i j : ℕ) : (b.set i).set j = (b.set j).set i := by
  have hword : ∀ (w : ℕ → ℕ) (p q m n : ℕ),
      Function.update (Function.update w p (w p ||| m)) q (Function.update w p (w p ||| m) q ||| n) =
        Function.update (Function.update w q (w q ||| n)) p (Function.update w q (w q ||| n) p ||| m) := by
    intro w p q m n
    by_cases hpq : p = q
    · subst hpq
      simp only [Function.update_self, Function.update_idem]
      rw [Nat.or_assoc, Nat.or_comm m, ← Nat.or_assoc]
    · rw [Function.update_of_ne (Ne.symm hpq), Function.update_of_ne hpq, Function.update_comm hpq]
  unfold LevelBits.set
  simp only [hword b.l0, hword b.l1]

theorem LevelBits.set_set (b : LevelBits) (i : ℕ) : (b.set i).set i = b.set i := by
  have hword : ∀ (w : ℕ → ℕ) (p m : ℕ),
      Function.update (Function.update w p (w p ||| m)) p (Function.update w p (w p ||| m) p ||| m) =
        Function.update w p (w p ||| m) := by
    intro w p m
    simp only [Function.update_self, Function.update_idem]
    rw [Nat.or_assoc, Nat.or_self]
  unfold LevelBits.set
  simp only [hword b.l0, hword b.l1]

namespace BookSide

variable {x : BookSide} {s : Side} {i j : ℕ}

/-- The better of two prices, where the first one may be missing. -/
def better (s : Side) (best price : ℤ) : ℤ := if best = kNoPrice ∨ s.atLeast price best then price else best

theorem better_comm {best p q : ℤ} (hp : p ≠ kNoPrice) (hq : q ≠ kNoPrice) :
    better s (better s best p) q = better s (better s best q) p := by
  unfold better
  cases s
  · simp only [Side.atLeast]
    split_ifs <;> omega
  · simp only [Side.atLeast]
    split_ifs <;> omega

/-- Count shares into a level, and set its bit also where it is set. -/
def tally (x : BookSide) (s : Side) (i : ℕ) (price : ℤ) (shares : ℕ) : BookSide :=
  { x with
    size := Function.update x.size i ((x.size i + shares) % 2 ^ 32)
    bits := x.bits.set i
    best := better s x.best price }

theorem tally_comm {p q : ℤ} (hp : p ≠ kNoPrice) (hq : q ≠ kNoPrice) (x : BookSide) (s : Side) (i j m n : ℕ) :
    (x.tally s i p m).tally s j q n = (x.tally s j q n).tally s i p m := by
  have hsize : Function.update (Function.update x.size i ((x.size i + m) % 2 ^ 32)) j
        ((Function.update x.size i ((x.size i + m) % 2 ^ 32) j + n) % 2 ^ 32) =
      Function.update (Function.update x.size j ((x.size j + n) % 2 ^ 32)) i
        ((Function.update x.size j ((x.size j + n) % 2 ^ 32) i + m) % 2 ^ 32) := by
    by_cases hij : i = j
    · subst hij
      simp only [Function.update_self, Function.update_idem]
      congr 1
      omega
    · rw [Function.update_of_ne (Ne.symm hij), Function.update_of_ne hij, Function.update_comm hij]
  unfold tally
  simp only [hsize, LevelBits.set_comm x.bits i j, better_comm hp hq]

/-- Every level with shares has its bit set. -/
def Marked (x : BookSide) : Prop := ∀ i, x.size i ≠ 0 → x.bits.set i = x.bits

theorem Marked.tally (h : x.Marked) (s : Side) (i : ℕ) (price : ℤ) (shares : ℕ) : (x.tally s i price shares).Marked := by
  intro j hj
  change (x.bits.set i).set j = x.bits.set i
  by_cases hij : j = i
  · rw [hij, LevelBits.set_set]
  · change Function.update x.size i _ j ≠ 0 at hj
    rw [Function.update_of_ne hij] at hj
    rw [LevelBits.set_comm, h j hj]

/-- Where the bits are right, setting a bit again changes nothing. -/
theorem Marked.add_eq (h : x.Marked) (g : Band) (s : Side) (price : ℤ) (shares : ℕ) :
    x.add g price shares (x.best = kNoPrice ∨ s.atLeast price x.best) = x.tally s (g.index price) price shares := by
  have hbits : (if x.size (g.index price) = 0 then x.bits.set (g.index price) else x.bits) = x.bits.set (g.index price) := by
    split_ifs with h0
    · rfl
    · exact (h _ h0).symm
  unfold BookSide.add BookSide.tally better
  simp only [hbits]

end BookSide

namespace BookBuilder

variable {b b' : BookBuilder}

/-! ### One order after the other -/

/-- Count an order that is not our own, setting its bit also where it is set, at the same version. -/
def tally (b : BookBuilder) (r : Resting) : BookBuilder :=
  if b.band.inBand r.price then
    { b with
      side := Function.update b.side r.side ((b.side r.side).tally r.side (b.band.index r.price) r.price r.shares) }
  else b.park r.price r.shares

theorem tally_of_inBand {r : Resting} (h : b.band.inBand r.price = true) :
    b.tally r = { b with
      side := Function.update b.side r.side ((b.side r.side).tally r.side (b.band.index r.price) r.price r.shares) } :=
  if_pos h

theorem tally_of_not_inBand {r : Resting} (h : ¬b.band.inBand r.price = true) : b.tally r = b.park r.price r.shares :=
  if_neg h

@[simp] theorem band_tally (b : BookBuilder) (r : Resting) : (b.tally r).band = b.band := by
  unfold tally
  split_ifs <;> rfl

theorem onSums_tally (r : Resting) : OnSums fun b => b.tally r := by
  intro b version epoch own orders
  beta_reduce
  unfold tally
  rw [show (b.reframe version epoch own orders).band = b.band from rfl]
  split_ifs <;> exact ⟨version, rfl⟩

theorem park_comm {p q : ℤ} (hp : p ≠ kNoPrice) (hq : q ≠ kNoPrice) (b : BookBuilder) (m n : ℕ) :
    (b.park p m).park q n = (b.park q n).park p m := by
  have hlo : (if (if b.parkedLo = kNoPrice ∨ p < b.parkedLo then p else b.parkedLo) = kNoPrice ∨
        q < (if b.parkedLo = kNoPrice ∨ p < b.parkedLo then p else b.parkedLo) then q
        else if b.parkedLo = kNoPrice ∨ p < b.parkedLo then p else b.parkedLo) =
      if (if b.parkedLo = kNoPrice ∨ q < b.parkedLo then q else b.parkedLo) = kNoPrice ∨
        p < (if b.parkedLo = kNoPrice ∨ q < b.parkedLo then q else b.parkedLo) then p
        else if b.parkedLo = kNoPrice ∨ q < b.parkedLo then q else b.parkedLo := by
    split_ifs <;> omega
  have hhi : (if (if b.parkedHi = kNoPrice ∨ p > b.parkedHi then p else b.parkedHi) = kNoPrice ∨
        q > (if b.parkedHi = kNoPrice ∨ p > b.parkedHi then p else b.parkedHi) then q
        else if b.parkedHi = kNoPrice ∨ p > b.parkedHi then p else b.parkedHi) =
      if (if b.parkedHi = kNoPrice ∨ q > b.parkedHi then q else b.parkedHi) = kNoPrice ∨
        p > (if b.parkedHi = kNoPrice ∨ q > b.parkedHi then q else b.parkedHi) then p
        else if b.parkedHi = kNoPrice ∨ q > b.parkedHi then q else b.parkedHi := by
    split_ifs <;> omega
  unfold park
  simp only [hlo, hhi, Nat.add_right_comm]

/-- Two orders count for the same, whichever comes first. -/
theorem tally_comm {r r' : Resting} (hr : r.price ≠ kNoPrice) (hr' : r'.price ≠ kNoPrice) (b : BookBuilder) :
    (b.tally r).tally r' = (b.tally r').tally r := by
  by_cases h : b.band.inBand r.price = true
  · by_cases h' : b.band.inBand r'.price = true
    · rw [tally_of_inBand (b := b.tally r) (by rwa [band_tally]), tally_of_inBand (b := b.tally r') (by rwa [band_tally]),
        tally_of_inBand h, tally_of_inBand h']
      by_cases hs : r.side = r'.side
      · simp only [hs, Function.update_self, Function.update_idem, BookSide.tally_comm hr hr']
      · simp only [Function.update_of_ne hs, Function.update_of_ne (Ne.symm hs), Function.update_comm hs]
    · rw [tally_of_not_inBand (b := b.tally r) (by rwa [band_tally]), tally_of_inBand (b := b.tally r') (by rwa [band_tally]),
        tally_of_inBand h, tally_of_not_inBand h']
      rfl
  · by_cases h' : b.band.inBand r'.price = true
    · rw [tally_of_inBand (b := b.tally r) (by rwa [band_tally]), tally_of_not_inBand (b := b.tally r') (by rwa [band_tally]),
        tally_of_not_inBand h, tally_of_inBand h']
      rfl
    · rw [tally_of_not_inBand (b := b.tally r) (by rwa [band_tally]), tally_of_not_inBand (b := b.tally r') (by rwa [band_tally]),
        tally_of_not_inBand h, tally_of_not_inBand h']
      exact park_comm hr hr' b r.shares r'.shares

/-! ### The whole map -/

/-- The orders of a list that are not our own. -/
def others (l : List (ℕ × Resting)) : List (ℕ × Resting) := l.filter fun e => !e.2.own

/-- Where the bits are right, an order counts as `tally` says, but for the version. -/
theorem rebuildOne_eq_tally (hmarked : ∀ s, (b.side s).Marked) {r : Resting} (hown : r.own = false) :
    ∃ version, b.rebuildOne r = (b.tally r).reframe version b.epoch b.own b.orders := by
  unfold rebuildOne tally addLevel
  rw [if_neg (by rw [hown]; exact Bool.false_ne_true)]
  split_ifs
  · refine ⟨bumpIf ((b.side r.side).best = kNoPrice ∨ r.side.atLeast r.price (b.side r.side).best) b.topVersion, ?_⟩
    simp only [(hmarked r.side).add_eq]
    rfl
  · exact ⟨b.topVersion, rfl⟩

theorem marked_tally (hmarked : ∀ s, (b.side s).Marked) (r : Resting) (s : Side) : ((b.tally r).side s).Marked := by
  unfold tally
  split_ifs
  · change (Function.update b.side r.side _ s).Marked
    by_cases hs : s = r.side
    · rw [hs, Function.update_self]
      exact (hmarked r.side).tally r.side (b.band.index r.price) r.price r.shares
    · rw [Function.update_of_ne hs]
      exact hmarked s
  · exact hmarked s

theorem beside_foldl_rebuildOne (l : List (ℕ × Resting)) (hmarked : ∀ s, (b.side s).Marked) :
    Beside (l.foldl (fun b e => b.rebuildOne e.2) b) ((others l).foldl (fun b e => b.tally e.2) b) := by
  induction l generalizing b with
  | nil => exact Beside.refl b
  | cons e l ih =>
      by_cases hown : e.2.own = true
      · have hskip : b.rebuildOne e.2 = b := if_pos hown
        have hothers : others (e :: l) = others l := List.filter_cons_of_neg (by rw [hown]; exact Bool.false_ne_true)
        rw [hothers, List.foldl_cons, hskip]
        exact ih hmarked
      · have hown' : e.2.own = false := Bool.eq_false_iff.mpr hown
        have hothers : others (e :: l) = e :: others l := List.filter_cons_of_pos (by rw [hown']; rfl)
        obtain ⟨version, heq⟩ := rebuildOne_eq_tally hmarked hown'
        have hbeside : Beside (b.rebuildOne e.2) (b.tally e.2) := by
          rw [heq, ← ((onSums_tally e.2).frame b).1]
          exact Beside.symm ⟨version, b.own, b.orders, rfl⟩
        have hmarked' : ∀ s, ((b.rebuildOne e.2).side s).Marked := by
          rw [heq]
          exact marked_tally hmarked e.2
        rw [hothers, List.foldl_cons, List.foldl_cons]
        exact (ih hmarked').trans ((OnSums.foldl (fun e => onSums_tally e.2) (others l)).beside hbeside)

theorem foldl_tally_perm {l l' : List (ℕ × Resting)} (hperm : l.Perm l') (hprices : ∀ e ∈ l, e.2.price ≠ kNoPrice) (b : BookBuilder) :
    l.foldl (fun b e => b.tally e.2) b = l'.foldl (fun b e => b.tally e.2) b :=
  hperm.foldl_eq' (fun e he e' he' b => tally_comm (hprices e he) (hprices e' he') b) b

theorem marked_emptied (b : BookBuilder) (price : ℤ) (trusted : Bool) (s : Side) : ((b.emptied price trusted).side s).Marked :=
  fun _ h0 => absurd rfl h0

/-- **A rebuild does not look at the order of the map**, nor at the own orders in it. -/
theorem beside_rebuild (h : Beside b b') (hperm : (others b.orders.entries).Perm (others b'.orders.entries))
    (hprices : ∀ e ∈ others b.orders.entries, e.2.price ≠ kNoPrice) (price : ℤ) (trusted : Bool) :
    Beside (b.anchorRebuild price trusted) (b'.anchorRebuild price trusted) := by
  have hempty := (onSums_emptied price trusted).beside h
  have hleft := beside_foldl_rebuildOne b.orders.entries (marked_emptied b price trusted)
  have hright := beside_foldl_rebuildOne b'.orders.entries (marked_emptied b' price trusted)
  rw [foldl_tally_perm hperm hprices] at hleft
  rw [anchorRebuild_eq, anchorRebuild_eq]
  have hcounted := (OnSums.foldl (fun e : ℕ × Resting => onSums_tally e.2) (others b'.orders.entries)).beside hempty
  exact (hleft.trans hcounted).trans hright.symm

end BookBuilder

end TickToTrade.Dut
