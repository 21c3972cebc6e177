import Mathlib.Logic.Function.Basic
import TickToTrade.Util.WordArith

/-!
# The level bitmap

One bit per price level, set while the level has shares, and above it one bit per
64-bit word of the first table, set while that word is not zero. The book finds the
next best price from it without a walk over empty levels.

## What is proved

* `prev_spec` and `next_spec` — the searches return the nearest set index on their
  side, and `none` only when there is none.
* `wf_set`, `wf_clear` and `wf_clearAll` with `has_set`, `has_clear` and
  `has_clearAll` — the two tables stay consistent, and an operation changes exactly
  the bit that it names.
-/

namespace TickToTrade.Dut

open Util

/-! ### The two tables -/

/-- The bitmap: words of 64 bits by index, and how many words the upper table has. -/
structure LevelBits where
  /-- One bit per level. -/
  l0 : ℕ → ℕ
  /-- One bit per word of `l0`. -/
  l1 : ℕ → ℕ
  /-- The number of words of `l1`. -/
  l1Size : ℕ

namespace LevelBits

/-- An empty bitmap for `ticks` levels. -/
def reset (ticks : ℕ) : LevelBits :=
  let w0 := (ticks + 63) / 64
  let w1 := (w0 + 63) / 64
  ⟨fun _ => 0, fun _ => 0, if w1 = 0 then 1 else w1⟩

/-- Zero every word. -/
def clearAll (b : LevelBits) : LevelBits := { b with l0 := fun _ => 0, l1 := fun _ => 0 }

/-- Set the bit of level `i` in both tables. -/
def set (b : LevelBits) (i : ℕ) : LevelBits :=
  { b with
    l0 := Function.update b.l0 (i / 64) (b.l0 (i / 64) ||| 2 ^ (i % 64))
    l1 := Function.update b.l1 (i / 64 / 64) (b.l1 (i / 64 / 64) ||| 2 ^ (i / 64 % 64)) }

/-- Clear the bit of level `i`, and the bit of its word once the word is zero. -/
def clear (b : LevelBits) (i : ℕ) : LevelBits :=
  let w := i / 64
  let word := b.l0 w &&& (2 ^ 64 - 1 ^^^ 2 ^ (i % 64))
  { b with
    l0 := Function.update b.l0 w word
    l1 := if word = 0 then
        Function.update b.l1 (w / 64) (b.l1 (w / 64) &&& (2 ^ 64 - 1 ^^^ 2 ^ (w % 64)))
      else b.l1 }

/-- The last word below the search's own whose bit is in `m`, the part of the upper
word `w1` still to be searched, or in an upper word before it. -/
def prevWord (b : LevelBits) : ℕ → ℕ → Option ℕ
  | 0, m => if m ≠ 0 then some (highBit m) else none
  | w1 + 1, m => if m ≠ 0 then some ((w1 + 1) * 64 + highBit m) else b.prevWord w1 (b.l1 w1)

/-- The largest set index up to `i`. -/
def prev (b : LevelBits) (i : ℕ) : Option ℕ :=
  let w := i / 64
  let bit := i % 64
  let m := b.l0 w &&& (if bit = 63 then 2 ^ 64 - 1 else 2 ^ (bit + 1) - 1)
  if m ≠ 0 then some (w * 64 + highBit m)
  else (b.prevWord (w / 64) (b.l1 (w / 64) &&& (2 ^ (w % 64) - 1))).map
    fun ww => ww * 64 + highBit (b.l0 ww)

/-- The first word above the search's own whose bit is in `m`, the part of the upper
word `w1` still to be searched, or in an upper word after it. -/
def nextWord (b : LevelBits) : ℕ → ℕ → ℕ → Option ℕ
  | 0, w1, m => if m ≠ 0 then some (w1 * 64 + lowBit m) else none
  | fuel + 1, w1, m =>
      if m ≠ 0 then some (w1 * 64 + lowBit m)
      else if w1 + 1 ≥ b.l1Size then none
      else b.nextWord fuel (w1 + 1) (b.l1 (w1 + 1))

/-- The smallest set index from `i` on. -/
def next (b : LevelBits) (i : ℕ) : Option ℕ :=
  let w := i / 64
  let m := b.l0 w &&& ((2 ^ 64 - 1) <<< (i % 64) % 2 ^ 64)
  if m ≠ 0 then some (w * 64 + lowBit m)
  else
    let b1 := w % 64
    let m1 := if b1 = 63 then 0 else b.l1 (w / 64) &&& ((2 ^ 64 - 1) <<< (b1 + 1) % 2 ^ 64)
    (b.nextWord b.l1Size (w / 64) m1).map fun ww => ww * 64 + lowBit (b.l0 ww)

/-! ### Which levels are set -/

/-- Is the bit of level `i` set? -/
def has (b : LevelBits) (i : ℕ) : Bool := (b.l0 (i / 64)).testBit (i % 64)

/-- The two tables are consistent. -/
structure WF (b : LevelBits) : Prop where
  /-- Words have 64 bits. -/
  l0_lt : ∀ w j, (b.l0 w).testBit j = true → j < 64
  /-- Upper words have 64 bits. -/
  l1_lt : ∀ w j, (b.l1 w).testBit j = true → j < 64
  /-- An upper bit says whether its word is zero. -/
  l1_iff : ∀ w, (b.l1 (w / 64)).testBit (w % 64) = true ↔ b.l0 w ≠ 0
  /-- No bit is set outside the upper table. -/
  bound : ∀ w, b.l0 w ≠ 0 → w / 64 < b.l1Size

theorem has_word {b : LevelBits} {w j : ℕ} (hj : j < 64) :
    b.has (w * 64 + j) = (b.l0 w).testBit j := by
  simp only [has]
  congr 2 <;> omega

theorem has_iff {b : LevelBits} {i : ℕ} : b.has i = true ↔ (b.l0 (i / 64)).testBit (i % 64) = true :=
  Iff.rfl

/-- The bits of an upper word name its non-zero words. -/
theorem WF.l1_word_iff {b : LevelBits} (h : b.WF) {w1 j : ℕ} :
    (b.l1 w1).testBit j = true ↔ j < 64 ∧ b.l0 (w1 * 64 + j) ≠ 0 := by
  have hiff := h.l1_iff (w1 * 64 + j)
  constructor
  · intro hj
    have h64 := h.l1_lt _ _ hj
    rw [show (w1 * 64 + j) / 64 = w1 by omega, show (w1 * 64 + j) % 64 = j by omega] at hiff
    exact ⟨h64, hiff.1 hj⟩
  · rintro ⟨h64, h0⟩
    rw [show (w1 * 64 + j) / 64 = w1 by omega, show (w1 * 64 + j) % 64 = j by omega] at hiff
    exact hiff.2 h0

theorem wf_reset (n : ℕ) : (reset n).WF := by
  constructor <;> simp [reset]

@[simp] theorem has_reset (n i : ℕ) : (reset n).has i = false := by simp [has, reset]

theorem wf_clearAll (b : LevelBits) : b.clearAll.WF := by
  constructor <;> simp [clearAll]

@[simp] theorem has_clearAll (b : LevelBits) (i : ℕ) : b.clearAll.has i = false := by
  simp [has, clearAll]

private theorem testBit_keepMask {w k j : ℕ} (hw : ∀ j, w.testBit j = true → j < 64) :
    (w &&& (2 ^ 64 - 1 ^^^ 2 ^ k)).testBit j = (w.testBit j && decide (j ≠ k)) := by
  rw [Nat.testBit_and, Nat.testBit_xor, Nat.testBit_two_pow_sub_one, Nat.testBit_two_pow]
  by_cases h : w.testBit j = true
  · have := hw j h
    by_cases hk : k = j
    · simp [h, this, hk]
    · simp [h, this, hk, Ne.symm hk]
  · simp only [Bool.not_eq_true] at h
    simp [h]

theorem has_set (b : LevelBits) (i j : ℕ) : (b.set i).has j = (decide (j = i) || b.has j) := by
  simp only [has, set, Function.update_apply]
  by_cases hw : j / 64 = i / 64
  · rw [if_pos hw, hw, Nat.testBit_or, Nat.testBit_two_pow, Bool.or_comm]
    congr 1
    exact decide_eq_decide.2 ⟨fun h => by omega, fun h => by omega⟩
  · rw [if_neg hw]
    have : j ≠ i := by rintro rfl; exact hw rfl
    simp [this]

theorem wf_set {b : LevelBits} (h : b.WF) {i : ℕ} (hi : i / 64 / 64 < b.l1Size) :
    (b.set i).WF where
  l0_lt w j hj := by
    simp only [set, Function.update_apply] at hj
    split_ifs at hj with hw
    · rw [Nat.testBit_or, Nat.testBit_two_pow, Bool.or_eq_true, decide_eq_true_eq] at hj
      rcases hj with hj | hj
      · exact h.l0_lt _ j hj
      · omega
    · exact h.l0_lt w j hj
  l1_lt w j hj := by
    simp only [set, Function.update_apply] at hj
    split_ifs at hj with hw
    · rw [Nat.testBit_or, Nat.testBit_two_pow, Bool.or_eq_true, decide_eq_true_eq] at hj
      rcases hj with hj | hj
      · exact h.l1_lt _ j hj
      · omega
    · exact h.l1_lt w j hj
  l1_iff w := by
    have hold := h.l1_iff w
    simp only [set, Function.update_apply]
    by_cases hw : w = i / 64
    · subst hw
      simp only [if_true]
      rw [Nat.testBit_or, Nat.testBit_two_pow]
      refine ⟨fun _ hz => ?_, fun _ => by simp⟩
      have : (b.l0 (i / 64) ||| 2 ^ (i % 64)).testBit (i % 64) = true := by
        rw [Nat.testBit_or, Nat.testBit_two_pow]; simp
      rw [hz] at this
      simp at this
    · rw [if_neg hw]
      by_cases hw1 : w / 64 = i / 64 / 64
      · rw [if_pos hw1, Nat.testBit_or, Nat.testBit_two_pow, ← hw1, Bool.or_eq_true,
          decide_eq_true_eq, hold]
        exact or_iff_left fun hmod => absurd (by omega : w = i / 64) hw
      · rw [if_neg hw1]; exact hold
  bound w hw0 := by
    simp only [set, Function.update_apply] at hw0
    split_ifs at hw0 with hw
    · subst hw; exact hi
    · exact h.bound w hw0

theorem has_clear {b : LevelBits} (h : b.WF) (i j : ℕ) :
    (b.clear i).has j = (b.has j && decide (j ≠ i)) := by
  simp only [has, clear, Function.update_apply]
  by_cases hw : j / 64 = i / 64
  · rw [if_pos hw, hw, testBit_keepMask (h.l0_lt _)]
    congr 1
    exact decide_eq_decide.2 (not_congr ⟨fun h => by omega, fun h => by omega⟩)
  · rw [if_neg hw]
    have : j ≠ i := by rintro rfl; exact hw rfl
    simp [this]

theorem wf_clear {b : LevelBits} (h : b.WF) (i : ℕ) : (b.clear i).WF where
  l0_lt w j hj := by
    simp only [clear, Function.update_apply] at hj
    split_ifs at hj with hw
    · rw [testBit_keepMask (h.l0_lt _), Bool.and_eq_true] at hj
      exact h.l0_lt _ j hj.1
    · exact h.l0_lt w j hj
  l1_lt w j hj := by
    simp only [clear] at hj
    split_ifs at hj with hz
    · simp only [Function.update_apply] at hj
      split_ifs at hj with hw
      · rw [testBit_keepMask (h.l1_lt _), Bool.and_eq_true] at hj
        exact h.l1_lt _ j hj.1
      · exact h.l1_lt w j hj
    · exact h.l1_lt w j hj
  l1_iff w := by
    have hold := h.l1_iff w
    simp only [clear, Function.update_apply]
    by_cases hw : w = i / 64
    · subst hw
      simp only [if_true]
      by_cases hz : b.l0 (i / 64) &&& (2 ^ 64 - 1 ^^^ 2 ^ (i % 64)) = 0
      · rw [if_pos hz, Function.update_self, testBit_keepMask (h.l1_lt _), hz]
        simp
      · rw [if_neg hz, hold]
        refine iff_of_true (fun h0 => hz ?_) hz
        rw [h0, Nat.zero_and]
    · rw [if_neg hw]
      split_ifs with hz
      · simp only [Function.update_apply]
        by_cases hw1 : w / 64 = i / 64 / 64
        · rw [if_pos hw1, testBit_keepMask (h.l1_lt _), ← hw1, Bool.and_eq_true, hold,
            decide_eq_true_eq]
          exact and_iff_left fun hmod => hw (by omega)
        · rw [if_neg hw1]; exact hold
      · exact hold
  bound w hw0 := by
    simp only [clear, Function.update_apply] at hw0
    split_ifs at hw0 with hw
    · refine h.bound w fun h0 => hw0 ?_
      rw [← hw, h0, Nat.zero_and]
    · exact h.bound w hw0

/-! ### The searches -/

/-- `prevWord` finds the last non-zero word below `lim` when `m` holds the upper bits
of the words from `w1 * 64` up to `lim`. -/
theorem prevWord_spec {b : LevelBits} (h : b.WF) : ∀ (w1 m lim : ℕ),
    w1 * 64 ≤ lim → lim ≤ (w1 + 1) * 64 →
    (∀ j, m.testBit j = true ↔ j < 64 ∧ w1 * 64 + j < lim ∧ b.l0 (w1 * 64 + j) ≠ 0) →
    match b.prevWord w1 m with
    | some ww => ww < lim ∧ b.l0 ww ≠ 0 ∧ ∀ u, ww < u → u < lim → b.l0 u = 0
    | none => ∀ u, u < lim → b.l0 u = 0 := by
  have hit : ∀ w1 m lim, lim ≤ (w1 + 1) * 64 → m ≠ 0 →
      (∀ j, m.testBit j = true ↔ j < 64 ∧ w1 * 64 + j < lim ∧ b.l0 (w1 * 64 + j) ≠ 0) →
      w1 * 64 + highBit m < lim ∧ b.l0 (w1 * 64 + highBit m) ≠ 0 ∧
        ∀ u, w1 * 64 + highBit m < u → u < lim → b.l0 u = 0 := by
    intro w1 m lim hlim hm hbits
    obtain ⟨h64, hlt, h0⟩ := (hbits _).1 (testBit_highBit hm)
    refine ⟨hlt, h0, fun u hu hul => ?_⟩
    by_contra hu0
    have hu' : u = w1 * 64 + (u - w1 * 64) := by omega
    have hb : m.testBit (u - w1 * 64) = true :=
      (hbits _).2 ⟨by omega, by omega, by rw [← hu']; exact hu0⟩
    have := le_highBit hb
    omega
  intro w1
  induction w1 with
  | zero =>
    intro m lim _ hlim hbits
    by_cases hm : m = 0
    · simp only [prevWord, hm, ne_eq, not_true_eq_false, if_false]
      intro u hu
      by_contra hu0
      have : m.testBit u = true := (hbits u).2 ⟨by omega, by omega, by simpa using hu0⟩
      simp [hm] at this
    · simp only [prevWord, ne_eq, hm, not_false_eq_true, if_true]
      simpa using hit 0 m lim hlim hm hbits
  | succ w1 ih =>
    intro m lim hlow hlim hbits
    by_cases hm : m = 0
    · have hgap : ∀ u, (w1 + 1) * 64 ≤ u → u < lim → b.l0 u = 0 := by
        intro u hu hul
        by_contra hu0
        have hu' : u = (w1 + 1) * 64 + (u - (w1 + 1) * 64) := by omega
        have : m.testBit (u - (w1 + 1) * 64) = true :=
          (hbits _).2 ⟨by omega, by omega, by rw [← hu']; exact hu0⟩
        simp [hm] at this
      have hstep := ih (b.l1 w1) ((w1 + 1) * 64) (by omega) le_rfl (fun j => by
        rw [h.l1_word_iff]
        exact and_congr_right fun h64 => (and_iff_right (by omega)).symm)
      simp only [prevWord, hm, ne_eq, not_true_eq_false, if_false]
      cases hp : b.prevWord w1 (b.l1 w1) with
      | none =>
        rw [hp] at hstep
        intro u hu
        by_cases hc : u < (w1 + 1) * 64
        · exact hstep u hc
        · exact hgap u (by omega) hu
      | some ww =>
        rw [hp] at hstep
        refine ⟨by omega, hstep.2.1, fun u hu hul => ?_⟩
        by_cases hc : u < (w1 + 1) * 64
        · exact hstep.2.2 u hu hc
        · exact hgap u (by omega) hul
    · simp only [prevWord, ne_eq, hm, not_false_eq_true, if_true]
      exact hit (w1 + 1) m lim hlim hm hbits

/-- **The search down** finds the largest set index up to `i`. -/
theorem prev_spec {b : LevelBits} (h : b.WF) (i : ℕ) :
    match b.prev i with
    | some j => j ≤ i ∧ b.has j = true ∧ ∀ k, j < k → k ≤ i → b.has k = false
    | none => ∀ k, k ≤ i → b.has k = false := by
  set m := b.l0 (i / 64) &&& (if i % 64 = 63 then 2 ^ 64 - 1 else 2 ^ (i % 64 + 1) - 1) with hm
  have hbit : ∀ j, m.testBit j = true ↔ (b.l0 (i / 64)).testBit j = true ∧ j ≤ i % 64 := by
    intro j
    have hmask : (if i % 64 = 63 then 2 ^ 64 - 1 else 2 ^ (i % 64 + 1) - 1) =
        2 ^ (i % 64 + 1) - 1 := by
      split_ifs with hc
      · rw [hc]
      · rfl
    rw [hm, hmask, Nat.testBit_and, Nat.testBit_two_pow_sub_one, Bool.and_eq_true,
      decide_eq_true_eq, Nat.lt_succ_iff]
  by_cases h0 : m = 0
  · -- nothing in the word of `i`
    have hword : ∀ k, k ≤ i → k / 64 = i / 64 → b.has k = false := by
      intro k hk hkw
      by_contra hset
      rw [Bool.not_eq_false, has_iff, hkw] at hset
      have : m.testBit (k % 64) = true := (hbit _).2 ⟨hset, by omega⟩
      simp [h0] at this
    have hw := prevWord_spec h (i / 64 / 64) (b.l1 (i / 64 / 64) &&& (2 ^ (i / 64 % 64) - 1))
      (i / 64) (by omega) (by omega) (fun j => by
        rw [Nat.testBit_and, Nat.testBit_two_pow_sub_one, Bool.and_eq_true, decide_eq_true_eq,
          h.l1_word_iff, and_assoc]
        refine and_congr_right fun h64 => ?_
        rw [and_comm]
        exact and_congr_left fun _ => ⟨fun hl => by omega, fun hl => by omega⟩)
    have hzero : ∀ u, b.l0 u = 0 → ∀ k, k / 64 = u → b.has k = false := by
      intro u hu k hk; simp [has, hk, hu]
    have hprev : b.prev i = (b.prevWord (i / 64 / 64)
        (b.l1 (i / 64 / 64) &&& (2 ^ (i / 64 % 64) - 1))).map
          fun ww => ww * 64 + highBit (b.l0 ww) := by
      simp only [prev, ← hm, h0, ne_eq, not_true_eq_false, if_false]
    rw [hprev]
    cases hp : b.prevWord (i / 64 / 64) (b.l1 (i / 64 / 64) &&& (2 ^ (i / 64 % 64) - 1)) with
    | none =>
      rw [hp] at hw
      intro k hk
      by_cases hkw : k / 64 = i / 64
      · exact hword k hk hkw
      · exact hzero _ (hw (k / 64) (by omega)) k rfl
    | some ww =>
      rw [hp] at hw
      obtain ⟨hlt, hne, hgap⟩ := hw
      have h64 := h.l0_lt _ _ (testBit_highBit hne)
      simp only [Option.map_some]
      refine ⟨by omega, by rw [has_word h64]; exact testBit_highBit hne, fun k hjk hki => ?_⟩
      by_cases hkw : k / 64 = i / 64
      · exact hword k hki hkw
      · by_cases hkww : k / 64 = ww
        · by_contra hset
          rw [Bool.not_eq_false, has_iff, hkww] at hset
          have := le_highBit hset
          omega
        · exact hzero _ (hgap (k / 64) (by omega) (by omega)) k rfl
  · have hprev : b.prev i = some (i / 64 * 64 + highBit m) := by
      simp only [prev, ← hm, ne_eq, h0, not_false_eq_true, if_true]
    rw [hprev]
    obtain ⟨hset, hle⟩ := (hbit _).1 (testBit_highBit h0)
    have h64 := h.l0_lt _ _ hset
    refine ⟨by omega, by rw [has_word h64]; exact hset, fun k hjk hki => ?_⟩
    by_contra hk
    rw [Bool.not_eq_false, has_iff, show k / 64 = i / 64 by omega] at hk
    have := le_highBit ((hbit (k % 64)).2 ⟨hk, by omega⟩)
    omega

/-- `nextWord` finds the first non-zero word from `lim` on when `m` holds the upper
bits of the words from `lim` to the end of the upper word `w1`. -/
theorem nextWord_spec {b : LevelBits} (h : b.WF) : ∀ (fuel w1 m lim : ℕ),
    w1 * 64 ≤ lim → lim ≤ (w1 + 1) * 64 → b.l1Size ≤ w1 + 1 + fuel →
    (∀ j, m.testBit j = true ↔ j < 64 ∧ lim ≤ w1 * 64 + j ∧ b.l0 (w1 * 64 + j) ≠ 0) →
    match b.nextWord fuel w1 m with
    | some ww => lim ≤ ww ∧ b.l0 ww ≠ 0 ∧ ∀ u, lim ≤ u → u < ww → b.l0 u = 0
    | none => ∀ u, lim ≤ u → b.l0 u = 0 := by
  have hit : ∀ w1 m lim, w1 * 64 ≤ lim → m ≠ 0 →
      (∀ j, m.testBit j = true ↔ j < 64 ∧ lim ≤ w1 * 64 + j ∧ b.l0 (w1 * 64 + j) ≠ 0) →
      lim ≤ w1 * 64 + lowBit m ∧ b.l0 (w1 * 64 + lowBit m) ≠ 0 ∧
        ∀ u, lim ≤ u → u < w1 * 64 + lowBit m → b.l0 u = 0 := by
    intro w1 m lim hlim hm hbits
    obtain ⟨hset, hmin⟩ := lowBit_spec hm fun j hj => ((hbits j).1 hj).1
    obtain ⟨h64, hle, h0⟩ := (hbits _).1 hset
    refine ⟨hle, h0, fun u hul hu => ?_⟩
    by_contra hu0
    have hu' : u = w1 * 64 + (u - w1 * 64) := by omega
    have := hmin _ ((hbits (u - w1 * 64)).2 ⟨by omega, by omega, by rw [← hu']; exact hu0⟩)
    omega
  -- the words of `w1` from `lim` on are zero when `m` is
  have miss : ∀ w1 m lim, w1 * 64 ≤ lim → m = 0 →
      (∀ j, m.testBit j = true ↔ j < 64 ∧ lim ≤ w1 * 64 + j ∧ b.l0 (w1 * 64 + j) ≠ 0) →
      ∀ u, lim ≤ u → u < (w1 + 1) * 64 → b.l0 u = 0 := by
    intro w1 m lim hlim hm hbits u hul hu
    by_contra hu0
    have hu' : u = w1 * 64 + (u - w1 * 64) := by omega
    have := (hbits (u - w1 * 64)).2 ⟨by omega, by omega, by rw [← hu']; exact hu0⟩
    simp [hm] at this
  intro fuel
  induction fuel with
  | zero =>
    intro w1 m lim hlim hlim2 hfuel hbits
    by_cases hm : m = 0
    · simp only [nextWord, hm, ne_eq, not_true_eq_false, if_false]
      intro u hu
      by_cases hc : u < (w1 + 1) * 64
      · exact miss w1 m lim hlim hm hbits u hu hc
      · by_contra hu0
        have := h.bound u hu0
        omega
    · simp only [nextWord, ne_eq, hm, not_false_eq_true, if_true]
      exact hit w1 m lim hlim hm hbits
  | succ n ih =>
    intro w1 m lim hlim hlim2 hfuel hbits
    by_cases hm : m = 0
    · have hgap := miss w1 m lim hlim hm hbits
      by_cases hend : w1 + 1 ≥ b.l1Size
      · simp only [nextWord, hm, ne_eq, not_true_eq_false, if_false, if_pos hend]
        intro u hu
        by_cases hc : u < (w1 + 1) * 64
        · exact hgap u hu hc
        · by_contra hu0
          have := h.bound u hu0
          omega
      · have hstep := ih (w1 + 1) (b.l1 (w1 + 1)) ((w1 + 1) * 64) le_rfl (by omega) (by omega)
          (fun j => by
            rw [h.l1_word_iff]
            exact and_congr_right fun _ => (and_iff_right (by omega)).symm)
        simp only [nextWord, hm, ne_eq, not_true_eq_false, if_false, if_neg hend]
        cases hp : b.nextWord n (w1 + 1) (b.l1 (w1 + 1)) with
        | none =>
          rw [hp] at hstep
          intro u hu
          by_cases hc : u < (w1 + 1) * 64
          · exact hgap u hu hc
          · exact hstep u (by omega)
        | some ww =>
          rw [hp] at hstep
          refine ⟨by omega, hstep.2.1, fun u hu hul => ?_⟩
          by_cases hc : u < (w1 + 1) * 64
          · exact hgap u hu hc
          · exact hstep.2.2 u (by omega) hul
    · simp only [nextWord, ne_eq, hm, not_false_eq_true, if_true]
      exact hit w1 m lim hlim hm hbits

private theorem testBit_topMask {k j : ℕ} :
    ((2 ^ 64 - 1) <<< k % 2 ^ 64).testBit j = (decide (j < 64) && decide (k ≤ j)) := by
  rw [Nat.testBit_mod_two_pow, Nat.testBit_shiftLeft, Nat.testBit_two_pow_sub_one]
  by_cases hj : j < 64
  · by_cases hk : k ≤ j
    · simp only [hj, hk, decide_true, Bool.true_and]
      exact decide_eq_true (by omega)
    · simp [hk]
  · simp [hj]

/-- **The search up** finds the smallest set index from `i` on. -/
theorem next_spec {b : LevelBits} (h : b.WF) (i : ℕ) :
    match b.next i with
    | some j => i ≤ j ∧ b.has j = true ∧ ∀ k, i ≤ k → k < j → b.has k = false
    | none => ∀ k, i ≤ k → b.has k = false := by
  set m := b.l0 (i / 64) &&& ((2 ^ 64 - 1) <<< (i % 64) % 2 ^ 64) with hm
  set m1 := if i / 64 % 64 = 63 then 0
    else b.l1 (i / 64 / 64) &&& ((2 ^ 64 - 1) <<< (i / 64 % 64 + 1) % 2 ^ 64) with hm1
  have hbit : ∀ j, m.testBit j = true ↔ (b.l0 (i / 64)).testBit j = true ∧ i % 64 ≤ j := by
    intro j
    rw [hm, Nat.testBit_and, testBit_topMask, Bool.and_eq_true, Bool.and_eq_true,
      decide_eq_true_eq, decide_eq_true_eq]
    exact ⟨fun hj => ⟨hj.1, hj.2.2⟩, fun hj => ⟨hj.1, h.l0_lt _ _ hj.1, hj.2⟩⟩
  by_cases h0 : m = 0
  · have hword : ∀ k, i ≤ k → k / 64 = i / 64 → b.has k = false := by
      intro k hk hkw
      by_contra hset
      rw [Bool.not_eq_false, has_iff, hkw] at hset
      have : m.testBit (k % 64) = true := (hbit _).2 ⟨hset, by omega⟩
      simp [h0] at this
    have hw := nextWord_spec h b.l1Size (i / 64 / 64) m1 (i / 64 + 1) (by omega) (by omega)
      (by omega) (fun j => by
        rw [hm1]
        split_ifs with hc
        · simp only [Nat.zero_testBit, Bool.false_eq_true, false_iff]
          rintro ⟨h64, hle, -⟩
          omega
        · rw [Nat.testBit_and, testBit_topMask, Bool.and_eq_true, Bool.and_eq_true,
            decide_eq_true_eq, decide_eq_true_eq, h.l1_word_iff]
          constructor
          · rintro ⟨⟨h64, hne⟩, -, hle⟩; exact ⟨h64, by omega, hne⟩
          · rintro ⟨h64, hle, hne⟩; exact ⟨⟨h64, hne⟩, h64, by omega⟩)
    have hzero : ∀ u, b.l0 u = 0 → ∀ k, k / 64 = u → b.has k = false := by
      intro u hu k hk; simp [has, hk, hu]
    have hnext : b.next i = (b.nextWord b.l1Size (i / 64 / 64) m1).map
        fun ww => ww * 64 + lowBit (b.l0 ww) := by
      simp only [next, ← hm, h0, ne_eq, not_true_eq_false, if_false, hm1]
    rw [hnext]
    cases hp : b.nextWord b.l1Size (i / 64 / 64) m1 with
    | none =>
      rw [hp] at hw
      intro k hk
      by_cases hkw : k / 64 = i / 64
      · exact hword k hk hkw
      · exact hzero _ (hw (k / 64) (by omega)) k rfl
    | some ww =>
      rw [hp] at hw
      obtain ⟨hlt, hne, hgap⟩ := hw
      obtain ⟨hset, hmin⟩ := lowBit_spec hne (h.l0_lt ww)
      have h64 := h.l0_lt _ _ hset
      simp only [Option.map_some]
      refine ⟨by omega, by rw [has_word h64]; exact hset, fun k hik hkj => ?_⟩
      by_cases hkw : k / 64 = i / 64
      · exact hword k hik hkw
      · by_cases hkww : k / 64 = ww
        · by_contra hk
          rw [Bool.not_eq_false, has_iff, hkww] at hk
          have := hmin _ hk
          omega
        · exact hzero _ (hgap (k / 64) (by omega) (by omega)) k rfl
  · have hnext : b.next i = some (i / 64 * 64 + lowBit m) := by
      simp only [next, ← hm, ne_eq, h0, not_false_eq_true, if_true]
    rw [hnext]
    obtain ⟨hset, hmin⟩ := lowBit_spec h0 fun j hj => h.l0_lt _ _ ((hbit j).1 hj).1
    obtain ⟨hset0, hle⟩ := (hbit _).1 hset
    have h64 := h.l0_lt _ _ hset0
    refine ⟨by omega, by rw [has_word h64]; exact hset0, fun k hik hkj => ?_⟩
    by_contra hk
    rw [Bool.not_eq_false, has_iff, show k / 64 = i / 64 by omega] at hk
    have := hmin _ ((hbit (k % 64)).2 ⟨hk, by omega⟩)
    omega

end LevelBits

end TickToTrade.Dut
