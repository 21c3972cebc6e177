import Mathlib.Data.Nat.Bitwise
import Mathlib.Data.Nat.Notation
import Mathlib.Tactic.Common
import Mathlib.Tactic.Linarith
import Mathlib.Tactic.Ring

/-!
# Machine-word arithmetic

The bit scans of single words, and the division of a 32-bit word by a run-time
divisor through one multiplication. The constants of the division are computed once
for each divisor; which of its three forms applies depends on how far the divisor is
from a power of two.

## What is proved

* `testBit_highBit`, `le_highBit` and `lowBit_spec` — the scans find the outermost
  set bits.
* `apply_eq_div` — the multiplication computes the integer quotient, for every
  32-bit dividend and every divisor but zero.
-/

namespace TickToTrade.Util

/-! ### Single words -/

/-- The index of the highest set bit: `63 - countl_zero`. -/
def highBit (w : ℕ) : ℕ := w.log2

/-- The index of the lowest set bit: `countr_zero`. -/
def lowBit (w : ℕ) : ℕ := ((List.range 64).find? (w.testBit ·)).getD 64

theorem testBit_highBit {w : ℕ} (h : w ≠ 0) : w.testBit (highBit w) = true :=
  Nat.testBit_log2 h

theorem le_highBit {w j : ℕ} (h : w.testBit j = true) : j ≤ highBit w := by
  have h0 : w ≠ 0 := by rintro rfl; simp at h
  by_contra hlt
  have : w < 2 ^ j := (Nat.log2_lt h0).1 (by simpa [highBit] using hlt)
  rw [Nat.testBit_lt_two_pow this] at h
  exact Bool.false_ne_true h

/-- A non-zero word of 64 bits has its lowest bit where `lowBit` says. -/
theorem lowBit_spec {w : ℕ} (h : w ≠ 0) (hw : ∀ j, w.testBit j = true → j < 64) :
    w.testBit (lowBit w) = true ∧ ∀ j, w.testBit j = true → lowBit w ≤ j := by
  obtain ⟨j, hj⟩ := Nat.exists_testBit_of_ne_zero h
  have hsome : ((List.range 64).find? (w.testBit ·)).isSome :=
    List.find?_isSome.2 ⟨j, List.mem_range.2 (hw j hj), hj⟩
  obtain ⟨i, hi⟩ := Option.isSome_iff_exists.1 hsome
  have hlow : lowBit w = i := by rw [lowBit, hi]; rfl
  rw [hlow]
  refine ⟨List.find?_some hi, fun k hk => ?_⟩
  by_contra hlt
  have hmin := List.find?_range_eq_some.1 hi
  have := hmin.2.2 k (by omega)
  simp [hk] at this

/-! ### Division by multiplication -/

/-- The constants of one divisor. -/
structure DivBy where
  /-- The low 32 bits of the multiplier, `0` for a power of two. -/
  magic : ℕ
  /-- The final shift. -/
  shift : ℕ
  /-- Does the multiplier have a 33rd bit? -/
  add : Bool
deriving DecidableEq, Repr

namespace DivBy

/-- The constants for the divisor `d`, a 32-bit word. -/
def ofDivisor (d : ℕ) : DivBy :=
  if d &&& (d - 1) = 0 then ⟨0, lowBit d, false⟩
  else
    let floorLog2 := highBit d
    let twoToN := 2 ^ (32 + floorLog2)
    let proposed := twoToN / d % 2 ^ 32
    let rem := (twoToN - proposed * d) % 2 ^ 32
    let e := d - rem
    if e < 2 ^ floorLog2 then ⟨(proposed + 1) % 2 ^ 32, floorLog2, false⟩
    else
      let rem2 := (rem + rem) % 2 ^ 32
      let proposed := (proposed + proposed) % 2 ^ 32
      let proposed := if rem2 ≥ d ∨ rem2 < rem then (proposed + 1) % 2 ^ 32 else proposed
      ⟨(proposed + 1) % 2 ^ 32, floorLog2, true⟩

/-- The quotient of the 32-bit word `n`. -/
def apply (c : DivBy) (n : ℕ) : ℕ :=
  if c.magic = 0 then n / 2 ^ c.shift
  else
    let q := c.magic * n / 2 ^ 32 % 2 ^ 32
    if c.add then ((n + 2 ^ 32 - q) % 2 ^ 32 / 2 + q) % 2 ^ 32 / 2 ^ c.shift
    else q / 2 ^ c.shift

/-- A multiplier that exceeds `N / d` by little enough divides exactly. -/
theorem mul_div_eq {d n M N e : ℕ} (hd : 0 < d) (hM : M * d = N + e) (he : e * n < N) :
    M * n / N = n / d := by
  have hN : 0 < N := by omega
  have hle : n / d * d ≤ n := Nat.div_mul_le_self n d
  have hlt : n < (n / d + 1) * d := by
    have := Nat.lt_mul_div_succ n hd
    rwa [Nat.mul_comm] at this
  have hMn : M * n * d = n * N + e * n := by
    calc M * n * d = (M * d) * n := by ring
      _ = n * N + e * n := by rw [hM]; ring
  apply Nat.div_eq_of_lt_le
  · refine Nat.le_of_mul_le_mul_right (c := d) ?_ hd
    calc n / d * N * d = (n / d * d) * N := by ring
      _ ≤ n * N := Nat.mul_le_mul_right N hle
      _ ≤ M * n * d := by omega
  · refine Nat.lt_of_mul_lt_mul_right (a := d) ?_
    calc M * n * d < n * N + N := by omega
      _ = (n + 1) * N := by ring
      _ ≤ ((n / d + 1) * d) * N := Nat.mul_le_mul_right N hlt
      _ = (n / d + 1) * N * d := by ring

/-- The bounds that the position of the highest bit gives. -/
theorem highBit_bounds {d : ℕ} (hd : 0 < d) : 2 ^ highBit d ≤ d ∧ d < 2 ^ (highBit d + 1) :=
  (Nat.log2_eq_iff (by omega)).1 rfl

/-- Without a 33rd bit: the multiplier `K + 1` is a 32-bit word and divides exactly. -/
theorem short_apply {d n K r P : ℕ} (hd : d < 2 ^ 32) (hn : n < 2 ^ 32) (hP : P < d)
    (hK : K * d + r = 2 ^ 32 * P) (hr : r < d) (he : d - r < P) :
    K + 1 < 2 ^ 32 ∧ (K + 1) * n / 2 ^ 32 % 2 ^ 32 / P = n / d := by
  have hM : (K + 1) * d = 2 ^ 32 * P + (d - r) := by rw [Nat.add_mul, one_mul]; omega
  have hlt : K + 1 < 2 ^ 32 := by
    by_contra hge
    have : 2 ^ 32 * d ≤ (K + 1) * d := Nat.mul_le_mul_right d (by omega)
    omega
  have hq : (K + 1) * n / 2 ^ 32 < 2 ^ 32 := by
    rw [Nat.div_lt_iff_lt_mul (by norm_num)]
    calc (K + 1) * n ≤ 2 ^ 32 * n := Nat.mul_le_mul_right n hlt.le
      _ < 2 ^ 32 * 2 ^ 32 := Nat.mul_lt_mul_of_pos_left hn (by norm_num)
  refine ⟨hlt, ?_⟩
  rw [Nat.mod_eq_of_lt hq, Nat.div_div_eq_div_mul]
  refine mul_div_eq (by omega) hM ?_
  calc (d - r) * n ≤ (d - r) * 2 ^ 32 := Nat.mul_le_mul_left _ hn.le
    _ < P * 2 ^ 32 := Nat.mul_lt_mul_of_pos_right he (by norm_num)
    _ = 2 ^ 32 * P := Nat.mul_comm _ _

/-- With a 33rd bit: the multiplier is `2 ^ 32` and a word `m`, and the sum that it
calls for is halved before it can overflow. -/
theorem long_apply {d n m e P : ℕ} (hd : 0 < d) (hn : n < 2 ^ 32)
    (hm : m < 2 ^ 32) (hM : (2 ^ 32 + m) * d = 2 ^ 33 * P + e) (he : e < 2 * P) :
    ((n + 2 ^ 32 - m * n / 2 ^ 32 % 2 ^ 32) % 2 ^ 32 / 2 + m * n / 2 ^ 32 % 2 ^ 32) % 2 ^ 32 / P =
      n / d := by
  set q := m * n / 2 ^ 32 with hq
  have hqn : q ≤ n := by
    rw [hq]
    calc m * n / 2 ^ 32 ≤ 2 ^ 32 * n / 2 ^ 32 := Nat.div_le_div_right (Nat.mul_le_mul_right n hm.le)
      _ = n := Nat.mul_div_cancel_left n (by norm_num)
  have hsum : n + q = (2 ^ 32 + m) * n / 2 ^ 32 := by
    rw [Nat.add_mul, Nat.add_comm (2 ^ 32 * n), Nat.add_mul_div_left _ _ (by norm_num), ← hq]
    omega
  have hhalf : ((n + 2 ^ 32 - q % 2 ^ 32) % 2 ^ 32 / 2 + q % 2 ^ 32) % 2 ^ 32 = (n + q) / 2 := by
    omega
  rw [hhalf, hsum, Nat.div_div_eq_div_mul, Nat.div_div_eq_div_mul]
  refine mul_div_eq hd (N := 2 ^ 32 * (2 * P)) (e := e) (by rw [hM]; ring) ?_
  calc e * n ≤ e * 2 ^ 32 := Nat.mul_le_mul_left _ hn.le
    _ < 2 * P * 2 ^ 32 := Nat.mul_lt_mul_of_pos_right he (by norm_num)
    _ = 2 ^ 32 * (2 * P) := Nat.mul_comm _ _

/-- **Division by multiplication is exact.** -/
theorem apply_eq_div {d n : ℕ} (hd : 0 < d) (hd' : d < 2 ^ 32) (hn : n < 2 ^ 32) :
    (ofDivisor d).apply n = n / d := by
  obtain ⟨hlow, hhigh⟩ := highBit_bounds hd
  by_cases hpow : d &&& (d - 1) = 0
  · -- a power of two shifts by its only bit
    obtain ⟨k, rfl⟩ := (Nat.and_sub_one_eq_zero_iff_isPowerOfTwo (by omega)).1 hpow
    have hbits : ∀ j, (2 ^ k).testBit j = true → j = k := by
      intro j hj; rw [Nat.testBit_two_pow, decide_eq_true_eq] at hj; exact hj.symm
    have hk : k < 32 := (Nat.pow_lt_pow_iff_right (by norm_num)).1 hd'
    have hset := (lowBit_spec (by omega : (2 : ℕ) ^ k ≠ 0)
      (fun j hj => by rw [hbits j hj]; omega)).1
    simp only [ofDivisor, hpow, if_true, apply, hbits _ hset]
  have hne : 2 ^ highBit d ≠ d := fun h => hpow <|
    (Nat.and_sub_one_eq_zero_iff_isPowerOfTwo (by omega)).2 ⟨highBit d, h.symm⟩
  set P := 2 ^ highBit d with hP
  have hlt : P < d := lt_of_le_of_ne hlow hne
  have hhigh' : d < 2 * P := by rw [hP, ← pow_succ']; exact hhigh
  have htwo : 2 ^ (32 + highBit d) = 2 ^ 32 * P := pow_add 2 32 _
  set K := 2 ^ 32 * P / d with hK
  set r := 2 ^ 32 * P % d with hr
  have hrd : r < d := Nat.mod_lt _ hd
  have hKr : K * d + r = 2 ^ 32 * P := by rw [Nat.mul_comm]; exact Nat.div_add_mod _ _
  have hK32 : K < 2 ^ 32 := by
    rw [hK, Nat.div_lt_iff_lt_mul hd]
    exact Nat.mul_lt_mul_of_pos_left hlt (by norm_num)
  have hK31 : 2 ^ 31 ≤ K := by
    rw [hK, Nat.le_div_iff_mul_le hd]
    have := Nat.mul_le_mul_left (2 ^ 31) hhigh'.le
    omega
  have hprop : 2 ^ 32 * P / d % 2 ^ 32 = K := Nat.mod_eq_of_lt hK32
  have hrem : (2 ^ 32 * P - K * d) % 2 ^ 32 = r := by
    rw [show 2 ^ 32 * P - K * d = r by omega]; exact Nat.mod_eq_of_lt (by omega)
  by_cases he : d - r < P
  · obtain ⟨hmag, happ⟩ := short_apply hd' hn hlt hKr hrd he
    have hof : ofDivisor d = ⟨K + 1, highBit d, false⟩ := by
      simp only [ofDivisor, if_neg hpow, htwo, hprop, hrem, ← hP, if_pos he, Nat.mod_eq_of_lt hmag]
    simp only [hof, apply, Nat.add_one_ne_zero, if_false, Bool.false_eq_true, ← hP, happ]
  · -- the doubled quotient `2 * K + c` and its remainder give the 33-bit multiplier
    set c := if 2 * r ≥ d then 1 else 0 with hc
    have hc1 : c ≤ 1 := by rw [hc]; split_ifs <;> omega
    have hover : ((r + r) % 2 ^ 32 ≥ d ∨ (r + r) % 2 ^ 32 < r) ↔ 2 * r ≥ d := by omega
    have hM : (2 * K + c + 1) * d = 2 ^ 33 * P + (d + c * d - 2 * r) := by
      have h2 : 2 * K * d = 2 ^ 33 * P - 2 * r := by rw [Nat.mul_assoc]; omega
      have hcd : 2 * r ≤ d + c * d := by rw [hc]; split_ifs <;> omega
      rw [Nat.add_mul, Nat.add_mul, one_mul, h2]
      have : 2 * r ≤ 2 ^ 33 * P := by omega
      omega
    have hed : d + c * d - 2 * r ≤ d := by rw [hc]; split_ifs <;> omega
    have hm33 : 2 * K + c + 1 < 2 ^ 33 := by
      by_contra hge
      have : 2 ^ 33 * d ≤ (2 * K + c + 1) * d := Nat.mul_le_mul_right d (by omega)
      omega
    have hof : ofDivisor d = ⟨2 * K + c + 1 - 2 ^ 32, highBit d, true⟩ := by
      have hmag : ((if 2 * r ≥ d then ((K + K) % 2 ^ 32 + 1) % 2 ^ 32 else (K + K) % 2 ^ 32) + 1)
          % 2 ^ 32 = 2 * K + c + 1 - 2 ^ 32 := by
        rw [hc] at hm33 ⊢
        split_ifs at hm33 ⊢ <;> omega
      simp only [ofDivisor, if_neg hpow, htwo, hprop, hrem, ← hP, if_neg he, hover, hmag]
    have hm0 : 2 * K + c + 1 - 2 ^ 32 ≠ 0 := by omega
    simp only [hof, apply, hm0, if_false, if_true, ← hP]
    refine long_apply (e := d + c * d - 2 * r) hd hn (by omega) ?_ (by omega)
    rw [← hM, Nat.add_sub_cancel' (by omega)]

end DivBy

end TickToTrade.Util
