import TickToTrade.Util.WordArith

/-!
# Division by multiplication, on the words

The constants and the quotient once more, now with the types of the program: 32-bit words that
wrap, and one 64-bit product. Every operation does to the words what `DivBy` does to their
values, so the quotient is exact.

## What is proved

* `toDivBy_ofDivisor` and `toNat_apply` — the words compute what `DivBy` computes.
* `apply_exact` — the quotient of the words is the quotient, for every pair of words.
-/

namespace TickToTrade.Util

/-- The constants of one divisor, as words. -/
structure DivWords where
  /-- The low word of the multiplier, `0` for a power of two. -/
  magic : UInt32
  /-- The final shift. -/
  shift : UInt32
  /-- Does the multiplier have a 33rd bit? -/
  add : Bool
deriving DecidableEq

namespace DivWords

variable {c : DivWords} {d n : UInt32}

/-- `__builtin_ctz`. -/
def ctz (d : UInt32) : UInt32 := UInt32.ofNat (lowBit d.toNat)

/-- `__builtin_clz`. -/
def clz (d : UInt32) : UInt32 := UInt32.ofNat (31 - highBit d.toNat)

/-- The constants for the divisor. -/
def ofDivisor (d : UInt32) : DivWords :=
  if d &&& (d - 1) = 0 then ⟨0, ctz d, false⟩
  else
    let floorLog2 : UInt32 := 31 - clz d
    let twoToN : UInt64 := 1 <<< (32 + floorLog2).toUInt64
    let proposed : UInt32 := (twoToN / d.toUInt64).toUInt32
    let rem : UInt32 := (twoToN - proposed.toUInt64 * d.toUInt64).toUInt32
    let e : UInt32 := d - rem
    if e < 1 <<< floorLog2 then ⟨proposed + 1, floorLog2, false⟩
    else
      let rem2 : UInt32 := rem + rem
      let proposed : UInt32 := proposed + proposed
      let proposed : UInt32 := if rem2 ≥ d ∨ rem2 < rem then proposed + 1 else proposed
      ⟨proposed + 1, floorLog2, true⟩

/-- The quotient of the word. -/
def apply (c : DivWords) (n : UInt32) : UInt32 :=
  if c.magic = 0 then n >>> c.shift
  else
    let q : UInt32 := ((c.magic.toUInt64 * n.toUInt64) >>> 32).toUInt32
    if c.add then (((n - q) >>> 1) + q) >>> c.shift
    else q >>> c.shift

/-- The values of the constants. -/
def toDivBy (c : DivWords) : DivBy := ⟨c.magic.toNat, c.shift.toNat, c.add⟩

/-! ### The quotient -/

theorem toNat_shiftRight_of_lt (hn : n.toNat < 32) (m : UInt32) : (m >>> n).toNat = m.toNat / 2 ^ n.toNat := by
  rw [UInt32.toNat_shiftRight, Nat.mod_eq_of_lt hn, Nat.shiftRight_eq_div_pow]

/-- The words divide as their values do. -/
theorem toNat_apply (hshift : c.shift.toNat < 32) (n : UInt32) : (c.apply n).toNat = c.toDivBy.apply n.toNat := by
  have hmagic : c.magic = 0 ↔ c.toDivBy.magic = 0 := UInt32.toNat_inj.symm
  have hq : ((c.magic.toUInt64 * n.toUInt64) >>> 32).toUInt32.toNat = c.magic.toNat * n.toNat / 2 ^ 32 % 2 ^ 32 := by
    have hprod : c.magic.toNat * n.toNat < 2 ^ 64 := by
      have hm := c.magic.toNat_lt
      have hn := n.toNat_lt
      calc c.magic.toNat * n.toNat < 2 ^ 32 * 2 ^ 32 := Nat.mul_lt_mul'' hm hn
        _ = 2 ^ 64 := by norm_num
    rw [UInt64.toNat_toUInt32, UInt64.toNat_shiftRight, UInt64.toNat_mul, UInt32.toNat_toUInt64, UInt32.toNat_toUInt64,
      Nat.mod_eq_of_lt hprod, Nat.shiftRight_eq_div_pow]
    rfl
  set q := ((c.magic.toUInt64 * n.toUInt64) >>> 32).toUInt32 with hqdef
  have hsum : (((n - q) >>> 1) + q).toNat = ((n.toNat + 2 ^ 32 - q.toNat) % 2 ^ 32 / 2 + q.toNat) % 2 ^ 32 := by
    have hdiff : (n - q).toNat = (n.toNat + 2 ^ 32 - q.toNat) % 2 ^ 32 := by
      rw [UInt32.toNat_sub]
      congr 1
      have := q.toNat_lt
      omega
    rw [UInt32.toNat_add, toNat_shiftRight_of_lt (by decide), hdiff]
    rfl
  unfold apply DivBy.apply
  simp only [hmagic, ← hqdef]
  by_cases h0 : c.toDivBy.magic = 0
  · rw [if_pos h0, if_pos h0]
    exact toNat_shiftRight_of_lt hshift n
  · rw [if_neg h0, if_neg h0]
    change (if c.add = true then _ else _ : UInt32).toNat = if c.add = true then _ else _
    by_cases hadd : c.add = true
    · rw [if_pos hadd, if_pos hadd, toNat_shiftRight_of_lt hshift, hsum, hq]
      rfl
    · rw [if_neg hadd, if_neg hadd, toNat_shiftRight_of_lt hshift, hq]
      rfl

/-! ### The constants -/

theorem toNat_clz (hd : d ≠ 0) : (31 - clz d).toNat = highBit d.toNat := by
  have hpos : 0 < d.toNat := Nat.pos_of_ne_zero fun h0 => hd (UInt32.toNat_inj.mp h0)
  have hlt : highBit d.toNat < 32 := (Nat.pow_lt_pow_iff_right (by norm_num)).mp ((DivBy.highBit_bounds hpos).1.trans_lt d.toNat_lt)
  have hclz : (clz d).toNat = 31 - highBit d.toNat := by
    rw [clz, UInt32.toNat_ofNat', Nat.mod_eq_of_lt (by omega)]
  rw [UInt32.toNat_sub, hclz, show (31 : UInt32).toNat = 31 from rfl]
  omega

/-- `__builtin_ctz` finds a bit of the word. -/
theorem toNat_ctz (hd : d ≠ 0) : (ctz d).toNat = lowBit d.toNat ∧ lowBit d.toNat < 32 := by
  have hbits : ∀ j, d.toNat.testBit j = true → j < 32 := by
    intro j hj
    by_contra hge
    rw [Nat.testBit_lt_two_pow (d.toNat_lt.trans_le (Nat.pow_le_pow_right (by norm_num) (not_lt.mp hge)))] at hj
    cases hj
  have hne : d.toNat ≠ 0 := fun h0 => hd (UInt32.toNat_inj.mp h0)
  have hlt := hbits _ (lowBit_spec hne fun j hj => (hbits j hj).trans (by norm_num)).1
  exact ⟨by rw [ctz, UInt32.toNat_ofNat', Nat.mod_eq_of_lt (by omega)], hlt⟩

theorem and_pred_eq_zero (hd : d ≠ 0) : d &&& (d - 1) = 0 ↔ d.toNat &&& (d.toNat - 1) = 0 := by
  have hpos : 0 < d.toNat := Nat.pos_of_ne_zero fun h0 => hd (UInt32.toNat_inj.mp h0)
  have hpred : (d - 1).toNat = d.toNat - 1 := UInt32.toNat_sub_of_le d 1 (UInt32.le_iff_toNat_le.mpr hpos)
  rw [← UInt32.toNat_inj, UInt32.toNat_and, hpred]
  rfl

/-- The 64-bit remainder, where the quotient is a word. -/
theorem toNat_rem {twoToN : UInt64} (hd : d ≠ 0) (hq : twoToN.toNat / d.toNat < 2 ^ 32) :
    (twoToN / d.toUInt64).toUInt32.toNat = twoToN.toNat / d.toNat % 2 ^ 32 ∧
      (twoToN - (twoToN / d.toUInt64).toUInt32.toUInt64 * d.toUInt64).toUInt32.toNat =
        (twoToN.toNat - twoToN.toNat / d.toNat % 2 ^ 32 * d.toNat) % 2 ^ 32 := by
  have hprop : (twoToN / d.toUInt64).toUInt32.toNat = twoToN.toNat / d.toNat % 2 ^ 32 := by
    rw [UInt64.toNat_toUInt32, UInt64.toNat_div, UInt32.toNat_toUInt64]
  refine ⟨hprop, ?_⟩
  have hle : twoToN.toNat / d.toNat * d.toNat ≤ twoToN.toNat := Nat.div_mul_le_self ..
  have hprod : ((twoToN / d.toUInt64).toUInt32.toUInt64 * d.toUInt64).toNat = twoToN.toNat / d.toNat % 2 ^ 32 * d.toNat := by
    rw [UInt64.toNat_mul, UInt32.toNat_toUInt64, UInt32.toNat_toUInt64, hprop, Nat.mod_eq_of_lt hq]
    exact Nat.mod_eq_of_lt (hle.trans_lt twoToN.toNat_lt)
  rw [UInt64.toNat_toUInt32, UInt64.toNat_sub_of_le, hprod]
  rw [UInt64.le_iff_toNat_le, hprod, Nat.mod_eq_of_lt hq]
  exact hle

/-- The constants of the words are those of the values. -/
theorem toDivBy_ofDivisor (hd : d ≠ 0) : (ofDivisor d).toDivBy = DivBy.ofDivisor d.toNat ∧ (ofDivisor d).shift.toNat < 32 := by
  have hpos : 0 < d.toNat := Nat.pos_of_ne_zero fun h0 => hd (UInt32.toNat_inj.mp h0)
  obtain ⟨hlow, -⟩ := DivBy.highBit_bounds hpos
  have hbit : highBit d.toNat < 32 := (Nat.pow_lt_pow_iff_right (by norm_num)).mp (hlow.trans_lt d.toNat_lt)
  have hlog := toNat_clz hd
  unfold ofDivisor DivBy.ofDivisor
  simp only [and_pred_eq_zero hd]
  by_cases hpow : d.toNat &&& (d.toNat - 1) = 0
  · obtain ⟨hctz, hlt⟩ := toNat_ctz hd
    rw [if_pos hpow, if_pos hpow]
    exact ⟨by rw [toDivBy, hctz]; rfl, by rw [hctz]; exact hlt⟩
  · rw [if_neg hpow, if_neg hpow]
    generalize 31 - clz d = floorLog2 at hlog ⊢
    have hne : 2 ^ highBit d.toNat ≠ d.toNat := fun h =>
      hpow ((Nat.and_sub_one_eq_zero_iff_isPowerOfTwo (by omega)).mpr ⟨highBit d.toNat, h.symm⟩)
    have htwo : (1 <<< (32 + floorLog2).toUInt64 : UInt64).toNat = 2 ^ (32 + highBit d.toNat) := by
      have hexp : (32 + floorLog2).toUInt64.toNat = 32 + highBit d.toNat := by
        rw [UInt32.toNat_toUInt64, UInt32.toNat_add, hlog, show (32 : UInt32).toNat = 32 from rfl, Nat.mod_eq_of_lt (by omega)]
      rw [UInt64.toNat_shiftLeft, hexp, Nat.mod_eq_of_lt (by omega : 32 + highBit d.toNat < 64), Nat.shiftLeft_eq,
        show (1 : UInt64).toNat = 1 from rfl, one_mul]
      exact Nat.mod_eq_of_lt (Nat.pow_lt_pow_right (by norm_num) (by omega))
    generalize (1 <<< (32 + floorLog2).toUInt64 : UInt64) = twoToN at htwo ⊢
    have hone : (1 <<< floorLog2 : UInt32).toNat = 2 ^ highBit d.toNat := by
      rw [UInt32.toNat_shiftLeft, hlog, Nat.mod_eq_of_lt hbit, Nat.shiftLeft_eq, show (1 : UInt32).toNat = 1 from rfl, one_mul]
      exact Nat.mod_eq_of_lt (Nat.pow_lt_pow_right (by norm_num) hbit)
    have hq : twoToN.toNat / d.toNat < 2 ^ 32 := by
      rw [htwo, Nat.div_lt_iff_lt_mul hpos, pow_add]
      exact Nat.mul_lt_mul_of_pos_left (lt_of_le_of_ne hlow hne) (by norm_num)
    obtain ⟨hprop, hrem⟩ := toNat_rem hd hq
    generalize (twoToN - (twoToN / d.toUInt64).toUInt32.toUInt64 * d.toUInt64).toUInt32 = rem at hrem ⊢
    generalize (twoToN / d.toUInt64).toUInt32 = proposed at hprop ⊢
    rw [← htwo, ← hprop]
    rw [← hprop] at hrem
    -- the remainder is one, so that the error does not wrap
    have hlt : rem.toNat < d.toNat := by
      have hmod := Nat.mod_lt twoToN.toNat hpos
      have hdiv := Nat.div_add_mod twoToN.toNat d.toNat
      rw [hrem, hprop, Nat.mod_eq_of_lt hq, Nat.mul_comm]
      have hword := d.toNat_lt
      omega
    have herr : (d - rem).toNat = d.toNat - rem.toNat := UInt32.toNat_sub_of_le d rem (UInt32.le_iff_toNat_le.mpr hlt.le)
    have hshort : d - rem < 1 <<< floorLog2 ↔ d.toNat - rem.toNat < 2 ^ highBit d.toNat := by
      rw [UInt32.lt_iff_toNat_lt, herr, hone]
    rw [← hrem]
    simp only [hshort]
    by_cases he : d.toNat - rem.toNat < 2 ^ highBit d.toNat
    · rw [if_pos he, if_pos he, toDivBy, hlog]
      exact ⟨by rw [UInt32.toNat_add]; rfl, hbit⟩
    · have hover : (rem + rem ≥ d ∨ rem + rem < rem) ↔ ((rem.toNat + rem.toNat) % 2 ^ 32 ≥ d.toNat ∨ (rem.toNat + rem.toNat) % 2 ^ 32 < rem.toNat) := by
        rw [ge_iff_le, UInt32.le_iff_toNat_le, UInt32.lt_iff_toNat_lt, UInt32.toNat_add]
      rw [if_neg he, if_neg he, toDivBy, hlog]
      simp only [hover]
      refine ⟨?_, hbit⟩
      rw [UInt32.toNat_add, apply_ite UInt32.toNat, UInt32.toNat_add, UInt32.toNat_add]
      rfl

/-- **The quotient of the words is exact.** -/
theorem apply_exact (d n : UInt32) (hd : d ≠ 0) : (ofDivisor d).apply n = n / d := by
  have hpos : 0 < d.toNat := Nat.pos_of_ne_zero fun h0 => hd (UInt32.toNat_inj.mp h0)
  obtain ⟨hwords, hshift⟩ := toDivBy_ofDivisor hd
  rw [← UInt32.toNat_inj, toNat_apply hshift, hwords, UInt32.toNat_div]
  exact DivBy.apply_eq_div hpos d.toNat_lt n.toNat_lt

/-- A divisor whose multiplier has a 33rd bit. -/
theorem apply_exact_seven : (ofDivisor 7).apply 4294967295 = 613566756 := apply_exact 7 4294967295 (by decide)

end DivWords

end TickToTrade.Util
