import Mathlib.Data.List.Basic
import Mathlib.Order.Basic
import Mathlib.Tactic.Common

/-!
# The options of an OUCH message

Behind the fixed part of a message stand options, each with a length byte that counts the tag and
the value, the tag, and the value. The writer checks that the option fits into the buffer, and
not that its length fits into the byte.

## What is proved

* `found_inside` — the reader reports only what lies inside the bytes.
* `options_round_trip_iff` — the reader reads back what was written just when every value has at most 254
  bytes.
-/

namespace TickToTrade.Ouch

/-- An option: its tag and its value. -/
structure Opt where
  tag : UInt8
  value : List UInt8
deriving DecidableEq, Repr

/-- `writeOption`: the number of bytes written, and the buffer; `0` when it does not fit. -/
def writeOption (out : List UInt8) (tag : UInt8) (value : List UInt8) : ℕ × List UInt8 :=
  let total := 2 + value.length
  if out.length < total then (0, out)
  else (total, UInt8.ofNat (1 + value.length) :: tag :: value ++ out.drop total)

/-- Write options one after the other into a buffer; `none` when one is not accepted. -/
def writeOptions (out : List UInt8) : List Opt → Option (List UInt8)
  | [] => some []
  | o :: opts =>
      let (n, out) := writeOption out o.tag o.value
      if n = 0 then none else (writeOptions (out.drop n) opts).map (out.take n ++ ·)

/-- An option that the reader reports, and where its length byte stands. -/
structure Found where
  start : ℕ
  opt : Opt
deriving DecidableEq, Repr

/-- The loop of `forEachOption` from index `i` on. Every byte is read at an index that is known to be in the bytes. -/
def foundFrom (appendage : List UInt8) (i : ℕ) : List Found :=
  if h : i + 1 < appendage.length then
    let len := appendage[i].toNat
    if len = 0 ∨ i + 1 + len > appendage.length then []
    else ⟨i, appendage[i + 1], (appendage.drop (i + 2)).take (len - 1)⟩ :: foundFrom appendage (i + 1 + len)
  else []
termination_by appendage.length - i

/-- `forEachOption`: what it calls back with. -/
def forEachOption (appendage : List UInt8) : List Opt := (foundFrom appendage 0).map Found.opt

variable {appendage : List UInt8} {i : ℕ} {o : Opt} {opts : List Opt}

/-! ### What is reported -/

theorem foundFrom_of_end (h : appendage.length ≤ i + 1) : foundFrom appendage i = [] := by
  rw [foundFrom, dif_neg (by omega)]

/-- The option lies inside the bytes, and is what its length byte says. -/
structure Inside (appendage : List UInt8) (r : Found) : Prop where
  end_le : r.start + 2 + r.opt.value.length ≤ appendage.length
  len : (appendage.getD r.start 0).toNat = 1 + r.opt.value.length
  tag : appendage.getD (r.start + 1) 0 = r.opt.tag
  value : r.opt.value = (appendage.drop (r.start + 2)).take r.opt.value.length

theorem foundFrom_of_stop (h : i + 1 < appendage.length) (hstop : appendage[i].toNat = 0 ∨ i + 1 + appendage[i].toNat > appendage.length) :
    foundFrom appendage i = [] := by
  rw [foundFrom, dif_pos h]
  exact if_pos hstop

theorem foundFrom_of_go {len : ℕ} (h : i + 1 < appendage.length) (hlen : appendage[i].toNat = len) (h0 : len ≠ 0)
    (hle : i + 1 + len ≤ appendage.length) :
    foundFrom appendage i = ⟨i, appendage[i + 1], (appendage.drop (i + 2)).take (len - 1)⟩ :: foundFrom appendage (i + 1 + len) := by
  subst hlen
  rw [foundFrom, dif_pos h]
  exact if_neg (by omega)

/-- The reports lie inside the bytes, one behind the other. -/
theorem found_inside (appendage : List UInt8) (i : ℕ) :
    (∀ r ∈ foundFrom appendage i, i ≤ r.start ∧ Inside appendage r) ∧
      (foundFrom appendage i).Pairwise fun r r' => r.start + 2 + r.opt.value.length ≤ r'.start := by
  -- induction on what is left behind the index
  obtain ⟨n, hn⟩ : ∃ n, n = appendage.length - i := ⟨_, rfl⟩
  induction n using Nat.strongRecOn generalizing i with
  | ind n ih =>
      have hnone : foundFrom appendage i = [] → (∀ r ∈ foundFrom appendage i, i ≤ r.start ∧ Inside appendage r) ∧
          (foundFrom appendage i).Pairwise fun r r' => r.start + 2 + r.opt.value.length ≤ r'.start := by
        intro hnil
        rw [hnil]
        exact ⟨fun r hr => absurd hr List.not_mem_nil, List.Pairwise.nil⟩
      by_cases h : i + 1 < appendage.length
      · by_cases hstop : appendage[i].toNat = 0 ∨ i + 1 + appendage[i].toNat > appendage.length
        · exact hnone (foundFrom_of_stop h hstop)
        · obtain ⟨len, hlen⟩ : ∃ len, appendage[i].toNat = len := ⟨_, rfl⟩
          rw [hlen] at hstop
          obtain ⟨hinside, hpair⟩ := ih (appendage.length - (i + 1 + len)) (by omega) (i + 1 + len) rfl
          have hvalue : ((appendage.drop (i + 2)).take (len - 1)).length = len - 1 := by
            rw [List.length_take, List.length_drop]
            omega
          rw [foundFrom_of_go h hlen (by omega) (by omega)]
          refine ⟨fun r hr => ?_, List.pairwise_cons.mpr ⟨fun r hr => ?_, hpair⟩⟩
          · rcases List.mem_cons.mp hr with rfl | hr
            · refine ⟨Nat.le_refl _, ?_, ?_, ?_, ?_⟩
              · simp only [hvalue]
                omega
              · simp only [hvalue]
                rw [List.getD_eq_getElem?_getD, List.getElem?_eq_getElem (by omega : i < appendage.length), Option.getD_some]
                omega
              · simp only
                rw [List.getD_eq_getElem?_getD, List.getElem?_eq_getElem h, Option.getD_some]
              · simp only [hvalue]
            · obtain ⟨hle, hr⟩ := hinside r hr
              exact ⟨by omega, hr⟩
          · have hle := (hinside r hr).1
            simp only [hvalue]
            omega
      · exact hnone (foundFrom_of_end (by omega))

/-! ### Written and read back -/

/-- The bytes of an option. -/
def Opt.bytes (o : Opt) : List UInt8 := UInt8.ofNat (1 + o.value.length) :: o.tag :: o.value

theorem Opt.length_bytes (o : Opt) : o.bytes.length = 2 + o.value.length := by
  unfold Opt.bytes
  rw [List.length_cons, List.length_cons]
  omega

/-- What is written are the options one behind the other. -/
theorem writeOptions_eq {out written : List UInt8} (h : writeOptions out opts = some written) : written = opts.flatMap Opt.bytes := by
  induction opts generalizing out written with
  | nil =>
      cases h
      rfl
  | cons o opts ih =>
      rw [writeOptions, writeOption] at h
      by_cases hshort : out.length < 2 + o.value.length
      · simp [hshort] at h
      · simp only [if_neg hshort] at h
        rw [if_neg (by omega)] at h
        obtain ⟨rest, hrest, rfl⟩ := Option.map_eq_some_iff.mp h
        rw [List.flatMap_cons, ← ih hrest]
        congr 1
        have hlen : (UInt8.ofNat (1 + o.value.length) :: o.tag :: o.value).length = 2 + o.value.length := o.length_bytes
        rw [← hlen, List.take_left]
        rfl

/-- An option whose length fits into the byte is read back. -/
theorem foundFrom_bytes {before after : List UInt8} (hfits : o.value.length ≤ 254) :
    foundFrom (before ++ (o.bytes ++ after)) before.length =
      ⟨before.length, o⟩ :: foundFrom (before ++ o.bytes ++ after) (before ++ o.bytes).length := by
  have hlength := o.length_bytes
  have hlen : (UInt8.ofNat (1 + o.value.length)).toNat = 1 + o.value.length := by
    rw [UInt8.toNat_ofNat']
    exact Nat.mod_eq_of_lt (by omega)
  have hn : before.length + 1 < (before ++ (o.bytes ++ after)).length := by
    rw [List.length_append, List.length_append]
    omega
  have hfirst : (before ++ (o.bytes ++ after))[before.length].toNat = 1 + o.value.length := by
    rw [List.getElem_append_right (Nat.le_refl _)]
    simpa [Opt.bytes] using hlen
  have htag : (before ++ (o.bytes ++ after))[before.length + 1] = o.tag := by
    rw [List.getElem_append_right (Nat.le_add_right _ _)]
    simp [Opt.bytes]
  have hvalue : ((before ++ (o.bytes ++ after)).drop (before.length + 2)).take (1 + o.value.length - 1) = o.value := by
    have hsplit : before ++ (o.bytes ++ after) = (before ++ [UInt8.ofNat (1 + o.value.length), o.tag]) ++ (o.value ++ after) := by
      simp [Opt.bytes]
    rw [hsplit, List.drop_left' (by simp), Nat.add_sub_cancel_left, List.take_left]
  rw [foundFrom_of_go hn hfirst (by omega) (by rw [List.length_append, List.length_append]; omega), htag, hvalue, List.append_assoc,
    List.length_append, hlength]
  congr 2
  omega

/-- No longer value is ever reported. -/
theorem length_value_le {r : Found} (hr : r ∈ foundFrom appendage i) : r.opt.value.length ≤ 254 := by
  have hlen := ((found_inside appendage i).1 r hr).2.len
  have hbyte := UInt8.toNat_lt (appendage.getD r.start 0)
  omega

theorem forEachOption_flatMap (before : List UInt8) (hfits : ∀ o ∈ opts, o.value.length ≤ 254) :
    (foundFrom (before ++ opts.flatMap Opt.bytes) before.length).map Found.opt = opts := by
  induction opts generalizing before with
  | nil =>
      rw [List.flatMap_nil, List.append_nil, foundFrom_of_end (by omega)]
      rfl
  | cons o opts ih =>
      rw [List.flatMap_cons, foundFrom_bytes (hfits o List.mem_cons_self), List.map_cons,
        ih _ fun o' ho' => hfits o' (List.mem_cons_of_mem _ ho')]

/-- **Options round-trip** just when their values have at most 254 bytes each; and whatever the bytes, the reader reports only
what lies inside them. -/
theorem options_round_trip_iff {out written : List UInt8} (hwritten : writeOptions out opts = some written) :
    (forEachOption written = opts ↔ ∀ o ∈ opts, o.value.length ≤ 254) ∧
      ∀ appendage, ∀ r ∈ foundFrom appendage 0, Inside appendage r := by
  refine ⟨?_, fun appendage r hr => ((found_inside appendage 0).1 r hr).2⟩
  rw [writeOptions_eq hwritten, forEachOption, ← List.nil_append (opts.flatMap Opt.bytes)]
  refine ⟨fun hread o ho => ?_, forEachOption_flatMap []⟩
  rw [← hread] at ho
  obtain ⟨r, hr, rfl⟩ := List.mem_map.mp ho
  exact length_value_le hr

/-- Two options in a buffer of 16 bytes. -/
theorem options_round_trip_sample :
    forEachOption [3, 1, 7, 8, 1, 2] = [⟨1, [7, 8]⟩, ⟨2, []⟩] :=
  have hwritten : writeOptions (List.replicate 16 0) [⟨1, [7, 8]⟩, ⟨2, []⟩] = some [3, 1, 7, 8, 1, 2] := by decide
  (options_round_trip_iff hwritten).1.mpr (by decide)

/-- A value of 255 bytes is accepted, with the length byte 0, and nothing is read back. -/
theorem long_option_lost :
    (writeOptions (List.replicate 257 0) [⟨1, List.replicate 255 7⟩]).isSome = true ∧
      ∀ written, writeOptions (List.replicate 257 0) [⟨1, List.replicate 255 7⟩] = some written → forEachOption written ≠ [⟨1, List.replicate 255 7⟩] := by
  refine ⟨by decide +kernel, fun written hwritten h => ?_⟩
  have hmem : (⟨1, List.replicate 255 7⟩ : Opt) ∈ forEachOption written := by
    rw [h]
    exact List.mem_cons_self
  obtain ⟨r, hr, heq⟩ := List.mem_map.mp hmem
  have hle := length_value_le hr
  rw [heq] at hle
  exact absurd hle (by decide +kernel)

end TickToTrade.Ouch
