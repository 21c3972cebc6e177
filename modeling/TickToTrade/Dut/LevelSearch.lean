import Mathlib.Order.Bounds.Defs
import TickToTrade.Dut.LevelBits

/-!
# The level bitmap over its calls

A bitmap is built for a number of levels, and levels are set and cleared in any order. What is
set then is the set of the levels set and not cleared since (`marked`); the searches find the
nearest of them.

## What is proved

* `Holds.call` and `Holds.run` — the two tables stay consistent, and hold the levels marked.
* `search_exact` — `prev` is the greatest marked level up to an index, `next` the least from it on.
-/

namespace TickToTrade.Dut.LevelBits

variable {b : LevelBits} {n i : ℕ} {S : Set ℕ}

/-- The calls that change a bitmap. -/
inductive Call where
  | set (i : ℕ)
  | clear (i : ℕ)
  | clearAll
  | reset (ticks : ℕ)
deriving DecidableEq, Repr

/-- The bitmap after a call. -/
def call (b : LevelBits) : Call → LevelBits
  | .set i => b.set i
  | .clear i => b.clear i
  | .clearAll => b.clearAll
  | .reset ticks => LevelBits.reset ticks

/-- The number of levels after the calls. -/
def ticksAfter (n : ℕ) : List Call → ℕ
  | [] => n
  | .reset ticks :: calls => ticksAfter ticks calls
  | _ :: calls => ticksAfter n calls

/-- Every index is below the number of levels that the bitmap has by then. -/
def IndicesBelow (n : ℕ) : List Call → Prop
  | [] => True
  | .set i :: calls => i < n ∧ IndicesBelow n calls
  | .clear i :: calls => i < n ∧ IndicesBelow n calls
  | .clearAll :: calls => IndicesBelow n calls
  | .reset ticks :: calls => IndicesBelow ticks calls

/-- The marked levels after a call. -/
def mark (S : Set ℕ) : Call → Set ℕ
  | .set i => insert i S
  | .clear i => S \ {i}
  | .clearAll => ∅
  | .reset _ => ∅

/-- The levels set and not cleared since. -/
def marked (calls : List Call) : Set ℕ := calls.foldl mark ∅

/-- The bitmap of `n` levels is consistent and holds the marked levels. -/
structure Holds (b : LevelBits) (n : ℕ) (S : Set ℕ) : Prop where
  wf : b.WF
  room : ∀ i, i < n → i / 64 / 64 < b.l1Size
  has : ∀ i, b.has i = true ↔ i ∈ S

theorem holds_reset (n : ℕ) : (reset n).Holds n ∅ where
  wf := wf_reset n
  room i hi := by
    unfold reset
    simp only
    split_ifs <;> omega
  has i := by rw [has_reset]; simp

/-- **One call** keeps the tables consistent and marks what it should. -/
theorem Holds.call (h : b.Holds n S) {c : Call} (hc : IndicesBelow n [c]) : (b.call c).Holds (ticksAfter n [c]) (mark S c) := by
  cases c with
  | set i =>
      refine ⟨wf_set h.wf (h.room i hc.1), fun j hj => h.room j hj, fun j => ?_⟩
      change (b.set i).has j = true ↔ _
      rw [has_set, Bool.or_eq_true, decide_eq_true_eq, h.has]
      rfl
  | clear i =>
      refine ⟨wf_clear h.wf i, fun j hj => h.room j hj, fun j => ?_⟩
      change (b.clear i).has j = true ↔ _
      rw [has_clear h.wf, Bool.and_eq_true, decide_eq_true_eq, h.has]
      rfl
  | clearAll =>
      refine ⟨wf_clearAll b, fun j hj => h.room j hj, fun j => ?_⟩
      change b.clearAll.has j = true ↔ _
      rw [has_clearAll]
      exact iff_of_false Bool.false_ne_true (Set.notMem_empty j)
  | reset ticks => exact holds_reset ticks

theorem Holds.run (h : b.Holds n S) (calls : List Call) (hcalls : IndicesBelow n calls) :
    (calls.foldl LevelBits.call b).Holds (ticksAfter n calls) (calls.foldl mark S) := by
  induction calls generalizing b n S with
  | nil => exact h
  | cons c calls ih =>
      cases c with
      | set i => exact ih (h.call (c := .set i) ⟨hcalls.1, trivial⟩) hcalls.2
      | clear i => exact ih (h.call (c := .clear i) ⟨hcalls.1, trivial⟩) hcalls.2
      | clearAll => exact ih (h.call (c := .clearAll) trivial) hcalls
      | reset ticks => exact ih (h.call (c := .reset ticks) trivial) hcalls

/-! ### The searches -/

theorem Holds.prev_eq_some (h : b.Holds n S) {j : ℕ} : b.prev i = some j ↔ IsGreatest {k ∈ S | k ≤ i} j := by
  have hspec := prev_spec h.wf i
  cases hprev : b.prev i with
  | none =>
      rw [hprev] at hspec
      refine iff_of_false (fun hno => by cases hno) fun hj => ?_
      have hno := hspec j hj.1.2
      rw [(h.has j).mpr hj.1.1] at hno
      cases hno
  | some k =>
      rw [hprev] at hspec
      obtain ⟨hle, hset, hgap⟩ := hspec
      have hgreatest : IsGreatest {k ∈ S | k ≤ i} k := by
        refine ⟨⟨(h.has k).mp hset, hle⟩, fun l hl => ?_⟩
        by_contra hlt
        have hno := hgap l (not_le.mp hlt) hl.2
        rw [(h.has l).mpr hl.1] at hno
        cases hno
      constructor
      · intro hk
        rw [← Option.some.inj hk]
        exact hgreatest
      · intro hj
        rw [hj.unique hgreatest]

theorem Holds.next_eq_some (h : b.Holds n S) {j : ℕ} : b.next i = some j ↔ IsLeast {k ∈ S | i ≤ k} j := by
  have hspec := next_spec h.wf i
  cases hnext : b.next i with
  | none =>
      rw [hnext] at hspec
      refine iff_of_false (fun hno => by cases hno) fun hj => ?_
      have hno := hspec j hj.1.2
      rw [(h.has j).mpr hj.1.1] at hno
      cases hno
  | some k =>
      rw [hnext] at hspec
      obtain ⟨hle, hset, hgap⟩ := hspec
      have hleast : IsLeast {k ∈ S | i ≤ k} k := by
        refine ⟨⟨(h.has k).mp hset, hle⟩, fun l hl => ?_⟩
        by_contra hlt
        have hno := hgap l hl.2 (not_le.mp hlt)
        rw [(h.has l).mpr hl.1] at hno
        cases hno
      constructor
      · intro hk
        rw [← Option.some.inj hk]
        exact hleast
      · intro hj
        rw [hj.unique hleast]

theorem Holds.prev_eq_none (h : b.Holds n S) : b.prev i = none ↔ ∀ k ∈ S, i < k := by
  constructor
  · intro hnone k hk
    have hspec := prev_spec h.wf i
    rw [hnone] at hspec
    by_contra hle
    have hno := hspec k (not_lt.mp hle)
    rw [(h.has k).mpr hk] at hno
    cases hno
  · intro habove
    refine Option.eq_none_iff_forall_ne_some.mpr fun j hj => ?_
    obtain ⟨⟨hmem, hle⟩, -⟩ := h.prev_eq_some.mp hj
    exact absurd hle (not_le.mpr (habove j hmem))

theorem Holds.next_eq_none (h : b.Holds n S) : b.next i = none ↔ ∀ k ∈ S, k < i := by
  constructor
  · intro hnone k hk
    have hspec := next_spec h.wf i
    rw [hnone] at hspec
    by_contra hle
    have hno := hspec k (not_lt.mp hle)
    rw [(h.has k).mpr hk] at hno
    cases hno
  · intro hbelow
    refine Option.eq_none_iff_forall_ne_some.mpr fun j hj => ?_
    obtain ⟨⟨hmem, hle⟩, -⟩ := h.next_eq_some.mp hj
    exact absurd hle (not_le.mpr (hbelow j hmem))

/-- **The searches are exact** after any calls: down to the greatest marked level up to `i`, up to the least one from `i`
on, and nowhere only if there is none. -/
theorem search_exact (n : ℕ) (calls : List Call) (hcalls : IndicesBelow n calls) (i : ℕ) :
    let b := calls.foldl LevelBits.call (reset n)
    (∀ j, b.prev i = some j ↔ IsGreatest {k ∈ marked calls | k ≤ i} j) ∧ (b.prev i = none ↔ ∀ k ∈ marked calls, i < k) ∧
      (∀ j, b.next i = some j ↔ IsLeast {k ∈ marked calls | i ≤ k} j) ∧ (b.next i = none ↔ ∀ k ∈ marked calls, k < i) := by
  have h := (holds_reset n).run calls hcalls
  exact ⟨fun _ => h.prev_eq_some, h.prev_eq_none, fun _ => h.next_eq_some, h.next_eq_none⟩

/-- Around the end of the first word, with a level cleared again. -/
theorem search_exact_sample :
    (([.set 3, .set 64, .set 63, .clear 63] : List Call).foldl LevelBits.call (reset 100)).prev 63 = some 3 := by
  have hcalls : IndicesBelow 100 [.set 3, .set 64, .set 63, .clear 63] := by simp [IndicesBelow]
  refine ((search_exact 100 _ hcalls 63).1 3).mpr ⟨⟨?_, by omega⟩, fun k hk => ?_⟩
  · simp [marked, mark]
  · simp only [marked, mark, List.foldl_cons, List.foldl_nil, Set.mem_setOf_eq, Set.mem_diff, Set.mem_insert_iff,
      Set.mem_singleton_iff, Set.mem_empty_iff_false, or_false] at hk
    omega

end TickToTrade.Dut.LevelBits
