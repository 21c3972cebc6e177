import Mathlib.Data.List.GetD
import TickToTrade.Util.Largest

/-!
# The worst latency samples

The recorder keeps a few samples of a run with the greatest latencies, each with its context. A
sample that comes when the table is full takes the place of the least one if it is greater. The
table is sorted when it is read, and a sort may leave samples of the same latency in any order.

## What is proved

* `lowest_spec` — the search finds a least sample.
* `worst_kept` — the table keeps the greatest latencies offered since it was last cleared.
-/

namespace TickToTrade.Dut

open Util

/-- `Outlier`: a sample with its context. -/
structure Outlier where
  /-- The latency. -/
  ns : ℤ
  /-- The packed sequence number, message count and flags. -/
  ctx : ℕ
  /-- The packed times of the stages. -/
  stages : ℕ
deriving DecidableEq, Repr

instance : Inhabited Outlier := ⟨⟨0, 0, 0⟩⟩

/-- The size of the table. -/
def kWorst : ℕ := 8

/-- `LatencyRecorder::Worst`: the first `n` entries of the array; what lies behind them is never read. -/
structure Worst where
  items : List Outlier
  /-- The array has room for them. -/
  length_le : items.length ≤ kWorst

namespace Worst

variable {w w' : Worst} {all dropped : Multiset Outlier}

/-- The first of the least entries of a full table. -/
def lowest (items : List Outlier) : ℕ :=
  (List.range' 1 (kWorst - 1)).foldl
    (fun lowest i => if (items.getD i default).ns < (items.getD lowest default).ns then i else lowest) 0

/-- Take in a sample, if there is room or it exceeds the least one. -/
def offer (w : Worst) (ns : ℤ) (ctx stages : ℕ) : Worst :=
  if h : w.items.length < kWorst then ⟨w.items ++ [⟨ns, ctx, stages⟩], by rw [List.length_append]; exact h⟩
  else if ns > (w.items.getD (lowest w.items) default).ns then
    ⟨w.items.set (lowest w.items) ⟨ns, ctx, stages⟩, by rw [List.length_set]; exact w.length_le⟩
  else w

/-- The empty table. -/
def clear : Worst := ⟨[], Nat.zero_le _⟩

/-- What a sort of the entries, the greatest first, may leave. -/
structure Sorts (w w' : Worst) : Prop where
  perm : w'.items.Perm w.items
  descending : w'.items.Pairwise fun a b => a.ns ≥ b.ns

/-! ### The least entry -/

theorem lowest_spec {items : List Outlier} (hfull : items.length = kWorst) :
    lowest items < items.length ∧ ∀ a ∈ items, (items.getD (lowest items) default).ns ≤ a.ns := by
  -- the least of the entries looked at so far, the first one to begin with
  have hloop : ∀ n, 1 + n ≤ kWorst → ∀ i, i = (List.range' 1 n).foldl
        (fun lowest i => if (items.getD i default).ns < (items.getD lowest default).ns then i else lowest) 0 →
      i < 1 + n ∧ ∀ j < 1 + n, (items.getD i default).ns ≤ (items.getD j default).ns := by
    intro n
    induction n with
    | zero =>
        rintro - i rfl
        refine ⟨by simp, fun j hj => ?_⟩
        obtain rfl : j = 0 := by omega
        exact le_rfl
    | succ n ih =>
        intro hn i hi
        rw [List.range'_1_concat, List.foldl_append, List.foldl_cons, List.foldl_nil] at hi
        obtain ⟨hlt, hleast⟩ := ih (by omega) _ rfl
        split_ifs at hi with hless
        · subst hi
          refine ⟨by omega, fun j hj => ?_⟩
          by_cases hjn : j = 1 + n
          · rw [hjn]
          · exact hless.le.trans (hleast j (by omega))
        · rw [← hi] at hlt hleast hless
          refine ⟨by omega, fun j hj => ?_⟩
          by_cases hjn : j = 1 + n
          · rw [hjn]
            exact not_lt.mp hless
          · exact hleast j (by omega)
  obtain ⟨hlt, hleast⟩ := hloop (kWorst - 1) le_rfl (lowest items) rfl
  refine ⟨by rw [hfull]; exact hlt, fun a ha => ?_⟩
  obtain ⟨j, hj, rfl⟩ := List.getElem_of_mem ha
  have hget := hleast j (by rw [hfull] at hj; exact hj)
  rw [List.getD_eq_getElem items default hj] at hget
  exact hget

/-! ### The runs -/

/-- The calls. -/
inductive Call where
  | offer (ns : ℤ) (ctx stages : ℕ)
  | sorted
  | clear
deriving DecidableEq, Repr

/-- What the table may be after a call. -/
def Step (w : Worst) : Call → Worst → Prop
  | .offer ns ctx stages, w' => w' = w.offer ns ctx stages
  | .sorted, w' => Sorts w w'
  | .clear, w' => w' = clear

/-- What the table may be after calls. -/
inductive Run : Worst → List Call → Worst → Prop where
  | nil (w : Worst) : Run w [] w
  | cons {w w' w'' : Worst} {c : Call} {calls : List Call} : Step w c w' → Run w' calls w'' → Run w (c :: calls) w''

/-- The samples offered since the table was last cleared, before the call and after it. -/
def offered (all : Multiset Outlier) : Call → Multiset Outlier
  | .offer ns ctx stages => ⟨ns, ctx, stages⟩ ::ₘ all
  | .sorted => all
  | .clear => 0

/-- The samples offered since the last `clear` of the calls. -/
def offeredSince (calls : List Call) : Multiset Outlier := calls.foldl offered 0

/-- The table keeps the greatest of these samples. -/
def Keeps (w : Worst) (all : Multiset Outlier) : Prop := ∃ dropped, Splits Outlier.ns kWorst all w.items dropped

theorem Keeps.offer (h : w.Keeps all) (ns : ℤ) (ctx stages : ℕ) : (w.offer ns ctx stages).Keeps (⟨ns, ctx, stages⟩ ::ₘ all) := by
  obtain ⟨dropped, hsplit⟩ := h
  unfold Worst.offer
  by_cases hroom : w.items.length < kWorst
  · rw [dif_pos hroom]
    refine ⟨dropped, ?_⟩
    have hitems : ((w.items ++ [⟨ns, ctx, stages⟩] : List Outlier) : Multiset Outlier) = ⟨ns, ctx, stages⟩ ::ₘ (w.items : Multiset Outlier) := by
      rw [← Multiset.coe_add, Multiset.add_comm]
      rfl
    rw [hitems]
    exact hsplit.push hroom _
  · have hfull : w.items.length = kWorst := le_antisymm w.length_le (not_lt.mp hroom)
    obtain ⟨hlt, hleast⟩ := lowest_spec hfull
    set i := lowest w.items
    rw [dif_neg hroom]
    rw [List.getD_eq_getElem _ _ hlt] at hleast ⊢
    by_cases hgreater : ns > w.items[i].ns
    · rw [if_pos hgreater]
      refine ⟨w.items[i] ::ₘ dropped, ?_⟩
      have hbefore : (w.items : Multiset Outlier) = w.items[i] ::ₘ (w.items.eraseIdx i : Multiset Outlier) :=
        Multiset.coe_eq_coe.mpr (List.getElem_cons_eraseIdx_perm hlt).symm
      have hafter : ((w.items.set i ⟨ns, ctx, stages⟩ : List Outlier) : Multiset Outlier) = ⟨ns, ctx, stages⟩ ::ₘ (w.items.eraseIdx i : Multiset Outlier) :=
        Multiset.coe_eq_coe.mpr (List.set_perm_cons_eraseIdx hlt _)
      rw [hafter]
      rw [hbefore] at hsplit
      refine hsplit.replace ?_ (fun b hb => hleast b (List.mem_of_mem_eraseIdx hb)) hgreater
      rw [Multiset.coe_card, List.length_eraseIdx_of_lt hlt]
      omega
    · rw [if_neg hgreater]
      refine ⟨⟨ns, ctx, stages⟩ ::ₘ dropped, hsplit.refuse hfull fun b hb => ?_⟩
      exact (not_lt.mp hgreater).trans (hleast b hb)

/-- **One call** leaves the table with the greatest samples. -/
theorem Keeps.step (h : w.Keeps all) {c : Call} (hstep : Step w c w') : w'.Keeps (offered all c) := by
  cases c with
  | offer ns ctx stages =>
      obtain rfl := hstep
      exact h.offer ns ctx stages
  | sorted =>
      obtain ⟨dropped, hsplit⟩ := h
      refine ⟨dropped, ?_⟩
      rwa [Multiset.coe_eq_coe.mpr hstep.perm]
  | clear =>
      obtain rfl := hstep
      exact ⟨0, Splits.zero _ _⟩

theorem Keeps.run {calls : List Call} (h : w.Keeps all) (hrun : Run w calls w') : w'.Keeps (calls.foldl offered all) := by
  induction hrun generalizing all with
  | nil => exact h
  | cons hstep _ ih => exact ih (h.step hstep)

/-- **The worst samples are kept**, as they were offered; and a sort hands them out with the greatest first. -/
theorem worst_kept {calls : List Call} (hrun : Run clear calls w) :
    (w.items : Multiset Outlier) ≤ offeredSince calls ∧
      (w.items : Multiset Outlier).map Outlier.ns = largest kWorst ((offeredSince calls).map Outlier.ns) ∧
      ∀ w', Sorts w w' → (w'.items : Multiset Outlier) = w.items ∧ w'.items.Pairwise fun a b => a.ns ≥ b.ns := by
  obtain ⟨dropped, hsplit⟩ := Keeps.run ⟨0, Splits.zero _ _⟩ hrun
  refine ⟨?_, hsplit.largest_eq, fun w' hsort => ⟨Multiset.coe_eq_coe.mpr hsort.perm, hsort.descending⟩⟩
  have hall : offeredSince calls = w.items + dropped := hsplit.eq
  rw [hall]
  exact Multiset.le_add_right _ _

/-- Two samples, a clear, a third sample and a sort. -/
theorem worst_kept_sample :
    ((⟨[⟨7, 1, 0⟩], by decide⟩ : Worst).items : Multiset Outlier) ≤
      offeredSince [.offer 5 0 0, .offer 9 0 0, .clear, .offer 7 1 0, .sorted] :=
  have hsort : Sorts (clear.offer 7 1 0) ⟨[⟨7, 1, 0⟩], by decide⟩ := ⟨.refl _, List.pairwise_singleton _ _⟩
  (worst_kept (.cons (c := .offer 5 0 0) rfl (.cons (c := .offer 9 0 0) rfl (.cons (c := .clear) rfl
    (.cons (c := .offer 7 1 0) rfl (.cons (c := .sorted) hsort (.nil _))))))).1

end Worst

end TickToTrade.Dut
