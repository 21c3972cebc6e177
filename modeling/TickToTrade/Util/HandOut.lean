import Mathlib.Algebra.GroupWithZero.Nat
import Mathlib.Algebra.Order.BigOperators.Group.List
import Mathlib.Algebra.Order.Group.Nat
import Mathlib.Tactic.Common

/-!
# Handing out a quantity in an order

A quantity goes to the elements of a list one after the other, to each what it can take
(`handOut`). Whether nobody is served before someone who comes first by some rank depends on
the order up to the point where the quantity is used up (`handOut_ranked_iff`).

Two orders come from a list whose elements are taken out by putting the last element into
the hole: that of a walk from the front (`walkOrder`), and that of a search from the front
that is made again each time (`searchOrder`).
-/

namespace TickToTrade.Util

variable {α : Type*} {size : α → ℕ} {l before after : List α} {a b : α} {q : ℕ}

/-! ### Handing out -/

/-- What each element gets of the quantity `q`. -/
def handOut (size : α → ℕ) : List α → ℕ → List (α × ℕ)
  | [], _ => []
  | a :: l, q => if q = 0 then [] else (a, min q (size a)) :: handOut size l (q - min q (size a))

@[simp] theorem handOut_zero (size : α → ℕ) (l : List α) : handOut size l 0 = [] := by
  cases l <;> simp [handOut]

theorem handOut_cons (hq : q ≠ 0) : handOut size (a :: l) q = (a, min q (size a)) :: handOut size l (q - min q (size a)) :=
  if_neg hq

theorem handOut_congr {size' : α → ℕ} (h : ∀ a ∈ l, size a = size' a) (q : ℕ) : handOut size l q = handOut size' l q := by
  induction l generalizing q with
  | nil => rfl
  | cons a l ih =>
      have ha := h a List.mem_cons_self
      simp only [handOut, ha, ih fun b hb => h b (List.mem_cons_of_mem _ hb)]

/-- While some of the quantity is left, the elements so far have got all they can take. -/
theorem handOut_append (hlt : (before.map size).sum < q) :
    handOut size (before ++ l) q = before.map (fun a => (a, size a)) ++ handOut size l (q - (before.map size).sum) := by
  induction before generalizing q with
  | nil => rfl
  | cons a before ih =>
      rw [List.map_cons, List.sum_cons] at hlt
      rw [List.cons_append, handOut_cons (by omega), Nat.min_eq_right (by omega), ih (by omega), List.map_cons, List.map_cons,
        List.sum_cons, List.cons_append, Nat.sub_sub]

/-- An element that gets something has got it where it stands in the list, and those before it
have got all they can take. -/
theorem mem_handOut {gets : List (α × ℕ)} {x : α × ℕ} {rest : List (α × ℕ)} (h : handOut size l q = gets ++ x :: rest) :
    ∃ before after, l = before ++ x.1 :: after ∧ (before.map size).sum < q ∧ gets = before.map fun a => (a, size a) := by
  induction l generalizing q gets with
  | nil => cases gets <;> cases h
  | cons a l ih =>
      by_cases hq : q = 0
      · rw [hq, handOut_zero] at h
        cases gets <;> cases h
      rw [handOut_cons hq] at h
      cases gets with
      | nil =>
          cases h
          exact ⟨[], l, rfl, Nat.pos_of_ne_zero hq, rfl⟩
      | cons y gets =>
          rw [List.cons_append, List.cons.injEq] at h
          obtain ⟨rfl, h⟩ := h
          obtain ⟨before, after, rfl, hlt, rfl⟩ := ih h
          refine ⟨a :: before, after, rfl, ?_, ?_⟩
          · rw [List.map_cons, List.sum_cons]
            omega
          · rw [List.map_cons, Nat.min_eq_right (by omega)]

/-- **Nobody gets anything before those of a higher rank have got all they can take, if and
only if the order is that of the ranks as long as some of the quantity is left.** -/
theorem handOut_ranked_iff {outranks : α → α → Prop} (hirrefl : ∀ a, ¬ outranks a a) (hnodup : l.Nodup) :
    (∀ gets x rest, handOut size l q = gets ++ x :: rest → ∀ b ∈ l, outranks b x.1 → (b, size b) ∈ gets) ↔
      ∀ before a after, l = before ++ a :: after → (before.map size).sum < q → ∀ b ∈ after, ¬ outranks b a := by
  constructor
  · rintro h before a after rfl hlt b hb hout
    have hsplit := handOut_append (l := a :: after) hlt
    rw [handOut_cons (Nat.ne_of_gt (Nat.sub_pos_of_lt hlt))] at hsplit
    have hmem := h _ _ _ hsplit b (by simp [hb]) hout
    obtain ⟨c, hc, heq⟩ := List.mem_map.mp hmem
    obtain rfl : c = b := congrArg Prod.fst heq
    rw [List.nodup_append] at hnodup
    exact hnodup.2.2 c hc c (List.mem_cons_of_mem _ hb) rfl
  · intro h gets x rest hsplit b hb hout
    obtain ⟨before, after, rfl, hlt, rfl⟩ := mem_handOut hsplit
    rw [List.mem_append, List.mem_cons] at hb
    obtain hb | rfl | hb := hb
    · exact List.mem_map.mpr ⟨b, hb, rfl⟩
    · exact absurd hout (hirrefl _)
    · exact absurd hout (h before x.1 after rfl hlt b hb)

/-! ### A walk from the front -/

/-- The rest of a list after its last element has been put before it. -/
def refill (l : List α) : List α :=
  match l.getLast? with
  | none => []
  | some a => a :: l.dropLast

theorem refill_perm (l : List α) : (refill l).Perm l := by
  unfold refill
  cases hlast : l.getLast? with
  | none => rw [List.getLast?_eq_none_iff.mp hlast]
  | some a =>
      simp only
      have hsplit := List.dropLast_append_getLast? a hlast
      exact (List.perm_append_singleton a l.dropLast).symm.trans (by rw [hsplit])

/-- The elements with the property in the order in which a walk from the front comes to them
that takes them out. -/
def walkOrder (p : α → Bool) : ℕ → List α → List α
  | 0, _ => []
  | _, [] => []
  | n + 1, a :: l => if p a then a :: walkOrder p n (refill l) else walkOrder p n l

theorem walkOrder_perm (p : α → Bool) {n : ℕ} (hn : l.length ≤ n) : (walkOrder p n l).Perm (l.filter p) := by
  induction n generalizing l with
  | zero =>
      rw [List.length_eq_zero_iff.mp (Nat.le_zero.mp hn)]
      exact List.Perm.refl _
  | succ n ih =>
      cases l with
      | nil => exact List.Perm.refl _
      | cons a l =>
          have hn : l.length ≤ n := Nat.le_of_succ_le_succ hn
          simp only [walkOrder]
          split_ifs with ha
          · rw [List.filter_cons_of_pos ha]
            exact ((ih (by rw [(refill_perm l).length_eq]; exact hn)).trans ((refill_perm l).filter p)).cons a
          · rw [List.filter_cons_of_neg ha]
            exact ih hn

theorem mem_of_mem_walkOrder {p : α → Bool} {n : ℕ} (h : a ∈ walkOrder p n l) : a ∈ l := by
  induction n generalizing l with
  | zero => cases h
  | succ n ih =>
      cases l with
      | nil => cases h
      | cons b l =>
          simp only [walkOrder] at h
          split_ifs at h
          · obtain rfl | h := List.mem_cons.mp h
            · exact List.mem_cons_self
            · exact List.mem_cons_of_mem _ ((refill_perm l).mem_iff.mp (ih h))
          · exact List.mem_cons_of_mem _ (ih h)

theorem walkOrder_congr {p p' : α → Bool} (h : ∀ a ∈ l, p a = p' a) (n : ℕ) : walkOrder p n l = walkOrder p' n l := by
  induction n generalizing l with
  | zero => rfl
  | succ n ih =>
      cases l with
      | nil => rfl
      | cons a l =>
          have hl : ∀ b ∈ l, p b = p' b := fun b hb => h b (List.mem_cons_of_mem _ hb)
          simp only [walkOrder, h a List.mem_cons_self, ih hl, ih fun b hb => hl b ((refill_perm l).mem_iff.mp hb)]

/-! ### A search from the front -/

/-- The elements in the order in which a search finds them that is made again after each one
is taken out. -/
def searchOrder (find : List α → Option α) (takeOut : List α → α → List α) : ℕ → List α → List α
  | 0, _ => []
  | n + 1, l =>
      match find l with
      | none => []
      | some a => a :: searchOrder find takeOut n (takeOut l a)

/-- The search finds an element with the property wherever all elements are `g` and there is
one. -/
theorem searchOrder_perm {find : List α → Option α} {takeOut : List α → α → List α} {p : α → Bool} {g : α → Prop}
    (hnone : ∀ l : List α, (∀ a ∈ l, g a) → find l = none → ∀ a ∈ l, p a = false)
    (hsome : ∀ l : List α, (∀ a ∈ l, g a) → ∀ a, find l = some a → a ∈ l ∧ p a = true)
    (htake : ∀ (l : List α) (a : α), a ∈ l → l.Perm (a :: takeOut l a)) (hl : ∀ a ∈ l, g a) {n : ℕ} (hn : l.length ≤ n) :
    (searchOrder find takeOut n l).Perm (l.filter p) := by
  induction n generalizing l with
  | zero =>
      rw [List.length_eq_zero_iff.mp (Nat.le_zero.mp hn)]
      exact List.Perm.refl _
  | succ n ih =>
      simp only [searchOrder]
      cases hfind : find l with
      | none => rw [List.filter_eq_nil_iff.mpr fun a ha => by rw [hnone l hl hfind a ha]; exact Bool.false_ne_true]
      | some a =>
          obtain ⟨hmem, ha⟩ := hsome l hl a hfind
          have hperm := htake l a hmem
          have hlen := hperm.length_eq
          rw [List.length_cons] at hlen
          have hrest := ih (l := takeOut l a) (fun b hb => hl b (hperm.mem_iff.mpr (List.mem_cons_of_mem _ hb))) (by omega)
          refine (hrest.cons a).trans ?_
          rw [← List.filter_cons_of_pos ha]
          exact (hperm.filter p).symm

theorem mem_of_mem_searchOrder {find : List α → Option α} {takeOut : List α → α → List α} {g : α → Prop}
    (hsome : ∀ l : List α, (∀ a ∈ l, g a) → ∀ a, find l = some a → a ∈ l) (htake : ∀ l a, ∀ b ∈ takeOut l a, b ∈ l)
    (hl : ∀ a ∈ l, g a) {n : ℕ} (h : a ∈ searchOrder find takeOut n l) : a ∈ l := by
  induction n generalizing l with
  | zero => cases h
  | succ n ih =>
      simp only [searchOrder] at h
      cases hfind : find l with
      | none =>
          rw [hfind] at h
          cases h
      | some b =>
          rw [hfind] at h
          obtain rfl | h := List.mem_cons.mp h
          · exact hsome l hl a hfind
          · exact htake l b a (ih (fun c hc => hl c (htake l b c hc)) h)

theorem searchOrder_congr {find find' : List α → Option α} {takeOut : List α → α → List α} {P : α → Prop}
    (hfind : ∀ l, (∀ a ∈ l, P a) → find l = find' l) (htake : ∀ l a, ∀ b ∈ takeOut l a, b ∈ l) (hl : ∀ a ∈ l, P a) (n : ℕ) :
    searchOrder find takeOut n l = searchOrder find' takeOut n l := by
  induction n generalizing l with
  | zero => rfl
  | succ n ih =>
      simp only [searchOrder, hfind l hl]
      cases find' l with
      | none => rfl
      | some a => simp only [ih fun b hb => hl b (htake l a b hb)]

end TickToTrade.Util
