import Mathlib.Data.List.Basic
import Mathlib.Data.List.Nodup
import Mathlib.Logic.Function.Basic

/-!
# Linked queues

A queue kept in the links of its own elements: each element names the next and the
previous one, and the queue is known by its two ends. `Linked` says which list of
elements the links describe. An element joins at the end or leaves from any place by
changing the links of its neighbours only.
-/

namespace TickToTrade.Util

variable {H : Type*}

/-- The links describe the elements `q` between `before` and `after`. -/
def Linked (next prev : H → Option H) : Option H → List H → Option H → Prop
  | _, [], _ => True
  | before, h :: q, after =>
      prev h = before ∧ next h = q.head?.or after ∧ Linked next prev (some h) q after

namespace Linked

variable {next prev next' prev' : H → Option H} {before after : Option H} {q q' : List H} {h : H}

/-- Only the links of the queue's own elements count. -/
theorem congr (hl : Linked next prev before q after) (hnext : ∀ x ∈ q, next' x = next x)
    (hprev : ∀ x ∈ q, prev' x = prev x) : Linked next' prev' before q after := by
  induction q generalizing before with
  | nil => trivial
  | cons x q ih =>
      obtain ⟨hp, hn, hrest⟩ := hl
      refine ⟨by rw [hprev x (by simp), hp], by rw [hnext x (by simp), hn], ih hrest ?_ ?_⟩
      · exact fun y hy => hnext y (by simp [hy])
      · exact fun y hy => hprev y (by simp [hy])

/-- Two parts of a queue. -/
theorem append_iff : Linked next prev before (q ++ q') after ↔
    Linked next prev before q (q'.head?.or after) ∧ Linked next prev (q.getLast?.or before) q' after := by
  induction q generalizing before with
  | nil => simp [Linked]
  | cons x q ih =>
      have hhead : (q ++ q').head?.or after = q.head?.or (q'.head?.or after) := by
        cases q <;> rfl
      have hlast : (x :: q).getLast?.or before = q.getLast?.or (some x) := by
        rw [List.getLast?_cons]
        cases q.getLast? <;> rfl
      rw [List.cons_append, Linked, Linked, ih, hhead, hlast, and_assoc, and_assoc]

/-- The links of one element. -/
theorem at_middle (hl : Linked next prev none (q ++ h :: q') none) :
    prev h = q.getLast? ∧ next h = q'.head? := by
  obtain ⟨-, hp, hn, -⟩ := append_iff.mp hl
  exact ⟨by simpa using hp, by simpa using hn⟩

/-- Walking the links from the first element visits the queue. -/
theorem next_head (hl : Linked next prev before (h :: q) none) : next h = q.head? := by
  simpa using hl.2.1

end Linked

/-- The links lead from `first` through the elements and end there: a stack. -/
def Chained (next : H → Option H) : Option H → List H → Prop
  | first, [] => first = none
  | first, h :: f => first = some h ∧ Chained next (next h) f

theorem Chained.congr {next next' : H → Option H} {first : Option H} {f : List H} (h : Chained next first f)
    (hnext : ∀ x ∈ f, next' x = next x) : Chained next' first f := by
  induction f generalizing first with
  | nil => exact h
  | cons x f ih =>
      refine ⟨h.1, ih ?_ fun y hy => hnext y (by simp [hy])⟩
      rw [hnext x (by simp)]
      exact h.2

variable [DecidableEq H]

/-- An element is put on the stack. -/
theorem Chained.push {next : H → Option H} {first : Option H} {f : List H} {h : H} (hf : Chained next first f)
    (hh : h ∉ f) : Chained (Function.update next h first) (some h) (h :: f) := by
  refine ⟨rfl, ?_⟩
  rw [Function.update_self]
  refine hf.congr fun x hx => Function.update_of_ne ?_ _ _
  rintro rfl
  exact hh hx

/-- Let the element, if there is one, have this link. -/
def relink (link : H → Option H) (e x : Option H) : H → Option H :=
  match e with
  | some h => Function.update link h x
  | none => link

@[simp] theorem relink_none (link : H → Option H) (x : Option H) : relink link none x = link := rfl

theorem relink_of_ne {link : H → Option H} {e x : Option H} {h : H} (hne : e ≠ some h) :
    relink link e x h = link h := by
  cases e with
  | none => rfl
  | some e => exact Function.update_of_ne (fun heq => hne (by rw [heq])) _ _

theorem relink_self (link : H → Option H) (h : H) (x : Option H) : relink link (some h) x h = x :=
  Function.update_self ..

namespace Linked

variable {next prev : H → Option H} {before after x : Option H} {q q' : List H} {h : H}

/-- What comes after the queue is a link of its last element. -/
theorem set_after (hl : Linked next prev before q after) (hq : q.Nodup) :
    Linked (relink next q.getLast? x) prev before q x := by
  induction q generalizing before with
  | nil => trivial
  | cons y q ih =>
      obtain ⟨hp, hn, hrest⟩ := hl
      obtain ⟨hy, hq⟩ := List.nodup_cons.mp hq
      cases q with
      | nil => exact ⟨hp, relink_self .., trivial⟩
      | cons z q =>
          have hlast : (y :: z :: q).getLast? = (z :: q).getLast? := by simp [List.getLast?_cons]
          refine ⟨hp, ?_, by rw [hlast]; exact ih hrest hq⟩
          rw [hlast, relink_of_ne, hn]
          · rfl
          · exact fun he => hy (List.mem_of_getLast? he)

/-- What comes before the queue is a link of its first element. -/
theorem set_before (hl : Linked next prev before q after) (hq : q.Nodup) :
    Linked next (relink prev q.head? x) x q after := by
  cases q with
  | nil => trivial
  | cons y q =>
      obtain ⟨-, hn, hrest⟩ := hl
      refine ⟨relink_self .., hn, hrest.congr (fun _ _ => rfl) fun z hz => relink_of_ne ?_⟩
      rintro ⟨⟩
      exact (List.nodup_cons.mp hq).1 hz

/-- **An element leaves**: its neighbours take over its links. -/
theorem unlink (hl : Linked next prev none (q ++ h :: q') none) (hq : (q ++ h :: q').Nodup) :
    Linked (relink next (prev h) (next h)) (relink prev (next h) (prev h)) none (q ++ q') none := by
  obtain ⟨hp, hn⟩ := hl.at_middle
  obtain ⟨hfirst, hrest⟩ := append_iff.mp hl
  obtain ⟨hnq, hnq', hdisj⟩ := List.nodup_append.mp hq
  have hnq' := (List.nodup_cons.mp hnq').2
  rw [append_iff, hp, hn, Option.or_none, Option.or_none]
  constructor
  · refine (hfirst.set_after hnq).congr (fun _ _ => rfl) fun y hy => relink_of_ne fun he => ?_
    exact hdisj y hy y (List.mem_cons_of_mem _ (List.mem_of_head? he)) rfl
  · refine (hrest.2.2.set_before hnq').congr (fun y hy => relink_of_ne fun he => ?_) fun _ _ => rfl
    exact hdisj y (List.mem_of_getLast? he) y (List.mem_cons_of_mem _ hy) rfl

/-- **An element joins** at the end. -/
theorem push (hl : Linked next prev none q none) (hq : q.Nodup) (hh : h ∉ q) (hnext : next h = none)
    (hprev : prev h = none) :
    Linked (relink next q.getLast? (some h)) (Function.update prev h q.getLast?) none (q ++ [h]) none := by
  rw [append_iff]
  constructor
  · refine (hl.set_after hq).congr (fun _ _ => rfl) fun y hy => Function.update_of_ne ?_ _ _
    rintro rfl
    exact hh hy
  · refine ⟨by simp, ?_, trivial⟩
    rw [relink_of_ne, hnext]
    · rfl
    · exact fun he => hh (List.mem_of_getLast? he)

omit [DecidableEq H] in
/-- The first element after one has left. -/
theorem head_unlink (q q' : List H) (h : H) :
    (q ++ q').head? = if q.getLast? = none then q'.head? else (q ++ h :: q').head? := by
  cases q with
  | nil => rfl
  | cons x q => simp [List.getLast?_cons]

omit [DecidableEq H] in
/-- The last element after one has left. -/
theorem last_unlink (q q' : List H) (h : H) :
    (q ++ q').getLast? = if q'.head? = none then q.getLast? else (q ++ h :: q').getLast? := by
  cases q' with
  | nil => simp
  | cons x q' => simp [List.getLast?_append, List.getLast?_cons]

end Linked

end TickToTrade.Util
