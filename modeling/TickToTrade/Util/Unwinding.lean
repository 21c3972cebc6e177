import Mathlib.Data.List.Basic

/-!
# Unwinding

A machine takes actions, and whether an action is a secret one depends on the state it is taken
in. Two runs whose other actions are the same look the same after each of those, if a relation
of the states is kept by a secret action on either side and by one other action on both, and
related states look the same (`Unwinds.observed_eq`).
-/

namespace TickToTrade.Util

variable {σ α ω : Type*}

/-- Every action of the run is in order where it is taken. -/
def Along (step : σ → α → σ) (fine : σ → α → Prop) : σ → List α → Prop
  | _, [] => True
  | x, a :: l => fine x a ∧ Along step fine (step x a) l

instance decidableAlong (step : σ → α → σ) (fine : σ → α → Prop) [∀ x a, Decidable (fine x a)] :
    (x : σ) → (l : List α) → Decidable (Along step fine x l)
  | _, [] => isTrue trivial
  | x, a :: l => @instDecidableAnd _ _ inferInstance (decidableAlong step fine (step x a) l)

/-- The actions of a run without the secret ones. -/
def purge (step : σ → α → σ) (secret : σ → α → Bool) : σ → List α → List α
  | _, [] => []
  | x, a :: l => if secret x a then purge step secret (step x a) l else a :: purge step secret (step x a) l

/-- What is seen after each action of a run that is not secret. -/
def observed (step : σ → α → σ) (secret : σ → α → Bool) (see : σ → ω) : σ → List α → List ω
  | _, [] => []
  | x, a :: l =>
      if secret x a then observed step secret see (step x a) l else see (step x a) :: observed step secret see (step x a) l

variable {step : σ → α → σ} {fine : σ → α → Prop} {secret secret' : σ → α → Bool} {see : σ → ω} {x y : σ}

/-- Secret actions that do nothing where they are taken can be left out. -/
theorem foldl_purge (l : List α) (h : Along step (fun x a => secret x a = true → step x a = x) x l) :
    (purge step secret x l).foldl step x = l.foldl step x := by
  induction l generalizing x with
  | nil => rfl
  | cons a l ih =>
      have hrest := ih h.2
      by_cases hx : secret x a = true
      · rw [purge, if_pos hx, List.foldl_cons, ← hrest, h.1 hx]
      · rw [purge, if_neg hx, List.foldl_cons, List.foldl_cons, hrest]

theorem purge_append (x : σ) (l l' : List α) :
    purge step secret x (l ++ l') = purge step secret x l ++ purge step secret (l.foldl step x) l' := by
  induction l generalizing x with
  | nil => rfl
  | cons a l ih =>
      rw [List.cons_append, purge, purge, List.foldl_cons, ih]
      split_ifs
      · rfl
      · rfl

/-- Of secret actions only, nothing is seen. -/
theorem observed_of_purge_nil (l : List α) (hpurge : purge step secret x l = []) : observed step secret see x l = [] := by
  induction l generalizing x with
  | nil => rfl
  | cons a l ih =>
      unfold purge at hpurge
      unfold observed
      split_ifs at hpurge ⊢
      exact ih hpurge

theorem Along.append {l l' : List α} (h : Along step fine x (l ++ l')) : Along step fine (l.foldl step x) l' := by
  induction l generalizing x with
  | nil => exact h
  | cons a l ih => exact ih h.2

theorem Along.of_append {l l' : List α} (h : Along step fine x (l ++ l')) : Along step fine x l := by
  induction l generalizing x with
  | nil => trivial
  | cons a l ih => exact ⟨h.1, ih h.2⟩

/-- What every action in order keeps, an orderly run keeps. -/
theorem Along.keeps {P : σ → Prop} {l : List α} (h : Along step fine x l)
    (hstep : ∀ {x : σ} {a : α}, P x → fine x a → P (step x a)) (hx : P x) : P (l.foldl step x) := by
  induction l generalizing x with
  | nil => exact hx
  | cons a l ih => exact ih h.2 (hstep hx h.1)

/-- A machine that keeps a relation to the states of an orderly run keeps it over the run. -/
theorem Along.simulates {τ : Type*} {step' : τ → α → τ} {R : τ → σ → Prop} {y : τ} {l : List α} (h : Along step fine x l)
    (hstep : ∀ {y : τ} {x : σ} {a : α}, R y x → fine x a → R (step' y a) (step x a)) (hR : R y x) :
    R (l.foldl step' y) (l.foldl step x) := by
  induction l generalizing x y with
  | nil => exact hR
  | cons a l ih => exact ih h.2 (hstep hR h.1)

/-- The relation that the runs keep: `secret` are the secret actions of the first one, `secret'`
of the second. -/
structure Unwinds (step : σ → α → σ) (fine : σ → α → Prop) (secret secret' : σ → α → Bool) (R : σ → σ → Prop) : Prop where
  left : ∀ {x y : σ} {a : α}, R x y → fine x a → secret x a = true → R (step x a) y
  right : ∀ {x y : σ} {a : α}, R x y → fine y a → secret' y a = true → R x (step y a)
  both : ∀ {x y : σ} {a : α}, R x y → fine x a → fine y a → secret x a = false → secret' y a = false →
    R (step x a) (step y a)

namespace Unwinds

variable {R : σ → σ → Prop}

/-- **Runs that differ in secret actions only look the same.** -/
theorem observed_eq (h : Unwinds step fine secret secret' R) (hsee : ∀ {x y : σ}, R x y → see x = see y) (l l' : List α)
    (hR : R x y) (hl : Along step fine x l) (hl' : Along step fine y l') (hpurge : purge step secret x l = purge step secret' y l') :
    observed step secret see x l = observed step secret' see y l' := by
  induction l generalizing x y l' with
  | nil => exact (observed_of_purge_nil l' hpurge.symm).symm
  | cons a l ih =>
      by_cases hx : secret x a = true
      · rw [purge, if_pos hx] at hpurge
        rw [observed, if_pos hx]
        exact ih l' (h.left hR hl.1 hx) hl.2 hl' hpurge
      · rw [purge, if_neg hx] at hpurge
        rw [observed, if_neg hx]
        -- the second run reaches the same action after secret ones of its own
        induction l' generalizing y with
        | nil => cases hpurge
        | cons a' l' ih' =>
            by_cases hy : secret' y a' = true
            · rw [purge, if_pos hy] at hpurge
              rw [observed, if_pos hy]
              exact ih' (h.right hR hl'.1 hy) hl'.2 hpurge
            · rw [purge, if_neg hy] at hpurge
              rw [observed, if_neg hy]
              obtain ⟨rfl, hrest⟩ := List.cons.inj hpurge
              have hnext : R (step x a) (step y a) :=
                h.both hR hl.1 hl'.1 (Bool.eq_false_iff.mpr hx) (Bool.eq_false_iff.mpr hy)
              rw [hsee hnext, ih l' hnext hl.2 hl'.2 hrest]

end Unwinds

end TickToTrade.Util
