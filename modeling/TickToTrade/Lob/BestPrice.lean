import TickToTrade.Lob.Types

/-!
# Best prices

A cached best price of one side, as a statement about the set of prices that have
shares: the mark `kNoPrice` when there is none, else the most aggressive of them.
-/

namespace TickToTrade

/-- `best` is the best of the prices satisfying `P` for the side `s`. -/
def IsBest (s : Side) (P : ℤ → Prop) (best : ℤ) : Prop :=
  (best = kNoPrice ∧ ∀ p, ¬ P p) ∨ (P best ∧ ∀ p, P p → s.atLeast best p)

namespace IsBest

variable {s : Side} {P Q : ℤ → Prop} {best p : ℤ}

theorem congr (h : IsBest s P best) (hPQ : ∀ q, Q q ↔ P q) : IsBest s Q best := by
  have : Q = P := funext fun q => propext (hPQ q)
  rwa [this]

theorem none (h : ∀ q, ¬ P q) : IsBest s P kNoPrice := .inl ⟨rfl, h⟩

/-- The best price is unique where the mark is not itself a price. -/
theorem unique (h : IsBest s P best) (h' : IsBest s P p) : best = p := by
  rcases h with ⟨rfl, hno⟩ | ⟨hb, hmax⟩
  · rcases h' with ⟨rfl, -⟩ | ⟨hp, -⟩
    · rfl
    · exact absurd hp (hno p)
  · rcases h' with ⟨-, hno⟩ | ⟨hp, hmax'⟩
    · exact absurd hb (hno best)
    · exact s.atLeast_antisymm (hmax p hp) (hmax' best hb)

/-- A price joins: it is the new best one if there was none or it is at least as
good as the old one. -/
theorem insert (h : IsBest s P best) (hQ : ∀ q, Q q ↔ P q ∨ q = p) (hno : ¬ P kNoPrice) :
    IsBest s Q (if best = kNoPrice ∨ s.atLeast p best then p else best) := by
  rcases h with ⟨rfl, hemp⟩ | ⟨hb, hmax⟩
  · rw [if_pos (.inl rfl)]
    refine .inr ⟨(hQ p).2 (.inr rfl), fun q hq => ?_⟩
    rcases (hQ q).1 hq with hq | rfl
    · exact absurd hq (hemp q)
    · exact s.atLeast_refl q
  · have hne : best ≠ kNoPrice := fun h => hno (h ▸ hb)
    split_ifs with hc
    · have hpb := hc.resolve_left hne
      refine .inr ⟨(hQ p).2 (.inr rfl), fun q hq => ?_⟩
      rcases (hQ q).1 hq with hq | rfl
      · exact s.atLeast_trans hpb (hmax q hq)
      · exact s.atLeast_refl q
    · have hpb := s.atLeast_of_not fun h => hc (.inr h)
      refine .inr ⟨(hQ best).2 (.inl hb), fun q hq => ?_⟩
      rcases (hQ q).1 hq with hq | rfl
      · exact hmax q hq
      · exact hpb

/-- A price that is not the best one leaves. -/
theorem remove_of_ne (h : IsBest s P best) (hQ : ∀ q, Q q ↔ P q ∧ q ≠ p) (hne : best ≠ p) :
    IsBest s Q best := by
  rcases h with ⟨rfl, hemp⟩ | ⟨hb, hmax⟩
  · exact .inl ⟨rfl, fun q hq => hemp q ((hQ q).1 hq).1⟩
  · exact .inr ⟨(hQ best).2 ⟨hb, hne⟩, fun q hq => hmax q ((hQ q).1 hq).1⟩

end IsBest

end TickToTrade
