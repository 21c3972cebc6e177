import TickToTrade.Sim.TablesAgree

/-!
# The shares of the clients' orders of a venue

The ledger of a desk, said of the venue alone: what the answers accepted for a client's
order is what they executed and cancelled of it, what rests in the engine and what was
taken out when it was replaced.
-/

namespace TickToTrade.Sim.Venue

/-- The shares of the clients' orders are conserved along a run. -/
structure Conserved (v : Venue) (ops : List Op) : Prop where
  balance : ∀ user, total (accepts user) (v.run ops).oe = total (executes user) (v.run ops).oe +
    total (cancels user) (v.run ops).oe + (v.run ops).sharesOf user + v.replacedShares user ops
  /-- An order is executed and cancelled after it was accepted and while it has shares. -/
  fits : Desk.Fits (v.run ops).oe

/-- The books of a desk where nothing has happened. -/
theorem books_empty : emptyDesk.Books [] [] where
  sound := ⟨by simp [Sides.Distinct, emptyDesk], by simp [emptyDesk], by simp [emptyDesk], by simp [emptyDesk],
    by simp [emptyDesk]⟩
  still _ _ _ := rfl
  balanced _ := ⟨0, .inr ⟨fun _ => nofun, rfl⟩, rfl⟩
  away _ hu := absurd hu List.not_mem_nil
  fits pre m post heq := absurd heq (by simp)

/-- **Shares are conserved** along an orderly run in which the references do not run out. -/
theorem shares_conserved (symbol : List UInt8) (stockLocate : ℕ) (minTick maxTick : ℤ)
    (wirePerTick firstOrderRef liveReserve stray : ℕ) (hfirst : firstOrderRef < 2 ^ 64) (hlow : -2 ^ 31 ≤ minTick)
    (hordered : minTick ≤ maxTick) (hhigh : maxTick < 2 ^ 31) (ops : List Op)
    (h : Orderly (new symbol stockLocate minTick maxTick wirePerTick firstOrderRef liveReserve stray) ops)
    (hwrap : NoWrap (new symbol stockLocate minTick maxTick wirePerTick firstOrderRef liveReserve stray) ops) :
    (new symbol stockLocate minTick maxTick wirePerTick firstOrderRef liveReserve stray).Conserved ops := by
  obtain ⟨hkept, hpos⟩ : Kept False _ [] [] [] [] _ _ ∧ _ := kept_new symbol stockLocate minTick maxTick hfirst
  obtain ⟨xs, d, hf, hk, hin, hsub, hreplaced⟩ := kept_run hkept hpos h hwrap False.elim
  have hbooks := books_empty.doesAll hf.does wirePerTick (hsub.nodup h.fresh)
  have hoe : _ = [] ++ xs.flatMap (Deed.oe wirePerTick) := hf.oe
  refine ⟨fun user => ?_, by rw [hoe]; exact hbooks.fits⟩
  obtain ⟨q, hq, hbalance⟩ := hbooks.balanced user
  have hrest : d.incoming user = 0 := congrFun (hin ⟨rfl, rfl, hlow, hordered, hhigh⟩) user
  rw [← hoe, List.nil_append, hreplaced, hrest] at hbalance
  rw [hk.sharesOf_eq hq]
  omega

theorem shares_conserved_sample : sampleVenue.Conserved sampleOps :=
  shares_conserved [65] 1 1 100000 100 (2 ^ 62) 16 0 (by decide) (by decide) (by decide) (by decide) sampleOps
    sampleOps_orderly.1 sampleOps_orderly.2.2

/-- A venue with few prices. -/
def smallVenue (minTick maxTick : ℤ) (firstOrderRef : ℕ) : Venue := new [65] 1 minTick maxTick 100 firstOrderRef 1 0

/-- A client's order for ten shares. -/
def enterTen (user : ℕ) (side : Ouch.SideCode) (wire : ℕ) : Op := .request (.enterOrder ⟨user, side, 10, [65], wire, .day⟩)

/-- Runs that lose the shares of a client's order. -/
def lossyRuns : List (Venue × List Op × ℕ) :=
  [ -- the tape names the reference of the client's order
    (smallVenue 1 60 (2 ^ 62), [enterTen 1 .buy 5000, .mirrorDelete (2 ^ 62)], 1),
    -- the tape names the reference zero, under which the table keeps the handle of an order that is gone
    (smallVenue 1 60 (2 ^ 62),
      [.mirrorAdd 0 .buy 5000 10, enterTen 1 .sell 5000, enterTen 2 .buy 4900, .mirrorDelete 0], 2),
    -- a client's order is cancelled as a synthetic one
    (smallVenue 1 60 (2 ^ 62), [enterTen 1 .buy 5000, .cancelSynthetic (2 ^ 62)], 1),
    -- the references run out: the order zero trades, and the table has forgotten its client
    (smallVenue 1 60 (2 ^ 64 - 1),
      [enterTen 1 .buy 4800, enterTen 2 .buy 4900, .mirrorAdd 30 .buy 1000 10, enterTen 3 .sell 4900], 2),
    -- the engine has no price at all
    (smallVenue 0 (-1) (2 ^ 62), [enterTen 1 .buy 100], 1)]

/-- The clients use new references in all of them, and shares are lost in each. -/
theorem lossyRuns_lose : lossyRuns.Forall fun r =>
    (∀ op ∈ r.2.1, ∀ u ∈ op.users, u ≠ 0) ∧ (r.2.1.flatMap Op.newUsers).Nodup ∧ ¬ r.1.Conserved r.2.1 := by
  have hlost : ∀ r ∈ lossyRuns, (∀ op ∈ r.2.1, ∀ u ∈ op.users, u ≠ 0) ∧ (r.2.1.flatMap Op.newUsers).Nodup ∧
      total (accepts r.2.2) (r.1.run r.2.1).oe ≠ total (executes r.2.2) (r.1.run r.2.1).oe +
        total (cancels r.2.2) (r.1.run r.2.1).oe + (r.1.run r.2.1).sharesOf r.2.2 + r.1.replacedShares r.2.2 r.2.1 := by
    decide +kernel
  refine List.forall_iff_forall_mem.mpr fun r hr => ?_
  obtain ⟨husers, hfresh, hne⟩ := hlost r hr
  exact ⟨husers, hfresh, fun hc => hne (hc.balance r.2.2)⟩

end TickToTrade.Sim.Venue
