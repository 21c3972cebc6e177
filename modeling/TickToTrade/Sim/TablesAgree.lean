import Mathlib.Data.Set.Function
import TickToTrade.Sim.VenueHistory

/-!
# The tables of a venue agree with its engine

What the three tables of a venue are for, said of the venue alone: which orders rest is
what a walk over the levels of the engine finds, and which of them are clients' is what
the answers to the clients accepted.
-/

namespace TickToTrade.Sim.Venue

open Util

/-- The tables agree with the engine. -/
structure TablesAgree (v : Venue) : Prop where
  /-- The entries of `m_live` and the resting orders correspond, by their handles. -/
  bijective : Set.BijOn (fun e : ℕ × LiveOrder => e.2.handle) {e | e ∈ v.live.entries}
    {h | ∃ s p, ∃ k ∈ v.engine.handlesAtLevel s p, h = some k}
  /-- An entry has the handle, the side and the tick of the order with its reference. -/
  stored : ∀ ref l, (ref, l) ∈ v.live.entries → ∃ h ∈ v.engine.handlesAtLevel l.side l.tick, l.handle = some h ∧
    (v.engine.order h).id = ref ∧ (v.engine.order h).side = l.side ∧ (v.engine.order h).price = l.tick
  nodup : v.clientRefs.Nodup
  /-- `m_clientRefs` lists the resting orders that were accepted from clients. -/
  clients : ∀ ref, ref ∈ v.clientRefs ↔ v.Rests ref ∧ ∃ user, (user, ref) ∈ Desk.answered v.oe
  /-- `m_byUserRef` maps their user references to their references. -/
  users : ∀ user ref, (user, ref) ∈ v.byUserRef.entries ↔ v.Rests ref ∧ (user, ref) ∈ Desk.answered v.oe

section

variable {first : ℕ} {own syn tape known : List ℕ} {v : Venue} {d : Desk ℕ}

/-- Tables that stand for a desk agree with the engine. -/
theorem Kept.tablesAgree (h : Kept True first own syn tape known v d) : v.TablesAgree where
  bijective := by
    refine ⟨?_, ?_, ?_⟩
    · rintro ⟨ref, l⟩ he
      obtain ⟨o, ho, -, hhandle, -⟩ := h.live ref l (h.liveWF.lookup_eq_some_iff.mpr he)
      exact ⟨l.side, o.price, o.key, h.mem_handles.mpr ⟨o, ho, rfl, rfl⟩, hhandle⟩
    · rintro ⟨ref, l⟩ he ⟨ref', l'⟩ he' hsame
      have hl := h.liveWF.lookup_eq_some_iff.mpr he
      have hl' := h.liveWF.lookup_eq_some_iff.mpr he'
      obtain ⟨o, ho, hid, hhandle, -⟩ := h.live ref l hl
      obtain ⟨o', ho', hid', hhandle', -⟩ := h.live ref' l' hl'
      have hkey : o.key = o'.key := Option.some.inj (hhandle.symm.trans (hsame.trans hhandle'))
      obtain rfl : ref = ref' := by rw [← hid, ← hid', (h.sound.distinct ho ho' hkey).2]
      rw [hl] at hl'
      cases hl'
      rfl
    · rintro - ⟨s, p, k, hk, rfl⟩
      obtain ⟨o, ho, rfl, -⟩ := h.mem_handles.mp hk
      obtain ⟨l, hl, -, hhandle⟩ := h.listed trivial s o ho
      exact ⟨(o.id, l), h.liveWF.lookup_eq_some_iff.mp hl, hhandle⟩
  stored ref l he := by
    obtain ⟨o, ho, rfl, hhandle, htick⟩ := h.live ref l (h.liveWF.lookup_eq_some_iff.mpr he)
    obtain ⟨hid, hprice, hside⟩ := h.cell ho
    exact ⟨o.key, h.mem_handles.mpr ⟨o, ho, rfl, htick.symm⟩, hhandle, hid, hside, hprice.trans htick.symm⟩
  nodup := h.nodup
  clients ref := by
    rw [h.clients, Option.ne_none_iff_exists']
    constructor
    · rintro ⟨user, hu⟩
      exact ⟨(h.owner_iff.mp hu).1, user, (h.owner_iff.mp hu).2⟩
    · rintro ⟨hrests, user, hu⟩
      exact ⟨user, h.owner_iff.mpr ⟨hrests, hu⟩⟩
  users user ref := by
    rw [← h.usersWF.lookup_eq_some_iff, h.users, h.owner_iff]

end

/-- **The tables agree with the engine** after every call of an orderly run in which the
references do not run out. -/
theorem tables_agree (symbol : List UInt8) (stockLocate : ℕ) (minTick maxTick : ℤ)
    (wirePerTick firstOrderRef liveReserve stray : ℕ) (hfirst : firstOrderRef < 2 ^ 64) (ops : List Op)
    (h : Orderly (new symbol stockLocate minTick maxTick wirePerTick firstOrderRef liveReserve stray) ops)
    (hunique : TapeUnique ops)
    (hwrap : NoWrap (new symbol stockLocate minTick maxTick wirePerTick firstOrderRef liveReserve stray) ops) :
    ((new symbol stockLocate minTick maxTick wirePerTick firstOrderRef liveReserve stray).run ops).TablesAgree := by
  obtain ⟨hkept, hpos⟩ := kept_new symbol stockLocate minTick maxTick hfirst
  obtain ⟨xs, d, -, hk, -⟩ := kept_run hkept hpos h hwrap fun _ => hunique
  exact hk.tablesAgree

/-- A venue with a tape order, two clients' orders and a synthetic one. -/
def sampleVenue : Venue := new [65] 1 1 100000 100 (2 ^ 62) 16 0

/-- A tape order trades with a client's, another client's order is replaced, crossed by the
tape and cancelled in part. -/
def sampleOps : List Op :=
  [.mirrorAdd 7 .sell 5000 100,
    .request (.enterOrder ⟨1, .buy, 40, [65], 5000, .day⟩),
    .request (.enterOrder ⟨2, .buy, 30, [65], 4900, .day⟩),
    .injectSynthetic .buy 49 10,
    .mirrorExecute 7 10,
    .cancelSynthetic (2 ^ 62 + 2),
    .request (.replaceOrder ⟨2, 3, 50, 4800⟩),
    .mirrorReplace 7 8 20 4800,
    .request (.cancelOrder ⟨3, 10⟩)]

theorem sampleOps_orderly : Orderly sampleVenue sampleOps ∧ TapeUnique sampleOps ∧ NoWrap sampleVenue sampleOps := by
  refine ⟨⟨by decide +kernel, by decide +kernel, by decide +kernel, synthetics_of_split (by decide +kernel)⟩,
    by decide +kernel, by decide +kernel⟩

theorem tables_agree_sample : (sampleVenue.run sampleOps).TablesAgree :=
  tables_agree [65] 1 1 100000 100 (2 ^ 62) 16 0 (by decide) sampleOps sampleOps_orderly.1 sampleOps_orderly.2.1
    sampleOps_orderly.2.2

/-- A venue that starts with the last 64-bit reference. -/
def lastRefVenue : Venue := new [65] 1 1 100000 100 (2 ^ 64 - 1) 16 0

/-- Two orders: the second one gets the reference zero, which the table of the resting
orders cannot hold. -/
def wrapOps : List Op :=
  [.request (.enterOrder ⟨1, .buy, 10, [65], 5000, .day⟩), .request (.enterOrder ⟨2, .buy, 10, [65], 4900, .day⟩)]

/-- Where the references run out, an order rests without an entry. -/
theorem wrap_loses_entry :
    Orderly lastRefVenue wrapOps ∧ TapeUnique wrapOps ∧ ¬ (lastRefVenue.run wrapOps).TablesAgree := by
  refine ⟨⟨by decide +kernel, by decide +kernel, by decide +kernel, synthetics_of_split (by decide +kernel)⟩,
    by decide +kernel, fun h => ?_⟩
  have hrests : (1 : ℕ) ∈ (lastRefVenue.run wrapOps).engine.handlesAtLevel .buy 49 := by decide +kernel
  obtain ⟨e, he, hhandle⟩ := h.bijective.surjOn ⟨.buy, 49, 1, hrests, rfl⟩
  have hnone : ∀ e ∈ (lastRefVenue.run wrapOps).live.entries, e.2.handle ≠ some 1 := by decide +kernel
  exact hnone e he hhandle

end TickToTrade.Sim.Venue
