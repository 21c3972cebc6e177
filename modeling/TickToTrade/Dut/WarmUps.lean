import TickToTrade.Dut.SlotRefs
import TickToTrade.Util.Unwinding

/-!
# Warm-ups

To keep the code of a request in the caches, the order manager now and then walks through one for
a slot that belongs to no symbol, and puts back what that changed: the counters, the next
reference, and the two entries of the ring that it expects the two references to take. The
references skip `0`. A walk that draws the last of the 32-bit words and then `1` expects the
second at the entry of `0`, so the entry of `1` stays behind.

## What is proved

* `warmReconcile_eq` — all that a walk leaves behind.
* `warm_unseen_iff` — when a walk leaves nothing behind, in every state that calls lead to, and
  that walks which do not leave anything can be left out of a run.
-/

namespace TickToTrade.Dut

open Util (Along purge)

namespace OrderManager

variable {o : OrderManager} {sym : ℕ} {side : Side}

/-- The entry of the ring that a drawn reference takes. -/
def entryFor (ref sym : ℕ) : RefSide := ⟨ref, sym % 2 ^ 16, .buy⟩

/-- The second reference is where the walk expects it, or its entry is there already. -/
def RingForeseen (o : OrderManager) (sym : ℕ) : Prop := o.nextUserRef ≠ 2 ^ 32 - 1 ∨ o.refs 1 = entryFor 1 sym

instance (o : OrderManager) (sym : ℕ) : Decidable (o.RingForeseen sym) := by unfold RingForeseen; infer_instance

/-- The reference after this one. -/
def refAfter (ref : ℕ) : ℕ := if (ref + 1) % 2 ^ 32 = 0 then 1 else (ref + 1) % 2 ^ 32

/-! ### The walk -/

/-- The ring after two references were drawn for the bid of a symbol. -/
def twoDrawn (o : OrderManager) (sym : ℕ) : ℕ → RefSide :=
  Function.update (Function.update o.refs (o.nextUserRef % kRefRing) (entryFor o.nextUserRef sym))
    (refAfter o.nextUserRef % kRefRing) (entryFor (refAfter o.nextUserRef) sym)

/-- **What a walk leaves behind**: the ring after two draws, with two entries put back. -/
theorem warmReconcile_eq (o : OrderManager) (sym : ℕ) :
    o.warmReconcile sym = { o with
      refs := Function.update
        (Function.update (o.twoDrawn sym) (o.nextUserRef % kRefRing) (o.refs (o.nextUserRef % kRefRing)))
        ((o.nextUserRef + 1) % 2 ^ 32 % kRefRing) (o.refs ((o.nextUserRef + 1) % 2 ^ 32 % kRefRing)) } := rfl

/-- Two entries were overwritten and put back. -/
theorem update_put_back {β : Type} (f : ℕ → β) (a b : ℕ) (x y : β) :
    Function.update (Function.update (Function.update (Function.update f a x) b y) a (f a)) b (f b) = f := by
  funext i
  by_cases hb : i = b
  · rw [hb, Function.update_self]
  · by_cases ha : i = a
    · rw [ha, Function.update_of_ne (ha ▸ hb), Function.update_self]
    · rw [Function.update_of_ne hb, Function.update_of_ne ha, Function.update_of_ne hb, Function.update_of_ne ha]

/-- Before any other word than the last one, both entries are put back. -/
theorem warmReconcile_of_ne (hlt : o.nextUserRef < 2 ^ 32) (h : o.nextUserRef ≠ 2 ^ 32 - 1) (sym : ℕ) : o.warmReconcile sym = o := by
  have hafter : refAfter o.nextUserRef = (o.nextUserRef + 1) % 2 ^ 32 := if_neg (by omega)
  rw [warmReconcile_eq, twoDrawn, hafter, update_put_back]

/-- Before the last word, the entry of `1` stays behind. -/
theorem warmReconcile_of_eq (h : o.nextUserRef = 2 ^ 32 - 1) (sym : ℕ) :
    o.warmReconcile sym = { o with refs := Function.update o.refs 1 (entryFor 1 sym) } := by
  have hfirst : (2 ^ 32 - 1) % kRefRing = 4095 := rfl
  have hsecond : refAfter (2 ^ 32 - 1) % kRefRing = 1 := rfl
  have hzero : (2 ^ 32 - 1 + 1) % 2 ^ 32 % kRefRing = 0 := rfl
  rw [warmReconcile_eq, twoDrawn, h, hfirst, hsecond, hzero]
  refine congrArg (fun refs => { o with nextUserRef := 2 ^ 32 - 1, refs := refs }) ?_
  funext i
  by_cases h0 : i = 0
  · rw [h0, Function.update_self, Function.update_of_ne (by decide)]
  · by_cases hi : i = 4095
    · rw [hi, Function.update_of_ne (by decide), Function.update_self, Function.update_of_ne (by decide)]
    · by_cases h1 : i = 1
      · rw [h1, Function.update_of_ne (by decide), Function.update_of_ne (by decide), Function.update_self, Function.update_self]
        rfl
      · rw [Function.update_of_ne h0, Function.update_of_ne hi, Function.update_of_ne h1, Function.update_of_ne hi, Function.update_of_ne h1]

/-- A walk leaves nothing behind just when the ring's entries were foreseen. -/
theorem warmReconcile_iff (hlt : o.nextUserRef < 2 ^ 32) (sym : ℕ) : o.warmReconcile sym = o ↔ o.RingForeseen sym := by
  by_cases h : o.nextUserRef = 2 ^ 32 - 1
  · rw [warmReconcile_of_eq h]
    constructor
    · intro heq
      have hrefs : Function.update o.refs 1 (entryFor 1 sym) = o.refs := congrArg refs heq
      exact .inr (by rw [← hrefs, Function.update_self])
    · rintro (hne | hentry)
      · exact absurd h hne
      · rw [← hentry, Function.update_eq_self]
  · exact ⟨fun _ => .inl h, fun _ => warmReconcile_of_ne hlt h sym⟩

/-! ### Runs -/

/-- A use of the order manager. -/
inductive Use where
  | call (c : Call)
  | testOrder
  | warmUp (sym : ℕ)

/-- Use the order manager. -/
def Traced.use (w : Traced) : Use → Traced
  | .call c => w.call c
  | .testOrder => ⟨w.oms.encodeTestOrder.1, w.sent ++ [w.oms.encodeTestOrder.2]⟩
  | .warmUp sym => { w with oms := w.oms.warmReconcile sym }

/-- Is it a walk? -/
def Use.isWarmUp (_ : Traced) : Use → Bool
  | .warmUp _ => true
  | _ => false

/-- If it is a walk, the ring's entries are foreseen. -/
def Use.Foreseen (w : Traced) : Use → Prop
  | .warmUp sym => w.oms.RingForeseen sym
  | _ => True

/-- The next reference is a 32-bit word. -/
def NextFits (o : OrderManager) : Prop := o.nextUserRef < 2 ^ 32

theorem nextFits_allocRef (h : o.NextFits) (sym : ℕ) (side : Side) : (o.allocRef sym side).2.NextFits := by
  unfold NextFits allocRef
  simp only
  split_ifs <;> omega

theorem nextFits_reconcileFor (h : o.NextFits) (sym : ℕ) (t : QuoteTargets) (side : Side) : (o.reconcileFor sym t side).1.NextFits := by
  have hside : ∀ want price qty, (o.reconcileSide sym side want price qty).1.NextFits := by
    intro want price qty
    rcases reconcileSide_draws o sym side want price qty with ⟨-, hnext, -⟩ | ⟨-, hnext, -⟩
    · exact Nat.lt_of_le_of_lt (Nat.le_of_eq hnext) h
    · exact Nat.lt_of_le_of_lt (Nat.le_of_eq hnext) (nextFits_allocRef h sym side)
  cases side with
  | buy => exact hside ..
  | sell => exact hside ..

theorem nextFits_reconcile (h : o.NextFits) (sym : ℕ) (t : QuoteTargets) : (o.reconcile sym t).1.NextFits := by
  rw [reconcile_eq]
  exact nextFits_reconcileFor (nextFits_reconcileFor h sym t _) sym t _

/-- A walk puts everything but the ring back. -/
theorem warmReconcile_rest (o : OrderManager) (sym : ℕ) : o.warmReconcile sym = o.withRing (o.warmReconcile sym).refs := rfl

theorem nextFits_use {w : Traced} (h : w.oms.NextFits) (u : Use) : (w.use u).oms.NextFits := by
  cases u with
  | call c =>
      cases c with
      | reconcile sym t => exact nextFits_reconcile h sym t
      | ack ouch => exact Nat.lt_of_le_of_lt (Nat.le_of_eq (onAck_moves w.oms ouch).next) h
  | testOrder => exact nextFits_allocRef h kTestSym .buy
  | warmUp sym => exact h

/-- An order manager after a list of uses. -/
def used (cfg : OmsConfig) (uses : List Use) : Traced := uses.foldl Traced.use ⟨new cfg, []⟩

theorem nextFits_new {cfg : OmsConfig} (h : cfg.firstUserRef < 2 ^ 32) : (new cfg).NextFits := by
  unfold NextFits new
  simp only
  split_ifs <;> omega

theorem nextFits_foldl (uses : List Use) {w : Traced} (h : w.oms.NextFits) : (uses.foldl Traced.use w).oms.NextFits := by
  induction uses generalizing w with
  | nil => exact h
  | cons u uses ih => exact ih (nextFits_use h u)

/-- Walks whose entries are foreseen do nothing where they are taken. -/
theorem silent_of_foreseen (uses : List Use) {w : Traced} (hfits : w.oms.NextFits) (h : Along Traced.use Use.Foreseen w uses) :
    Along Traced.use (fun w u => Use.isWarmUp w u = true → w.use u = w) w uses := by
  induction uses generalizing w with
  | nil => trivial
  | cons u uses ih =>
      refine ⟨fun hu => ?_, ih (nextFits_use hfits u) h.2⟩
      cases u with
      | call c => cases hu
      | testOrder => cases hu
      | warmUp sym =>
          have hsame : w.oms.warmReconcile sym = w.oms := (warmReconcile_iff hfits sym).mpr h.1
          rw [Traced.use, hsame]

/-- **Warm-ups are unseen just when the ring's entries are foreseen**: in every state that uses lead to, a walk puts everything but the
ring back, and the ring just when the entries it takes are the ones it expects; and a run whose walks are all of this kind ends in the
same state, having sent the same requests, as the run without them. -/
theorem warm_unseen_iff (cfg : OmsConfig) (h : cfg.firstUserRef < 2 ^ 32) (uses : List Use) :
    let w := used cfg uses
    (∀ sym, w.oms.warmReconcile sym = w.oms ↔ w.oms.RingForeseen sym) ∧
      (∀ sym, w.oms.warmReconcile sym = w.oms.withRing (w.oms.warmReconcile sym).refs) ∧
      (Along Traced.use Use.Foreseen ⟨new cfg, []⟩ uses →
        used cfg (purge Traced.use Use.isWarmUp ⟨new cfg, []⟩ uses) = used cfg uses) := by
  intro w
  have hfits : w.oms.NextFits := nextFits_foldl uses (nextFits_new h)
  exact ⟨warmReconcile_iff hfits, warmReconcile_rest w.oms,
    fun hall => Util.foldl_purge uses (silent_of_foreseen uses (nextFits_new h) hall)⟩

/-- One symbol, and references from the last but one on. -/
def lateConfig : OmsConfig := { symbols := [[65]], firstUserRef := 2 ^ 32 - 2 }

/-- A bid is made between two walks. -/
def lateUses : List Use := [.warmUp 0, .call (.reconcile 0 sampleQuote)]

theorem warm_unseen_late :
    let w := used lateConfig lateUses
    (∀ sym, w.oms.warmReconcile sym = w.oms ↔ w.oms.RingForeseen sym) ∧
      (∀ sym, w.oms.warmReconcile sym = w.oms.withRing (w.oms.warmReconcile sym).refs) ∧
      (Along Traced.use Use.Foreseen ⟨new lateConfig, []⟩ lateUses →
        used lateConfig (purge Traced.use Use.isWarmUp ⟨new lateConfig, []⟩ lateUses) = used lateConfig lateUses) :=
  warm_unseen_iff lateConfig (by decide) lateUses

/-- Before the last word, a walk leaves an entry for `1` behind, which no request has drawn. -/
theorem warm_seen :
    (used lateConfig (lateUses ++ [.warmUp 0])).oms.lookupRef 1 = some (0, .buy) ∧
      (used lateConfig lateUses).oms.lookupRef 1 = none ∧
      ¬ ∀ (cfg : OmsConfig), cfg.firstUserRef < 2 ^ 32 → ∀ (uses : List Use) (sym : ℕ), sym < (new cfg).symbolCount →
        (used cfg uses).oms.warmReconcile sym = (used cfg uses).oms := by
  have hbehind : (used lateConfig (lateUses ++ [.warmUp 0])).oms.lookupRef 1 = some (0, .buy) := by decide +kernel
  have hbefore : (used lateConfig lateUses).oms.lookupRef 1 = none := by decide +kernel
  refine ⟨hbehind, hbefore, fun hall => ?_⟩
  have hsame : (used lateConfig (lateUses ++ [.warmUp 0])).oms = (used lateConfig lateUses).oms :=
    hall lateConfig (by decide) lateUses 0 (by decide)
  rw [hsame, hbefore] at hbehind
  cases hbehind

end OrderManager

end TickToTrade.Dut
