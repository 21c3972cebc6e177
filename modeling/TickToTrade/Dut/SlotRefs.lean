import TickToTrade.Dut.OrderSlots
import Mathlib.Data.List.Nodup

/-!
# The references of the slots

Every request of the order manager for a new order or a replace draws a reference. The
references run through the nonzero 32-bit words, so none is drawn twice before all of
them have been. A slot uses the reference of its order, and while a replace is in flight
the one that the replace will give it; answers give references up and pass them on, but
bring none in, whatever they name. So the references in use are all different
(`slots_sound`), and the ring of references is only a hint: the slot that an answer is
for is the one slot that uses its reference (`onAck_of_ring`).

The ring keeps a symbol in 16 bits and marks test orders by the last symbol, so all this
is for at most 65535 symbols (`test_symbol_in_ring`).
-/

namespace TickToTrade.Dut

/-! ### The references that are drawn -/

/-- The `k`-th reference that is drawn. -/
def refAt (first k : ℕ) : ℕ := (first - 1 + k) % (2 ^ 32 - 1) + 1

theorem refAt_zero {first : ℕ} (h : 1 ≤ first) (h' : first < 2 ^ 32) : refAt first 0 = first := by
  unfold refAt
  rw [Nat.mod_eq_of_lt (by omega)]
  omega

theorem refAt_succ (first k : ℕ) :
    refAt first (k + 1) =
      if (refAt first k + 1) % 2 ^ 32 = 0 then 1 else (refAt first k + 1) % 2 ^ 32 := by
  unfold refAt
  split_ifs <;> omega

theorem refAt_pos (first k : ℕ) : 0 < refAt first k := Nat.succ_pos _

/-- No reference is drawn twice before all of them have been drawn. -/
theorem refAt_inj {first i j : ℕ} (hi : i < 2 ^ 32 - 1) (hj : j < 2 ^ 32 - 1)
    (h : refAt first i = refAt first j) : i = j := by
  unfold refAt at h
  omega

/-- The first references that are drawn. -/
def refsUpTo (first n : ℕ) : List ℕ := (List.range n).map (refAt first)

theorem refsUpTo_succ (first n : ℕ) : refsUpTo first (n + 1) = refsUpTo first n ++ [refAt first n] := by
  simp [refsUpTo, List.range_succ]

theorem nodup_refsUpTo {first n : ℕ} (h : n ≤ 2 ^ 32 - 1) : (refsUpTo first n).Nodup := by
  refine List.Nodup.map_on ?_ List.nodup_range
  intro i hi j hj he
  exact refAt_inj (by have := List.mem_range.mp hi; omega) (by have := List.mem_range.mp hj; omega) he

theorem refAt_notMem {first n : ℕ} (h : n < 2 ^ 32 - 1) : refAt first n ∉ refsUpTo first n := by
  have hnodup : (refsUpTo first (n + 1)).Nodup := nodup_refsUpTo (by omega)
  rw [refsUpTo_succ] at hnodup
  exact fun hmem => (List.nodup_append.mp hnodup).2.2 _ hmem _ (List.mem_singleton_self _) rfl

/-- The reference that a request draws, if any. -/
def Outbound.newRefs (out : Outbound) : List ℕ :=
  match out.msg with
  | .enterOrder m => [m.userRefNum]
  | .replaceOrder m => [m.userRefNum]
  | .cancelOrder _ => []

/-! ### The references in use -/

namespace QuoteSlot

/-- The references that a slot uses. -/
def inUse (s : QuoteSlot) : List ℕ :=
  (if s.state ≠ .idle then [s.userRef] else []) ++ (if s.state = .pendingReplace then [s.pendingRef] else [])

/-- What holds of every slot. -/
structure Proper (s : QuoteSlot) : Prop where
  /-- A free slot is blank. -/
  idle : s.state = .idle → s = {}
  /-- Just a slot that waits for a replace has a pending reference. -/
  pending : s.pendingRef ≠ 0 ↔ s.state = .pendingReplace
  /-- Its references differ. -/
  nodup : s.inUse.Nodup

theorem proper_blank : Proper {} := ⟨fun _ => rfl, by decide, by decide⟩

theorem mem_inUse {s : QuoteSlot} {u : ℕ} : u ∈ s.inUse ↔ s.Holds u ∨ s.Awaits u := by
  unfold inUse Holds Awaits
  cases s.state <;> simp [@eq_comm ℕ u]

/-- What a request makes of the slot that it is for. -/
def ActsOn (s s' : QuoteSlot) : Ouch.In → Prop
  | .enterOrder m => s.state = .idle ∧ s'.state = .pendingNew ∧ s'.userRef = m.userRefNum
  | .replaceOrder m =>
      s.state = .live ∧ s.userRef = m.origUserRefNum ∧
        s' = { s with state := .pendingReplace, pendingRef := m.userRefNum }
  | .cancelOrder m => s.state = .live ∧ s.userRef = m.userRefNum ∧ s' = { s with state := .pendingCancel }

/-- What an answer can make of the slot that it is for. -/
inductive Answered (s : QuoteSlot) : QuoteSlot → Prop where
  /-- The slot is free. -/
  | ended : Answered s {}
  /-- The order goes on under its references. -/
  | goesOn {s' : QuoteSlot} (hs : s.state ≠ .idle) (hs' : s'.state ≠ .idle)
      (hstate : s'.state = .pendingReplace ↔ s.state = .pendingReplace)
      (href : s'.userRef = s.userRef) (hpending : s'.pendingRef = s.pendingRef) : Answered s s'
  /-- The replace is over, and one of the two references with it. -/
  | replaceOver {s' : QuoteSlot} (hs : s.state = .pendingReplace) (hs' : s'.state = .live)
      (href : s'.userRef = s.userRef ∨ s'.userRef = s.pendingRef) (hpending : s'.pendingRef = 0) :
      Answered s s'

/-- An answer brings no reference in. -/
theorem Answered.subset {s s' : QuoteSlot} (h : Answered s s') : ∀ u ∈ s'.inUse, u ∈ s.inUse := by
  intro u hu
  cases h with
  | ended => exact absurd hu (by simp [inUse])
  | goesOn hs hs' hstate href hpending =>
      rw [mem_inUse] at hu ⊢
      exact hu.imp (fun h => ⟨hs, href ▸ h.2⟩) fun h => ⟨hstate.mp h.1, hpending ▸ h.2⟩
  | replaceOver hs hs' href hpending =>
      rw [mem_inUse] at hu ⊢
      rcases hu with ⟨-, rfl⟩ | ⟨hwaits, -⟩
      · exact href.imp (fun h => ⟨by rw [hs]; decide, h.symm⟩) fun h => ⟨hs, h.symm⟩
      · rw [hs'] at hwaits; cases hwaits

theorem Answered.proper {s s' : QuoteSlot} (h : Answered s s') (hs : s.Proper) : s'.Proper := by
  cases h with
  | ended => exact proper_blank
  | goesOn hidle hidle' hstate href hpending =>
      refine ⟨fun hi => absurd hi hidle', by rw [hpending, hs.pending, hstate], ?_⟩
      have hsame : s'.inUse = s.inUse := by
        simp only [inUse, href, hpending, hstate, ne_eq, hidle, hidle', not_false_eq_true]
      rw [hsame]
      exact hs.nodup
  | replaceOver hwaits hlive href hpending =>
      exact ⟨fun hi => (by rw [hlive] at hi; cases hi), by simp [hpending, hlive], by simp [inUse, hlive]⟩

end QuoteSlot

namespace OrderManager

variable {o o' : OrderManager} {sym : ℕ} {side : Side} {issued drawn : List ℕ} {first : ℕ}

open QuoteSlot

/-- The slots are proper, and the references that they use are all different, and have been
issued. -/
structure SlotsSound (issued : List ℕ) (o : OrderManager) : Prop where
  proper : ∀ p : ℕ × Side, (o.slots p.1 p.2).Proper
  used : ∀ p : ℕ × Side, ∀ u ∈ (o.slots p.1 p.2).inUse, u ∈ issued
  apart : ∀ p q : ℕ × Side, p ≠ q → List.Disjoint (o.slots p.1 p.2).inUse (o.slots q.1 q.2).inUse

/-- One slot changes, to use only references that it used and ones that were not issued. -/
theorem SlotsSound.update (h : SlotsSound issued o) {p : ℕ × Side}
    (hne : ∀ q, q ≠ p → o'.slots q.1 q.2 = o.slots q.1 q.2) (hproper : (o'.slots p.1 p.2).Proper)
    (hsub : ∀ u ∈ (o'.slots p.1 p.2).inUse, u ∈ (o.slots p.1 p.2).inUse ∨ u ∈ drawn)
    (hfresh : ∀ u ∈ drawn, u ∉ issued) : SlotsSound (issued ++ drawn) o' where
  proper q := by
    by_cases hq : q = p
    · rw [hq]; exact hproper
    · rw [hne q hq]; exact h.proper q
  used q u hu := by
    by_cases hq : q = p
    · rw [hq] at hu
      exact List.mem_append.mpr ((hsub u hu).imp_left (h.used p u))
    · rw [hne q hq] at hu
      exact List.mem_append_left _ (h.used q u hu)
  apart := by
    -- the slot that changed and another one
    have hone : ∀ q, q ≠ p → List.Disjoint (o'.slots p.1 p.2).inUse (o'.slots q.1 q.2).inUse := by
      intro q hq u hu huq
      rw [hne q hq] at huq
      rcases hsub u hu with hold | hdrawn
      · exact h.apart p q (Ne.symm hq) hold huq
      · exact hfresh u hdrawn (h.used q u huq)
    intro q r hqr
    by_cases hq : q = p
    · rw [hq] at hqr ⊢
      exact hone r (Ne.symm hqr)
    · by_cases hr : r = p
      · rw [hr]
        exact fun u hu hu' => hone q hq hu' hu
      · rw [hne q hq, hne r hr]
        exact h.apart q r hqr

/-- **The invariant of the references**: the issued ones are the first of the sequence, the
next one follows them, and the slots use different ones. -/
structure RefsSound (first : ℕ) (issued : List ℕ) (o : OrderManager) : Prop where
  drawn : issued = refsUpTo first issued.length
  next : o.nextUserRef = refAt first issued.length
  slots : SlotsSound issued o

theorem refsSound_new {cfg : OmsConfig} (h : 1 ≤ cfg.firstUserRef) (h' : cfg.firstUserRef < 2 ^ 32) :
    RefsSound cfg.firstUserRef [] (new cfg) where
  drawn := rfl
  next := by
    simp only [new, if_neg (by omega : cfg.firstUserRef ≠ 0), List.length_nil]
    exact (refAt_zero h h').symm
  slots :=
    { proper := fun _ => proper_blank
      used := fun _ _ hu => absurd hu (by simp [new, inUse])
      apart := fun _ _ _ _ hu => absurd hu (by simp [new, inUse]) }

/-! ### Requests -/

/-- A request leaves the references alone, or draws the next one. -/
theorem reconcileSlot_draws (o : OrderManager) (s : QuoteSlot) (sym : ℕ) (side : Side) (want : Bool)
    (price : ℤ) (qty : ℕ) :
    let r := o.reconcileSlot s sym side want price qty
    (r.2.2.flatMap Outbound.newRefs = [] ∧ r.1.nextUserRef = o.nextUserRef ∧ r.1.refs = o.refs) ∨
      (r.2.2.flatMap Outbound.newRefs = [o.nextUserRef] ∧
        r.1.nextUserRef = (o.allocRef sym side).2.nextUserRef ∧ r.1.refs = (o.allocRef sym side).2.refs) := by
  unfold reconcileSlot
  cases hs : s.state with
  | idle =>
      simp only
      split_ifs
      · exact .inl ⟨rfl, rfl, rfl⟩
      · exact .inr ⟨rfl, rfl, rfl⟩
  | live =>
      simp only
      split_ifs
      · exact .inl ⟨rfl, rfl, rfl⟩
      · exact .inl ⟨rfl, rfl, rfl⟩
      · exact .inr ⟨rfl, rfl, rfl⟩
  | pendingNew => exact .inl ⟨rfl, rfl, rfl⟩
  | pendingReplace => exact .inl ⟨rfl, rfl, rfl⟩
  | pendingCancel => exact .inl ⟨rfl, rfl, rfl⟩

theorem reconcileSide_draws (o : OrderManager) (sym : ℕ) (side : Side) (want : Bool) (price : ℤ) (qty : ℕ) :
    let r := o.reconcileSide sym side want price qty
    (r.2.flatMap Outbound.newRefs = [] ∧ r.1.nextUserRef = o.nextUserRef ∧ r.1.refs = o.refs) ∨
      (r.2.flatMap Outbound.newRefs = [o.nextUserRef] ∧
        r.1.nextUserRef = (o.allocRef sym side).2.nextUserRef ∧ r.1.refs = (o.allocRef sym side).2.refs) :=
  reconcileSlot_draws o (o.slots sym side) sym side want price qty

variable {s s' : QuoteSlot} {want : Bool} {price : ℤ} {qty : ℕ} {out : List Outbound}

/-- A request keeps a slot proper if the reference that it draws is not `0`, and not in use. -/
theorem Requests.proper (h : Requests o s sym side want price qty s' out) (hs : s.Proper)
    (hdrawn : ∀ u ∈ out.flatMap Outbound.newRefs, u ≠ 0 ∧ u ∉ s.inUse) : s'.Proper := by
  cases h with
  | rest => exact hs
  | enter hidle => exact ⟨by simp, by simp, by simp [inUse]⟩
  | cancel hlive =>
      refine ⟨by simp, ?_, by simp [inUse]⟩
      have hpending : ¬ s.pendingRef ≠ 0 := by rw [hs.pending, hlive]; decide
      exact iff_of_false hpending (by simp)
  | replace hlive =>
      obtain ⟨hpos, hfresh⟩ := hdrawn o.nextUserRef (List.mem_singleton_self _)
      have hne : s.userRef ≠ o.nextUserRef := fun he =>
        hfresh (mem_inUse.mpr (.inl ⟨by rw [hlive]; decide, he⟩))
      exact ⟨by simp, by simp [hpos], by simpa [inUse] using hne⟩

/-- After a request a slot uses no references but those that it used and the one it drew. -/
theorem Requests.subset (h : Requests o s sym side want price qty s' out) :
    ∀ u ∈ s'.inUse, u ∈ s.inUse ∨ u ∈ out.flatMap Outbound.newRefs := by
  intro u hu
  cases h with
  | rest => exact .inl hu
  | enter => exact .inr hu
  | cancel hlive =>
      have hu' : u = s.userRef := by simpa [inUse] using hu
      exact .inl (mem_inUse.mpr (.inl ⟨by rw [hlive]; decide, hu'.symm⟩))
  | replace hlive =>
      have hu' : u = s.userRef ∨ u = o.nextUserRef := by simpa [inUse] using hu
      refine hu'.imp (fun he => mem_inUse.mpr (.inl ⟨by rw [hlive]; decide, he.symm⟩)) ?_
      rintro rfl
      exact List.mem_singleton_self _

/-- A request acts on the slot that it was made for. -/
theorem Requests.actsOn (h : Requests o s sym side want price qty s' out) :
    ∀ x ∈ out, ActsOn s s' x.msg := by
  intro x hx
  cases h with
  | rest => cases hx
  | enter hidle =>
      obtain rfl := List.mem_singleton.mp hx
      exact ⟨hidle, rfl, rfl⟩
  | cancel hlive =>
      obtain rfl := List.mem_singleton.mp hx
      exact ⟨hlive, rfl, rfl⟩
  | replace hlive =>
      obtain rfl := List.mem_singleton.mp hx
      exact ⟨hlive, rfl, rfl⟩

/-- One side keeps the invariant while there are references left. -/
theorem RefsSound.reconcileSide (h : RefsSound first issued o)
    (hfew : (issued ++ (o.reconcileSide sym side want price qty).2.flatMap Outbound.newRefs).length ≤
      2 ^ 32 - 1) :
    RefsSound first (issued ++ (o.reconcileSide sym side want price qty).2.flatMap Outbound.newRefs)
      (o.reconcileSide sym side want price qty).1 := by
  have hdraws := reconcileSide_draws o sym side want price qty
  have hreq := reconcileSide_requests o sym side want price qty
  have hslots : (∀ u ∈ (o.reconcileSide sym side want price qty).2.flatMap Outbound.newRefs,
      u ≠ 0 ∧ u ∉ issued) →
      SlotsSound (issued ++ (o.reconcileSide sym side want price qty).2.flatMap Outbound.newRefs)
        (o.reconcileSide sym side want price qty).1 := fun hfresh =>
    h.slots.update (p := (sym, side)) (fun q hq => reconcileSide_slots_of_ne hq o want price qty)
      (hreq.proper (h.slots.proper (sym, side)) fun u hu =>
        ⟨(hfresh u hu).1, fun hold => (hfresh u hu).2 (h.slots.used (sym, side) u hold)⟩)
      hreq.subset fun u hu => (hfresh u hu).2
  rcases hdraws with ⟨hnone, hnext, -⟩ | ⟨hone, hnext, -⟩
  · rw [hnone, List.append_nil] at hslots ⊢
    exact ⟨h.drawn, hnext.trans h.next, hslots (by simp)⟩
  · rw [hone] at hslots hfew ⊢
    have hlen : issued.length < 2 ^ 32 - 1 := by
      rw [List.length_append, List.length_singleton] at hfew
      omega
    have hfresh : o.nextUserRef ≠ 0 ∧ o.nextUserRef ∉ issued := by
      rw [h.next, h.drawn]
      simp only [refsUpTo, List.length_map, List.length_range]
      exact ⟨Nat.pos_iff_ne_zero.mp (refAt_pos _ _), refAt_notMem hlen⟩
    refine ⟨?_, ?_, hslots (by simpa using hfresh)⟩
    · rw [List.length_append, List.length_singleton, refsUpTo_succ, ← h.drawn, ← h.next]
    · rw [hnext, List.length_append, List.length_singleton, refAt_succ, ← h.next]
      rfl

theorem RefsSound.reconcileFor (h : RefsSound first issued o) (t : QuoteTargets) (side : Side)
    (hfew : (issued ++ (o.reconcileFor sym t side).2.flatMap Outbound.newRefs).length ≤ 2 ^ 32 - 1) :
    RefsSound first (issued ++ (o.reconcileFor sym t side).2.flatMap Outbound.newRefs)
      (o.reconcileFor sym t side).1 := by
  cases side with
  | buy => exact h.reconcileSide hfew
  | sell => exact h.reconcileSide hfew

/-- A call of `reconcile` keeps the invariant while there are references left. -/
theorem RefsSound.reconcile (h : RefsSound first issued o) (t : QuoteTargets)
    (hfew : (issued ++ (o.reconcile sym t).2.flatMap Outbound.newRefs).length ≤ 2 ^ 32 - 1) :
    RefsSound first (issued ++ (o.reconcile sym t).2.flatMap Outbound.newRefs) (o.reconcile sym t).1 := by
  rw [reconcile_eq] at hfew ⊢
  simp only [List.flatMap_append, ← List.append_assoc] at hfew ⊢
  have hfirst : RefsSound first (issued ++ (o.reconcileFor sym t (o.firstSide sym t)).2.flatMap _) _ :=
    h.reconcileFor t (o.firstSide sym t) (by rw [List.length_append] at hfew; omega)
  exact hfirst.reconcileFor t (o.firstSide sym t).opposite hfew

/-- Every request acts on the slot that it was made for. -/
theorem reconcile_actsOn (o : OrderManager) (sym : ℕ) (t : QuoteTargets) :
    ∀ x ∈ (o.reconcile sym t).2,
      ∃ side, ActsOn (o.slots sym side) ((o.reconcile sym t).1.slots sym side) x.msg := by
  have hside : ∀ (o : OrderManager) side, ∀ x ∈ (o.reconcileFor sym t side).2,
      ActsOn (o.slots sym side) ((o.reconcileFor sym t side).1.slots sym side) x.msg := by
    intro o side
    cases side
    · exact (reconcileSide_requests ..).actsOn
    · exact (reconcileSide_requests ..).actsOn
  have hne : (sym, o.firstSide sym t) ≠ (sym, (o.firstSide sym t).opposite) := fun he =>
    Side.ne_opposite _ (Prod.ext_iff.mp he).2
  rw [reconcile_eq]
  intro x hx
  simp only at hx ⊢
  rcases List.mem_append.mp hx with hfirst | hsecond
  · refine ⟨o.firstSide sym t, ?_⟩
    rw [reconcileFor_slots_of_ne hne]
    exact hside o _ x hfirst
  · refine ⟨(o.firstSide sym t).opposite, ?_⟩
    rw [← reconcileFor_slots_of_ne hne.symm o t]
    exact hside _ _ x hsecond

/-! ### Answers -/

/-- What an answer leaves alone, and what it makes of the slots. -/
structure AnswerMoves (o o' : OrderManager) : Prop where
  symbols : o'.symbols = o.symbols
  next : o'.nextUserRef = o.nextUserRef
  refs : o'.refs = o.refs
  slots : o'.slots = o.slots ∨ ∃ p : ℕ × Side,
    (∀ q, q ≠ p → o'.slots q.1 q.2 = o.slots q.1 q.2) ∧ Answered (o.slots p.1 p.2) (o'.slots p.1 p.2)

/-- An answer that changes one slot. -/
theorem AnswerMoves.of_setSlot {base : OrderManager} {p : ℕ × Side} (hslots : base.slots = o.slots)
    (h : Answered (o.slots p.1 p.2) s) (hsymbols : base.symbols = o.symbols)
    (hnext : base.nextUserRef = o.nextUserRef) (hrefs : base.refs = o.refs) :
    AnswerMoves o (base.setSlot p.1 p.2 s) where
  symbols := hsymbols
  next := hnext
  refs := hrefs
  slots := .inr ⟨p, fun q hq => by rw [setSlot_slots_of_ne hq, hslots], by rwa [setSlot_slots_self]⟩

theorem onAccepted_moves (o : OrderManager) (r : Ouch.Accepted) : AnswerMoves o (o.onAccepted r) := by
  unfold onAccepted
  split
  · exact ⟨rfl, rfl, rfl, .inl rfl⟩
  · cases hf : o.slotByRef r.userRefNum with
    | none => exact ⟨rfl, rfl, rfl, .inl rfl⟩
    | some p =>
        simp only
        split_ifs with hstate hdead
        · exact ⟨rfl, rfl, rfl, .inl rfl⟩
        · exact .of_setSlot rfl .ended rfl rfl rfl
        · have hnew : (o.slots p.1 p.2).state = .pendingNew := not_not.mp hstate
          exact .of_setSlot rfl (.goesOn (by rw [hnew]; decide) (by simp) (by simp [hnew]) rfl rfl) rfl rfl rfl

theorem onReplaced_moves (o : OrderManager) (r : Ouch.Replaced) : AnswerMoves o (o.onReplaced r) := by
  unfold onReplaced
  cases hf : o.slotByPending r.userRefNum with
  | none => exact ⟨rfl, rfl, rfl, .inl rfl⟩
  | some p =>
      have hwaits := awaits_of_slotByPending hf
      simp only
      split_ifs with hdead
      · exact .of_setSlot rfl .ended rfl rfl rfl
      · exact .of_setSlot rfl (.replaceOver hwaits.1 rfl (.inr hwaits.2.symm) rfl) rfl rfl rfl

theorem onExecuted_moves (o : OrderManager) (r : Ouch.Executed) : AnswerMoves o (o.onExecuted r) := by
  unfold onExecuted
  cases hf : o.slotByRef r.userRefNum with
  | none => exact ⟨rfl, rfl, rfl, .inl rfl⟩
  | some p =>
      have hidle := (holds_of_slotByRef hf).1
      simp only
      generalize (if r.quantity ≥ _ then 0 else _ : ℕ) = leaves
      split_ifs with hdone
      · exact .of_setSlot rfl .ended rfl rfl rfl
      · exact .of_setSlot rfl (.goesOn hidle hidle Iff.rfl rfl rfl) rfl rfl rfl

theorem onCanceled_moves (o : OrderManager) (r : Ouch.Canceled) : AnswerMoves o (o.onCanceled r) := by
  unfold onCanceled
  cases hf : o.slotByRef r.userRefNum with
  | none => exact ⟨rfl, rfl, rfl, .inl rfl⟩
  | some p =>
      have hidle := (holds_of_slotByRef hf).1
      simp only
      generalize (if r.quantity ≥ _ then 0 else _ : ℕ) = leaves
      split_ifs with hdone hnew
      · exact .of_setSlot rfl .ended rfl rfl rfl
      · have hpendingNew : (o.slots p.1 p.2).state = .pendingNew := hnew
        exact .of_setSlot rfl (.goesOn hidle (by simp) (by simp [hpendingNew]) rfl rfl) rfl rfl rfl
      · exact .of_setSlot rfl (.goesOn hidle hidle Iff.rfl rfl rfl) rfl rfl rfl

theorem onRejected_moves (o : OrderManager) (r : Ouch.Rejected) : AnswerMoves o (o.onRejected r) := by
  unfold onRejected
  split
  · exact ⟨rfl, rfl, rfl, .inl rfl⟩
  · -- the counters play no part in finding a slot
    have hpending : (o.count fun c => c.reject r.reason).slotByPending r.userRefNum =
        o.slotByPending r.userRefNum := rfl
    have href : (o.count fun c => c.reject r.reason).slotByRef r.userRefNum =
        o.slotByRef r.userRefNum := rfl
    simp only [hpending, href]
    cases hf : o.slotByPending r.userRefNum with
    | some p =>
        have hwaits := (awaits_of_slotByPending hf).1
        simp only
        split_ifs with hleaves
        · exact .of_setSlot rfl (.replaceOver hwaits rfl (.inl rfl) rfl) rfl rfl rfl
        · exact .of_setSlot rfl .ended rfl rfl rfl
    | none =>
        cases hr : o.slotByRef r.userRefNum with
        | none => exact ⟨rfl, rfl, rfl, .inl rfl⟩
        | some p => exact .of_setSlot rfl .ended rfl rfl rfl

theorem onCancelReject_moves (o : OrderManager) (r : Ouch.CancelReject) : AnswerMoves o (o.onCancelReject r) := by
  unfold onCancelReject
  cases hf : o.slotByRef r.userRefNum with
  | none => exact ⟨rfl, rfl, rfl, .inl rfl⟩
  | some p =>
      have hidle := (holds_of_slotByRef hf).1
      simp only
      split_ifs with hstate hleaves
      · exact ⟨rfl, rfl, rfl, .inl rfl⟩
      · have hcancel : (o.slots p.1 p.2).state = .pendingCancel := not_not.mp hstate
        exact .of_setSlot rfl (.goesOn hidle (by simp) (by simp [hcancel]) rfl rfl) rfl rfl rfl
      · exact .of_setSlot rfl .ended rfl rfl rfl

theorem onAck_moves (o : OrderManager) (ouch : List UInt8) : AnswerMoves o (o.onAck ouch) := by
  have hmsg : ∀ (o : OrderManager) (m : Ouch.Out), AnswerMoves o (o.onAckMsg m) := by
    intro o m
    cases m with
    | accepted r => exact onAccepted_moves o r
    | replaced r => exact onReplaced_moves o r
    | canceled r => exact onCanceled_moves o r
    | executed r => exact onExecuted_moves o r
    | rejected r => exact onRejected_moves o r
    | cancelReject r => exact onCancelReject_moves o r
  unfold onAck
  cases Ouch.decodeOut ouch with
  | none => exact ⟨rfl, rfl, rfl, .inl rfl⟩
  | some m =>
      have h := hmsg { o with ackSym := none } m
      exact ⟨h.symbols, h.next, h.refs, h.slots⟩

/-- An answer keeps the invariant, whatever its bytes. -/
theorem RefsSound.onAck (h : RefsSound first issued o) (ouch : List UInt8) :
    RefsSound first issued (o.onAck ouch) := by
  have hmoves := onAck_moves o ouch
  refine ⟨h.drawn, hmoves.next.trans h.next, ?_⟩
  rcases hmoves.slots with hsame | ⟨p, hne, hanswered⟩
  · exact ⟨fun p => hsame ▸ h.slots.proper p, fun p => hsame ▸ h.slots.used p,
      fun p q hpq => hsame ▸ h.slots.apart p q hpq⟩
  · have hslots : SlotsSound (issued ++ []) (o.onAck ouch) :=
      h.slots.update hne (hanswered.proper (h.slots.proper p))
        (fun u hu => .inl (hanswered.subset u hu)) (by simp)
    rwa [List.append_nil] at hslots

/-! ### The ring is a hint -/

theorem mem_positions {p : ℕ × Side} : p ∈ o.positions ↔ p.1 < o.symbolCount := by
  obtain ⟨i, side⟩ := p
  cases side <;> simp [positions]

theorem mem_positions_of_slotByRef {u : ℕ} {p : ℕ × Side} (h : o.slotByRef u = some p) : p ∈ o.positions := by
  unfold slotByRef at h
  simp only at h
  split at h
  · split_ifs at h with hhint
    · obtain rfl := Option.some.inj h
      exact mem_positions.mpr hhint.1
    · exact List.mem_of_find?_eq_some h
  · exact List.mem_of_find?_eq_some h

/-- Two slots do not use one reference. -/
theorem SlotsSound.eq_of_inUse (h : SlotsSound issued o) {u : ℕ} {p q : ℕ × Side}
    (hp : u ∈ (o.slots p.1 p.2).inUse) (hq : u ∈ (o.slots q.1 q.2).inUse) : p = q := by
  by_contra hne
  exact h.apart p q hne hp hq

/-- **The slot of a reference**: the ring and the scan find the one slot that holds it. -/
theorem SlotsSound.slotByRef_eq_some (h : SlotsSound issued o) {u : ℕ} {p : ℕ × Side} :
    o.slotByRef u = some p ↔ p ∈ o.positions ∧ (o.slots p.1 p.2).Holds u := by
  refine ⟨fun hp => ⟨mem_positions_of_slotByRef hp, holds_of_slotByRef hp⟩, fun ⟨hmem, hholds⟩ => ?_⟩
  have hunique : ∀ {q}, o.slotByRef u = some q → q = p := fun hq =>
    h.eq_of_inUse (mem_inUse.mpr (.inl (holds_of_slotByRef hq))) (mem_inUse.mpr (.inl hholds))
  cases hq : o.slotByRef u with
  | some q => rw [hunique hq]
  | none =>
      -- the scan cannot miss it
      have hscan : (o.positions.find? fun p => (o.slots p.1 p.2).Holds u) ≠ none := by
        rw [Ne, List.find?_eq_none]
        exact fun hall => hall p hmem (decide_eq_true hholds)
      unfold slotByRef at hq
      simp only at hq
      split at hq
      · split_ifs at hq
        exact absurd hq hscan
      · exact absurd hq hscan

@[simp] theorem count_acct (o : OrderManager) (f : OmsStats → OmsStats) : (o.count f).acct = o.acct := rfl
@[simp] theorem found_acct (o : OrderManager) (sym : ℕ) : (o.found sym).acct = o.acct := rfl
@[simp] theorem count_slotByRef (o : OrderManager) (f : OmsStats → OmsStats) (u : ℕ) :
    (o.count f).slotByRef u = o.slotByRef u := rfl
@[simp] theorem count_slotByPending (o : OrderManager) (f : OmsStats → OmsStats) (u : ℕ) :
    (o.count f).slotByPending u = o.slotByPending u := rfl

/-- Two order managers with the same slots and accounts, whose last answer was for the same
symbol. -/
structure SameSlots (o o' : OrderManager) : Prop where
  symbols : o'.symbols = o.symbols
  slots : o'.slots = o.slots
  acct : o'.acct = o.acct
  ackSym : o'.ackSym = o.ackSym

namespace SameSlots

theorem setSlot (h : SameSlots o o') (p : ℕ × Side) (s : QuoteSlot) :
    SameSlots (o.setSlot p.1 p.2 s) (o'.setSlot p.1 p.2 s) := by
  refine ⟨h.symbols, ?_, h.acct, h.ackSym⟩
  unfold OrderManager.setSlot
  simp only [h.slots]

theorem count (h : SameSlots o o') (f f' : OmsStats → OmsStats) : SameSlots (o.count f) (o'.count f') :=
  ⟨h.symbols, h.slots, h.acct, h.ackSym⟩

theorem found (h : SameSlots o o') (sym : ℕ) : SameSlots (o.found sym) (o'.found sym) :=
  ⟨h.symbols, h.slots, h.acct, rfl⟩

theorem ite {a a' b b' : OrderManager} {c c' : Prop} [Decidable c] [Decidable c'] (hc : c ↔ c')
    (ha : SameSlots a a') (hb : SameSlots b b') :
    SameSlots (if c then a else b) (if c' then a' else b') := by
  by_cases h : c
  · rwa [if_pos h, if_pos (hc.mp h)]
  · rwa [if_neg h, if_neg (mt hc.mpr h)]

theorem slotsSound (h : SameSlots o o') (hs : SlotsSound issued o) : SlotsSound issued o' :=
  ⟨fun p => h.slots ▸ hs.proper p, fun p => h.slots ▸ hs.used p, fun p q hpq => h.slots ▸ hs.apart p q hpq⟩

theorem slotByRef (h : SameSlots o o') (hs : SlotsSound issued o) (u : ℕ) : o'.slotByRef u = o.slotByRef u := by
  refine Option.ext fun p => ?_
  rw [hs.slotByRef_eq_some, (h.slotsSound hs).slotByRef_eq_some,
    mem_positions, mem_positions, symbolCount, symbolCount, h.symbols, h.slots]

theorem slotByPending (h : SameSlots o o') (u : ℕ) : o'.slotByPending u = o.slotByPending u := by
  unfold OrderManager.slotByPending positions symbolCount
  rw [h.symbols, h.slots]

end SameSlots

/-- The order manager with other contents of the ring. -/
def withRing (o : OrderManager) (refs : ℕ → RefSide) : OrderManager := { o with refs := refs }

/-- The ring marks no reference as one of a test order. -/
def NoTests (o : OrderManager) : Prop := ∀ i, (o.refs i).sym ≠ kTestSym

theorem NoTests.reconcileSide (h : o.NoTests) (hsym : sym < kTestSym) :
    (o.reconcileSide sym side want price qty).1.NoTests := by
  intro i
  rcases reconcileSide_draws o sym side want price qty with ⟨-, -, hrefs⟩ | ⟨-, -, hrefs⟩
  · rw [hrefs]
    exact h i
  · rw [hrefs]
    by_cases hi : i = o.nextUserRef % kRefRing
    · subst hi
      simp only [allocRef, Function.update_self]
      unfold kTestSym at hsym ⊢
      omega
    · simp only [allocRef, Function.update_of_ne hi]
      exact h i

theorem NoTests.reconcile (h : o.NoTests) (hsym : sym < kTestSym) (t : QuoteTargets) :
    (o.reconcile sym t).1.NoTests := by
  have hside : ∀ {o : OrderManager}, o.NoTests → ∀ side, (o.reconcileFor sym t side).1.NoTests := by
    intro o ho side
    cases side
    · exact ho.reconcileSide hsym
    · exact ho.reconcileSide hsym
  rw [reconcile_eq]
  exact hside (hside h _) _

/-- The ring marks no reference in use as one of a test order. -/
def TestsApart (o : OrderManager) : Prop :=
  ∀ i, (o.refs i).sym = kTestSym → ∀ p : ℕ × Side, (o.refs i).userRef ∉ (o.slots p.1 p.2).inUse

/-- No slot holds the reference of a test order. -/
theorem slotByRef_of_isTestRef (h : o.TestsApart) {u : ℕ} (ht : o.isTestRef u = true) : o.slotByRef u = none := by
  obtain ⟨hu, hsym⟩ : (o.refs (u % kRefRing)).userRef = u ∧ (o.refs (u % kRefRing)).sym = kTestSym := by
    simpa [isTestRef] using ht
  by_contra hsome
  obtain ⟨p, hp⟩ := Option.ne_none_iff_exists'.mp hsome
  exact h _ hsym p (hu.symm ▸ mem_inUse.mpr (.inl (holds_of_slotByRef hp)))

theorem slotByPending_of_isTestRef (h : o.TestsApart) {u : ℕ} (ht : o.isTestRef u = true) :
    o.slotByPending u = none := by
  obtain ⟨hu, hsym⟩ : (o.refs (u % kRefRing)).userRef = u ∧ (o.refs (u % kRefRing)).sym = kTestSym := by
    simpa [isTestRef] using ht
  by_contra hsome
  obtain ⟨p, hp⟩ := Option.ne_none_iff_exists'.mp hsome
  exact h _ hsym p (hu.symm ▸ mem_inUse.mpr (.inr (awaits_of_slotByPending hp)))

section Hint

variable (h : SameSlots o o') (hs : SlotsSound issued o) (ht : o.TestsApart) (ht' : o'.TestsApart)

include h hs ht ht'

/-- The slot that an answer to a new order is for is no test order's, so the ring does not
keep the answer from it. -/
theorem onAccepted_sameSlots (r : Ouch.Accepted) : SameSlots (o.onAccepted r) (o'.onAccepted r) := by
  have htest : o.isTestRef r.userRefNum = true → o.slotByRef r.userRefNum = none := slotByRef_of_isTestRef ht
  have htest' : o'.isTestRef r.userRefNum = true → o.slotByRef r.userRefNum = none := fun h' =>
    h.slotByRef hs r.userRefNum ▸ slotByRef_of_isTestRef ht' h'
  unfold onAccepted
  rw [h.slotByRef hs]
  cases hf : o.slotByRef r.userRefNum with
  | none => split_ifs <;> exact h.count _ _
  | some p =>
      rw [hf] at htest htest'
      rw [if_neg (fun h => nomatch htest h), if_neg (fun h => nomatch htest' h)]
      simp only [found_slots, h.slots]
      refine .ite Iff.rfl ((h.found p.1).count _ _) (.ite Iff.rfl ?_ ?_)
      · exact ((h.found p.1).count _ _).setSlot p _
      · exact ((h.found p.1).count _ _).setSlot p _

theorem onRejected_sameSlots (r : Ouch.Rejected) : SameSlots (o.onRejected r) (o'.onRejected r) := by
  have htest : o.isTestRef r.userRefNum = true →
      o.slotByPending r.userRefNum = none ∧ o.slotByRef r.userRefNum = none := fun h' =>
    ⟨slotByPending_of_isTestRef ht h', slotByRef_of_isTestRef ht h'⟩
  have htest' : o'.isTestRef r.userRefNum = true →
      o.slotByPending r.userRefNum = none ∧ o.slotByRef r.userRefNum = none := fun h' =>
    ⟨h.slotByPending r.userRefNum ▸ slotByPending_of_isTestRef ht' h',
      h.slotByRef hs r.userRefNum ▸ slotByRef_of_isTestRef ht' h'⟩
  have hcount := h.count (fun c => c.reject r.reason) fun c => c.reject r.reason
  unfold onRejected
  simp only [count_slotByPending, count_slotByRef, h.slotByPending, h.slotByRef hs]
  cases hp : o.slotByPending r.userRefNum with
  | some p =>
      rw [hp] at htest htest'
      rw [if_neg (fun h => nomatch (htest h).1), if_neg (fun h => nomatch (htest' h).1)]
      simp only [count_slots, h.slots]
      exact .ite Iff.rfl (hcount.setSlot p _) (hcount.setSlot p _)
  | none =>
      cases hr : o.slotByRef r.userRefNum with
      | none => split_ifs <;> exact ⟨h.symbols, h.slots, h.acct, h.ackSym⟩
      | some p =>
          rw [hr] at htest htest'
          rw [if_neg (fun h => nomatch (htest h).2), if_neg (fun h => nomatch (htest' h).2)]
          exact (hcount.found p.1).setSlot p _

end Hint

theorem onReplaced_sameSlots (h : SameSlots o o') (r : Ouch.Replaced) :
    SameSlots (o.onReplaced r) (o'.onReplaced r) := by
  unfold onReplaced
  rw [h.slotByPending]
  cases o.slotByPending r.userRefNum with
  | none => exact h.count _ _
  | some p => exact .ite Iff.rfl ((h.count _ _).setSlot p _) ((h.count _ _).setSlot p _)

theorem onExecuted_sameSlots (h : SameSlots o o') (hs : SlotsSound issued o) (r : Ouch.Executed) :
    SameSlots (o.onExecuted r) (o'.onExecuted r) := by
  unfold onExecuted
  rw [h.slotByRef hs]
  cases o.slotByRef r.userRefNum with
  | none => exact h.count _ _
  | some p =>
      have hacct : ∀ a : Account, Function.update o'.acct p.1 a = Function.update o.acct p.1 a := fun a => by
        rw [h.acct]
      simp only [found_slots, count_slots, found_acct, count_acct, h.slots]
      rw [show o'.acct p.1 = o.acct p.1 by rw [h.acct]]
      refine .ite Iff.rfl (.setSlot ?_ p _) (.setSlot ?_ p _)
      all_goals exact ⟨h.symbols, rfl, hacct _, rfl⟩

theorem onCanceled_sameSlots (h : SameSlots o o') (hs : SlotsSound issued o) (r : Ouch.Canceled) :
    SameSlots (o.onCanceled r) (o'.onCanceled r) := by
  unfold onCanceled
  rw [h.slotByRef hs]
  cases o.slotByRef r.userRefNum with
  | none => exact h.count _ _
  | some p =>
      simp only [found_slots, h.slots]
      exact .ite Iff.rfl ((h.found p.1).setSlot p _) ((h.found p.1).setSlot p _)

theorem onCancelReject_sameSlots (h : SameSlots o o') (hs : SlotsSound issued o) (r : Ouch.CancelReject) :
    SameSlots (o.onCancelReject r) (o'.onCancelReject r) := by
  unfold onCancelReject
  rw [h.slotByRef hs]
  cases o.slotByRef r.userRefNum with
  | none => exact h.count _ _
  | some p =>
      simp only [found_slots, h.slots]
      refine .ite Iff.rfl ((h.found p.1).count _ _) (.ite Iff.rfl ?_ ?_)
      · exact (h.found p.1).setSlot p _
      · exact (h.found p.1).setSlot p _

/-- **The ring plays no part**: with sound slots an answer does the same to slots and accounts
under every ring that marks no reference in use as one of a test order. -/
theorem onAck_sameSlots (h : SameSlots o o') (hs : SlotsSound issued o) (ht : o.TestsApart)
    (ht' : o'.TestsApart) (ouch : List UInt8) : SameSlots (o.onAck ouch) (o'.onAck ouch) := by
  have h0 : SameSlots { o with ackSym := none } { o' with ackSym := none } :=
    ⟨h.symbols, h.slots, h.acct, rfl⟩
  have hs0 : SlotsSound issued { o with ackSym := none } := ⟨hs.proper, hs.used, hs.apart⟩
  unfold onAck
  cases Ouch.decodeOut ouch with
  | none => exact h0
  | some m =>
      cases m with
      | accepted r => exact onAccepted_sameSlots h0 hs0 ht ht' r
      | replaced r => exact onReplaced_sameSlots h0 r
      | canceled r => exact onCanceled_sameSlots h0 hs0 r
      | executed r => exact onExecuted_sameSlots h0 hs0 r
      | rejected r => exact onRejected_sameSlots h0 hs0 ht ht' r
      | cancelReject r => exact onCancelReject_sameSlots h0 hs0 r

/-! ### Runs -/

/-- A call of the order manager. -/
inductive Call where
  | reconcile (sym : ℕ) (t : QuoteTargets)
  | ack (ouch : List UInt8)

/-- The order manager, and the requests that it has sent. -/
structure Traced where
  oms : OrderManager
  sent : List Outbound := []

namespace Traced

/-- Make a call. -/
def call (w : Traced) : Call → Traced
  | .reconcile sym t => ⟨(w.oms.reconcile sym t).1, w.sent ++ (w.oms.reconcile sym t).2⟩
  | .ack ouch => { w with oms := w.oms.onAck ouch }

/-- The references issued, in the order of the requests that carry them. -/
def issuedRefs (w : Traced) : List ℕ := w.sent.flatMap Outbound.newRefs

theorem issued_prefix (w : Traced) (c : Call) : w.issuedRefs <+: (w.call c).issuedRefs := by
  cases c with
  | reconcile sym t => exact ⟨(w.oms.reconcile sym t).2.flatMap Outbound.newRefs, by simp [issuedRefs, call]⟩
  | ack ouch => exact List.prefix_refl _

end Traced

/-- An order manager after a list of calls. -/
def trace (cfg : OmsConfig) (calls : List Call) : Traced := calls.foldl Traced.call ⟨new cfg, []⟩

theorem issued_grows (calls : List Call) (w : Traced) : w.issuedRefs <+: (calls.foldl Traced.call w).issuedRefs := by
  induction calls generalizing w with
  | nil => exact List.prefix_refl _
  | cons c calls ih => exact (w.issued_prefix c).trans (ih _)

theorem trace_refsSound {cfg : OmsConfig} (h : 1 ≤ cfg.firstUserRef) (h' : cfg.firstUserRef < 2 ^ 32)
    (calls : List Call) (hfew : (trace cfg calls).issuedRefs.length ≤ 2 ^ 32 - 1) :
    RefsSound cfg.firstUserRef (trace cfg calls).issuedRefs (trace cfg calls).oms := by
  have hrun : ∀ (calls : List Call) (w : Traced), RefsSound cfg.firstUserRef w.issuedRefs w.oms →
      (calls.foldl Traced.call w).issuedRefs.length ≤ 2 ^ 32 - 1 →
      RefsSound cfg.firstUserRef (calls.foldl Traced.call w).issuedRefs (calls.foldl Traced.call w).oms := by
    intro calls
    induction calls with
    | nil => exact fun w hw _ => hw
    | cons c calls ih =>
        intro w hw hlen
        refine ih _ ?_ hlen
        have hstep : (w.call c).issuedRefs.length ≤ 2 ^ 32 - 1 :=
          Nat.le_trans (issued_grows calls (w.call c)).length_le hlen
        cases c with
        | ack ouch => exact hw.onAck ouch
        | reconcile sym t =>
            have hissued : (w.call (.reconcile sym t)).issuedRefs =
                w.issuedRefs ++ (w.oms.reconcile sym t).2.flatMap Outbound.newRefs := List.flatMap_append
            rw [hissued] at hstep ⊢
            exact hw.reconcile t hstep
  exact hrun calls _ (refsSound_new h h') hfew

theorem trace_noTests {cfg : OmsConfig} (calls : List Call)
    (hcalls : ∀ sym t, Call.reconcile sym t ∈ calls → sym < kTestSym) : (trace cfg calls).oms.NoTests := by
  have hrun : ∀ (calls : List Call) (w : Traced),
      (∀ sym t, Call.reconcile sym t ∈ calls → sym < kTestSym) → w.oms.NoTests →
      (calls.foldl Traced.call w).oms.NoTests := by
    intro calls
    induction calls with
    | nil => exact fun w _ hw => hw
    | cons c calls ih =>
        intro w hin hw
        refine ih _ (fun sym t hc => hin sym t (List.mem_cons_of_mem _ hc)) ?_
        cases c with
        | ack ouch => exact fun i => (onAck_moves w.oms ouch).refs ▸ hw i
        | reconcile sym t => exact hw.reconcile (hin sym t List.mem_cons_self) t
  exact hrun calls _ hcalls fun i => by simp [new, kTestSym]

/-- The references of a walk over the slots are all different. -/
theorem SlotsSound.nodup_walk (h : SlotsSound issued o) :
    (o.positions.flatMap fun p => (o.slots p.1 p.2).inUse).Nodup := by
  rw [List.nodup_flatMap]
  refine ⟨fun p _ => (h.proper p).nodup, ?_⟩
  have hpositions : o.positions.Nodup := by
    unfold positions
    rw [List.nodup_flatMap]
    refine ⟨fun i _ => by simp, List.nodup_range.imp fun {i j} hij p hi hj => hij ?_⟩
    have hpi : p.1 = i := by rcases List.mem_pair.mp hi with rfl | rfl <;> rfl
    have hpj : p.1 = j := by rcases List.mem_pair.mp hj with rfl | rfl <;> rfl
    exact hpi.symm.trans hpj
  exact hpositions.imp fun {p q} hpq => h.apart p q hpq

/-- **The slots and their references**: after any calls of `reconcile` and any answers a free
slot is blank, a slot has a pending reference just when it waits for a replace, the
references in use are all different, no request drew a reference twice, and every request
that comes next acts on the slot that it is for. With at most 65535 symbols an answer does
the same to the slots whatever the ring has for the references of quotes. -/
theorem slots_sound (cfg : OmsConfig) (h : 1 ≤ cfg.firstUserRef) (h' : cfg.firstUserRef < 2 ^ 32)
    (calls : List Call) (hcalls : ∀ sym t, Call.reconcile sym t ∈ calls → sym < (new cfg).symbolCount)
    (hfew : (trace cfg calls).issuedRefs.length < 2 ^ 32 - 1) :
    let w := trace cfg calls
    (∀ sym side, (w.oms.slots sym side).state = .idle → w.oms.slots sym side = {}) ∧
      (∀ sym side, (w.oms.slots sym side).pendingRef ≠ 0 ↔ (w.oms.slots sym side).state = .pendingReplace) ∧
      (w.oms.positions.flatMap fun p => (w.oms.slots p.1 p.2).inUse).Nodup ∧
      w.issuedRefs.Nodup ∧
      (∀ sym t, ∀ x ∈ (w.oms.reconcile sym t).2,
        ∃ side, ActsOn (w.oms.slots sym side) ((w.oms.reconcile sym t).1.slots sym side) x.msg) ∧
      (cfg.symbols.length ≤ 65535 → ∀ refs : ℕ → RefSide,
        (∀ i, (refs i).sym = kTestSym → ∀ sym side, (refs i).userRef ∉ (w.oms.slots sym side).inUse) →
        ∀ ouch, SameSlots (w.oms.onAck ouch) ((w.oms.withRing refs).onAck ouch)) := by
  have hsound := trace_refsSound h h' calls (Nat.le_of_lt hfew)
  refine ⟨fun sym side => (hsound.slots.proper (sym, side)).idle,
    fun sym side => (hsound.slots.proper (sym, side)).pending, hsound.slots.nodup_walk,
    hsound.drawn ▸ nodup_refsUpTo (Nat.le_of_lt hfew), fun sym t => reconcile_actsOn _ sym t, ?_⟩
  intro hsymbols refs hrefs ouch
  have hcount : (new cfg).symbolCount ≤ kTestSym := by
    by_cases hnil : cfg.symbols = []
    · simp [symbolCount, new, hnil, kTestSym]
    · simpa [symbolCount, new, hnil, kTestSym] using hsymbols
  have hnone : (trace cfg calls).oms.NoTests :=
    trace_noTests calls fun sym t hc => Nat.lt_of_lt_of_le (hcalls sym t hc) hcount
  have hapart : ((trace cfg calls).oms.withRing refs).TestsApart :=
    fun i hi p => hrefs i hi p.1 p.2
  have hsame : SameSlots (trace cfg calls).oms ((trace cfg calls).oms.withRing refs) := ⟨rfl, rfl, rfl, rfl⟩
  exact onAck_sameSlots hsame hsound.slots (fun i hi => absurd hi (hnone i)) hapart ouch

/-- The answer that accepts the order with reference `1`. -/
def sampleAccepted : List UInt8 :=
  [65, 0, 0, 0, 0, 0, 0, 0, 0, 0, 0, 0, 1, 66, 0, 0, 0, 5] ++ List.replicate 29 0 ++ [76] ++ List.replicate 16 0

/-- A bid to quote. -/
def sampleQuote : QuoteTargets := { quoteBid := true, bidPrice := 100, bidQty := 5 }

/-- A bid is made, accepted and replaced. -/
def sampleCalls : List Call :=
  [.reconcile 0 sampleQuote, .ack sampleAccepted, .reconcile 0 { sampleQuote with bidPrice := 101 }]

theorem slots_sound_sample :
    let w := trace { symbols := [[65]] } sampleCalls
    (∀ sym side, (w.oms.slots sym side).state = .idle → w.oms.slots sym side = {}) ∧
      (∀ sym side, (w.oms.slots sym side).pendingRef ≠ 0 ↔ (w.oms.slots sym side).state = .pendingReplace) ∧
      (w.oms.positions.flatMap fun p => (w.oms.slots p.1 p.2).inUse).Nodup ∧
      w.issuedRefs.Nodup ∧
      (∀ sym t, ∀ x ∈ (w.oms.reconcile sym t).2,
        ∃ side, ActsOn (w.oms.slots sym side) ((w.oms.reconcile sym t).1.slots sym side) x.msg) ∧
      ([[65]].length ≤ 65535 → ∀ refs : ℕ → RefSide,
        (∀ i, (refs i).sym = kTestSym → ∀ sym side, (refs i).userRef ∉ (w.oms.slots sym side).inUse) →
        ∀ ouch, SameSlots (w.oms.onAck ouch) ((w.oms.withRing refs).onAck ouch)) :=
  slots_sound { symbols := [[65]] } (by decide) (by decide) sampleCalls
    (fun sym t hc => by
      have hsym : sym = 0 := by rcases hc with _ | ⟨_, _ | ⟨_, _ | ⟨_, hc⟩⟩⟩ <;> first | rfl | cases hc
      rw [hsym]
      decide)
    (by decide +kernel)

/-- The acceptance of a new order makes its slot live, unless it counts as a test order's. -/
theorem onAck_accepted_live {ouch : List UInt8} {r : Ouch.Accepted} (hdec : Ouch.decodeOut ouch = some (.accepted r))
    (hr : r.orderState ≠ .dead) (ht : o.isTestRef r.userRefNum = false)
    (hp : o.slotByRef r.userRefNum = some (sym, side)) (hs : (o.slots sym side).state = .pendingNew) :
    ((o.onAck ouch).slots sym side).state = .live := by
  have ht' : ({ o with ackSym := none } : OrderManager).isTestRef r.userRefNum = false := ht
  have hp' : ({ o with ackSym := none } : OrderManager).slotByRef r.userRefNum = some (sym, side) := hp
  unfold onAck
  rw [hdec]
  simp only [onAckMsg, onAccepted, ht', hp']
  simp [hs, hr]

/-- One symbol too many. -/
def wideConfig : OmsConfig := { symbols := List.replicate (65535 + 1) [] }

theorem symbolCount_replicate (n : ℕ) : (new { symbols := List.replicate (n + 1) [] }).symbolCount = n + 1 := by
  simp [symbolCount, new, List.replicate_succ]

/-- A bid was made for the last symbol. -/
def wideCalls : List Call := [.reconcile 65535 sampleQuote]

/-- The ring after a reference for another symbol has taken the place. -/
def evictedRing : ℕ → RefSide := Function.update (trace wideConfig wideCalls).oms.refs 1 ⟨4097, 0, .buy⟩

theorem slotsSound_wide : SlotsSound [1] (trace wideConfig wideCalls).oms := by
  have hissued : (trace wideConfig wideCalls).issuedRefs = [1] := by decide +kernel
  have hsound : RefsSound 1 (trace wideConfig wideCalls).issuedRefs (trace wideConfig wideCalls).oms :=
    trace_refsSound (by decide : 1 ≤ wideConfig.firstUserRef) (by decide) wideCalls (by rw [hissued]; decide)
  exact hissued ▸ hsound.slots

/-- While the ring has the reference, its acceptance counts as that of a test order. -/
theorem onAck_wide :
    (((trace wideConfig wideCalls).oms.onAck sampleAccepted).slots 65535 .buy).state = .pendingNew := by
  decide +kernel

/-- When the ring has lost the reference, its acceptance finds the slot. -/
theorem onAck_evicted :
    ((((trace wideConfig wideCalls).oms.withRing evictedRing).onAck sampleAccepted).slots 65535 .buy).state =
      .live := by
  have hslots : SlotsSound [1] ((trace wideConfig wideCalls).oms.withRing evictedRing) :=
    ⟨slotsSound_wide.proper, slotsSound_wide.used, slotsSound_wide.apart⟩
  have hsymbols : (trace wideConfig wideCalls).oms.symbols = (new wideConfig).symbols :=
    (reconcile_sameBooks (new wideConfig) 65535 sampleQuote).symbols
  have hcount : (trace wideConfig wideCalls).oms.symbols.length = 65536 := by
    rw [hsymbols]
    exact symbolCount_replicate 65535
  have hmem : (65535, Side.buy) ∈
      ((trace wideConfig wideCalls).oms.withRing evictedRing).positions :=
    mem_positions.mpr (Nat.lt_of_lt_of_eq (by decide) hcount.symm)
  have hfind := hslots.slotByRef_eq_some.mpr ⟨hmem, (by decide +kernel : QuoteSlot.Holds _ 1)⟩
  have hdec : Ouch.decodeOut sampleAccepted = some (.accepted ⟨1, .buy, 5, 0, 0, .live⟩) := by decide
  exact onAck_accepted_live hdec (by decide) (by decide +kernel) hfind (by decide +kernel)

/-- With 65536 symbols the last one's references look like those of test orders: the answer
that accepts a quote of it is ignored, until another reference takes the place in the
ring. -/
theorem test_symbol_in_ring :
    ¬ ∀ (cfg : OmsConfig), 1 ≤ cfg.firstUserRef → cfg.firstUserRef < 2 ^ 32 →
      ∀ calls : List Call, (∀ sym t, Call.reconcile sym t ∈ calls → sym < (new cfg).symbolCount) →
      (trace cfg calls).issuedRefs.length < 2 ^ 32 - 1 →
      ∀ refs : ℕ → RefSide,
        (∀ i, refs i = (trace cfg calls).oms.refs i ∨
          (refs i).sym ≠ kTestSym ∧ ∀ sym side, (refs i).userRef ∉ ((trace cfg calls).oms.slots sym side).inUse) →
        ∀ ouch, SameSlots ((trace cfg calls).oms.onAck ouch)
          (((trace cfg calls).oms.withRing refs).onAck ouch) := by
  intro hall
  have hcalls : ∀ sym t, Call.reconcile sym t ∈ wideCalls → sym < (new wideConfig).symbolCount := by
    intro sym t hc
    have hsym : sym = 65535 := by
      obtain ⟨rfl, -⟩ := Call.reconcile.inj (List.mem_singleton.mp hc)
      rfl
    rw [hsym]
    exact Nat.lt_of_lt_of_eq (by decide) (symbolCount_replicate 65535).symm
  have hevicted : ∀ i, evictedRing i = (trace wideConfig wideCalls).oms.refs i ∨
      (evictedRing i).sym ≠ kTestSym ∧
        ∀ sym side, (evictedRing i).userRef ∉ ((trace wideConfig wideCalls).oms.slots sym side).inUse := by
    intro i
    by_cases hi : i = 1
    · subst hi
      refine .inr ⟨by simp [evictedRing, kTestSym], fun sym side hu => ?_⟩
      have hone := slotsSound_wide.used (sym, side) _ hu
      simp [evictedRing] at hone
    · exact .inl (Function.update_of_ne hi _ _)
  have hsame := hall wideConfig (by decide) (by decide) wideCalls hcalls (by decide +kernel) evictedRing hevicted
    sampleAccepted
  have hlive := onAck_evicted
  rw [hsame.slots, onAck_wide] at hlive
  cases hlive

end OrderManager

end TickToTrade.Dut
