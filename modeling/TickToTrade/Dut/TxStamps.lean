import Mathlib.Algebra.GroupWithZero.Nat
import Mathlib.Data.List.Basic
import Mathlib.Logic.Function.Basic
import TickToTrade.Util.Unwinding

/-!
# Receive stamps and transmit stamps

The first order of a packet is timed. The stamp of the packet's receipt is kept under the order's
user reference, and when the stamp of the transmission comes, much later and under the number of
the send, the two make a sample. Two tables lead from the one to the other: one from the number to
the reference, one from the reference to the receive stamp, and a later send takes the place of an
earlier one in either of them.

Here the sends are followed one by one (`Watch`). A timed send is held until a later one takes one of
its places, and the samples are those that they should be as long as no stamp comes for a timed send
that is no longer held (`Stamps.Tracks.run`).
-/

namespace TickToTrade.Dut

open Util

/-! ### What the session keeps -/

/-- `kInFlight`. -/
def kInFlight : ℕ := 1024

/-- `kTxRefs`. -/
def kTxRefs : ℕ := 256

/-- `kNoRef`: the reference of no order. -/
def kNoRef : ℕ := 0xFFFFFFFF

/-- `InFlight`, without what other measurements read. -/
structure InFlight where
  userRef : ℕ := 0
  rxStamp : ℕ := 0
  live : Bool := false
deriving DecidableEq, Repr

/-- `TxRef`. -/
structure TxRef where
  seq : ℕ := 0
  userRef : ℕ := kNoRef
deriving DecidableEq, Repr

/-- `packHwStamps`: two stamps of 32 bits. -/
def packHwStamps (rxRaw txMinor : ℕ) : ℕ := rxRaw % 2 ^ 32 * 2 ^ 32 + txMinor

/-- What a session of the transport keeps for its samples. -/
structure Stamps where
  txSeq : ℕ := 0
  txRefs : ℕ → TxRef := fun _ => {}
  inflight : ℕ → InFlight := fun _ => {}
  /-- What was recorded. -/
  samples : List ℕ := []

namespace Stamps

/-- `sendOrder`, with the number that the transport gives the send. -/
def sendOrder (s : Stamps) (seq : ℕ) : Stamps :=
  { s with txSeq := seq, txRefs := Function.update s.txRefs (seq % kTxRefs) ⟨seq, kNoRef⟩ }

/-- `recordSend`. -/
def recordSend (s : Stamps) (userRef rxStamp : ℕ) : Stamps :=
  let ref := s.txRefs (s.txSeq % kTxRefs)
  { s with
    inflight := Function.update s.inflight (userRef % kInFlight) ⟨userRef, rxStamp, true⟩
    txRefs := Function.update s.txRefs (s.txSeq % kTxRefs) { ref with userRef := userRef } }

/-- `completeTx`. -/
def completeTx (s : Stamps) (userRef txMinor : ℕ) : Stamps :=
  let slot := s.inflight (userRef % kInFlight)
  if !slot.live ∨ slot.userRef ≠ userRef then s
  else
    { s with
      inflight := Function.update s.inflight (userRef % kInFlight) { slot with live := false }
      samples := s.samples ++ [packHwStamps slot.rxStamp txMinor] }

/-- The loop body of `drainTxStamps`. -/
def drainTxStamp (s : Stamps) (seq minor : ℕ) : Stamps :=
  let ref := s.txRefs (seq % kTxRefs)
  if ref.seq = seq ∧ ref.userRef ≠ kNoRef then s.completeTx ref.userRef minor else s

end Stamps

/-! ### Sends and stamps -/

/-- What happens to the samples. -/
inductive Deed where
  /-- A send with this number; `some rx` if it is timed, from the receive stamp `rx` on. -/
  | send (key userRef : ℕ) (trigger : Option ℕ)
  /-- The transmit stamp of the send with this number comes. -/
  | stamp (key tx : ℕ)
deriving DecidableEq, Repr

/-- A deed at a session of the transport. -/
def Stamps.step (s : Stamps) : Deed → Stamps
  | .send key userRef (some rx) => (s.sendOrder key).recordSend userRef rx
  | .send key _ none => s.sendOrder key
  | .stamp key tx => s.drainTxStamp key tx

/-- A send. -/
structure Sent where
  key : ℕ
  userRef : ℕ
  trigger : Option ℕ
deriving DecidableEq, Repr

/-- Do two sends have the same reference, up to the places of the table? -/
def Sent.Shares (p q : Sent) : Prop := p.userRef % kInFlight = q.userRef % kInFlight

instance (p q : Sent) : Decidable (p.Shares q) := inferInstanceAs (Decidable (_ = _))

/-- The pairs of stamps that a send should give: those of a timed one. -/
def Sent.pairs (p : Sent) (tx : ℕ) : List (ℕ × ℕ) := p.trigger.toList.map fun rx => (rx, tx)

/-- The sends so far, and the pairs of stamps that should have been recorded. -/
structure Watch where
  /-- All sends, the last one first. -/
  sent : List Sent := []
  /-- The timed ones that have their places and wait for their stamps. -/
  held : List Sent := []
  /-- The receive stamp and the transmit stamp of each timed send whose transmit stamp has come. -/
  due : List (ℕ × ℕ) := []

namespace Watch

/-- The last send with this number. -/
def find (w : Watch) (key : ℕ) : Option Sent := w.sent.find? fun p => p.key = key

theorem find_cons (w : Watch) (q : Sent) (held : List Sent) (key : ℕ) :
    find { w with sent := q :: w.sent, held := held } key = if q.key = key then some q else w.find key := by
  simp only [find, List.find?_cons]
  by_cases h : q.key = key
  · simp [h]
  · simp [h]

/-- A send leaves the places of another one alone: they have numbers with different places and, if this one is timed,
references with different places. -/
def Spares (q p : Sent) : Prop := p.key % kTxRefs ≠ q.key % kTxRefs ∧ (q.trigger ≠ none → ¬ p.Shares q)

instance (q p : Sent) : Decidable (Spares q p) := inferInstanceAs (Decidable (_ ∧ _))

/-- Is a send timed, by a reference that is one? -/
def Timed (q : Sent) : Prop := q.trigger ≠ none ∧ q.userRef ≠ kNoRef

instance (q : Sent) : Decidable (Timed q) := inferInstanceAs (Decidable (_ ∧ _))

/-- A deed. -/
def step (w : Watch) : Deed → Watch
  | .send key userRef trigger =>
      let q : Sent := ⟨key, userRef, trigger⟩
      { w with
        sent := q :: w.sent
        held := (if Timed q then [q] else []) ++ w.held.filter fun p => Spares q p }
  | .stamp key tx =>
      match w.find key with
      | some p => { w with held := w.held.filter fun q => q.key ≠ key, due := w.due ++ p.pairs tx }
      | none => w

/-- If the stamp of a timed send comes, the send is held. -/
def Clear (w : Watch) : Deed → Prop
  | .send .. => True
  | .stamp key _ => ∀ p ∈ w.find key, p.trigger ≠ none → p ∈ w.held

instance (w : Watch) : (d : Deed) → Decidable (w.Clear d)
  | .send .. => .isTrue trivial
  | .stamp .. => inferInstanceAs (Decidable (∀ p ∈ w.find _, _))

end Watch

/-! ### What the tables have to do with the sends -/

/-- The tables have what is needed for each send that is held, and the first one nothing that is not of a timed send. -/
structure Stamps.Tracks (s : Stamps) (w : Watch) : Prop where
  /-- A held send is the last one with its number, and both tables lead to its receive stamp. -/
  holds : ∀ p ∈ w.held, w.find p.key = some p ∧ p.userRef ≠ kNoRef ∧ s.txRefs (p.key % kTxRefs) = ⟨p.key, p.userRef⟩ ∧
    ∃ rx, p.trigger = some rx ∧ s.inflight (p.userRef % kInFlight) = ⟨p.userRef, rx, true⟩
  /-- A reference is found for a timed send only. -/
  named : ∀ key, (s.txRefs (key % kTxRefs)).seq = key → (s.txRefs (key % kTxRefs)).userRef ≠ kNoRef →
    ∃ p ∈ w.find key, p.trigger ≠ none
  /-- No two held sends share a reference. -/
  apart : ∀ p ∈ w.held, ∀ q ∈ w.held, p.Shares q → p = q
  samples : s.samples = w.due.map fun x => packHwStamps x.1 x.2

namespace Stamps

variable {s : Stamps} {w : Watch}

/-- The tables after a send. -/
theorem step_send (s : Stamps) (key userRef : ℕ) (trigger : Option ℕ) :
    (s.step (.send key userRef trigger)).txRefs =
        Function.update s.txRefs (key % kTxRefs) ⟨key, if trigger = none then kNoRef else userRef⟩ ∧
      (s.step (.send key userRef trigger)).inflight =
        (match trigger with
        | some rx => Function.update s.inflight (userRef % kInFlight) ⟨userRef, rx, true⟩
        | none => s.inflight) ∧
      (s.step (.send key userRef trigger)).samples = s.samples := by
  cases trigger with
  | none => exact ⟨rfl, rfl, rfl⟩
  | some rx => exact ⟨by simp [step, sendOrder, recordSend], rfl, rfl⟩

/-- A send that leaves a held one alone leaves what the tables have of it. -/
theorem Tracks.spared (h : s.Tracks w) {p : Sent} (hp : p ∈ w.held) {key userRef : ℕ} {trigger : Option ℕ}
    (hs : Watch.Spares ⟨key, userRef, trigger⟩ p) :
    (s.step (.send key userRef trigger)).txRefs (p.key % kTxRefs) = ⟨p.key, p.userRef⟩ ∧
      ∃ rx, p.trigger = some rx ∧ (s.step (.send key userRef trigger)).inflight (p.userRef % kInFlight) = ⟨p.userRef, rx, true⟩ := by
  obtain ⟨-, -, href, rx, htimed, hrx⟩ := h.holds p hp
  obtain ⟨htx, hin, -⟩ := step_send s key userRef trigger
  refine ⟨by rw [htx, Function.update_of_ne hs.1, href], rx, htimed, ?_⟩
  rw [hin]
  cases trigger with
  | none => exact hrx
  | some rx' => exact (Function.update_of_ne (hs.2 (by simp)) _ _).trans hrx

/-- A send keeps the tables in agreement. -/
theorem Tracks.send (h : s.Tracks w) (key userRef : ℕ) (trigger : Option ℕ) :
    (s.step (.send key userRef trigger)).Tracks (w.step (.send key userRef trigger)) := by
  obtain ⟨htx, hin, hsamples⟩ := step_send s key userRef trigger
  have hheld : ∀ p ∈ (w.step (.send key userRef trigger)).held,
      (p = ⟨key, userRef, trigger⟩ ∧ Watch.Timed p) ∨ (p ∈ w.held ∧ Watch.Spares ⟨key, userRef, trigger⟩ p) := by
    intro p hp
    simp only [Watch.step, List.mem_append, List.mem_filter, decide_eq_true_eq] at hp
    rcases hp with hp | hp
    · split_ifs at hp with ht
      · rw [List.mem_singleton] at hp
        exact .inl ⟨hp, hp ▸ ht⟩
      · cases hp
    · exact .inr hp
  refine ⟨fun p hp => ?_, fun k hk hname => ?_, fun p hp q hq hs => ?_, hsamples.trans h.samples⟩
  · rcases hheld p hp with ⟨rfl, ht, href⟩ | ⟨hp, hs⟩
    · obtain ⟨rx, hrx⟩ := Option.ne_none_iff_exists'.mp ht
      simp only at hrx
      subst hrx
      refine ⟨(Watch.find_cons w _ _ _).trans (if_pos rfl), href, by rw [htx, Function.update_self]; rfl, rx, rfl, ?_⟩
      rw [hin]
      exact Function.update_self ..
    · have hne : key ≠ p.key := fun he => hs.1 (congrArg (· % kTxRefs) he.symm)
      exact ⟨((Watch.find_cons w _ _ _).trans (if_neg hne)).trans (h.holds p hp).1, (h.holds p hp).2.1, h.spared hp hs⟩
  · have hfind := Watch.find_cons w ⟨key, userRef, trigger⟩ (w.step (.send key userRef trigger)).held k
    by_cases hplace : k % kTxRefs = key % kTxRefs
    · rw [htx, hplace, Function.update_self] at hk hname
      simp only at hk hname
      subst hk
      refine ⟨_, hfind.trans (if_pos rfl), fun ht => ?_⟩
      simp only at ht
      exact hname (if_pos ht)
    · rw [htx, Function.update_of_ne hplace] at hk hname
      obtain ⟨p, hp, ht⟩ := h.named k hk hname
      exact ⟨p, (hfind.trans (if_neg fun he => hplace (congrArg (· % kTxRefs) he.symm))).trans hp, ht⟩
  · rcases hheld p hp with ⟨rfl, ht, -⟩ | ⟨hp, hps⟩ <;> rcases hheld q hq with ⟨rfl, ht', -⟩ | ⟨hq, hqs⟩
    · rfl
    · exact absurd hs.symm (hqs.2 ht)
    · exact absurd hs (hps.2 ht')
    · exact h.apart p hp q hq hs

/-- The stamp of no timed send does nothing. -/
theorem Tracks.drainTxStamp_of_untimed (h : s.Tracks w) {key : ℕ} (hun : ∀ p ∈ w.find key, p.trigger = none) (tx : ℕ) :
    s.drainTxStamp key tx = s := by
  refine if_neg fun hname => ?_
  obtain ⟨p, hp, ht⟩ := h.named key hname.1 hname.2
  exact ht (hun p hp)

/-- The stamp of a held send is put with its receive stamp. -/
theorem Tracks.drainTxStamp_of_held (h : s.Tracks w) {p : Sent} (hp : p ∈ w.held) (tx : ℕ) : ∃ rx, p.trigger = some rx ∧
    s.drainTxStamp p.key tx =
      { s with
        inflight := Function.update s.inflight (p.userRef % kInFlight) ⟨p.userRef, rx, false⟩
        samples := s.samples ++ [packHwStamps rx tx] } := by
  obtain ⟨-, hno, href, rx, htimed, hrx⟩ := h.holds p hp
  refine ⟨rx, htimed, ?_⟩
  simp [drainTxStamp, completeTx, href, hrx, hno]

/-- A stamp keeps the tables in agreement, unless its send is timed and no longer held. -/
theorem Tracks.stamp (h : s.Tracks w) {key tx : ℕ} (hclear : w.Clear (.stamp key tx)) :
    (s.step (.stamp key tx)).Tracks (w.step (.stamp key tx)) := by
  simp only [step, Watch.step]
  cases hfind : w.find key with
  | none =>
      rw [h.drainTxStamp_of_untimed (by simp [hfind])]
      exact h
  | some p =>
      have hkey : p.key = key := by simpa using List.find?_some hfind
      have hsub : ∀ q ∈ w.held.filter fun q => q.key ≠ key, q ∈ w.held ∧ q.key ≠ key := fun q hq => by
        simpa using List.mem_filter.mp hq
      by_cases htimed : p.trigger = none
      · rw [h.drainTxStamp_of_untimed (by simpa [hfind] using htimed)]
        refine ⟨fun q hq => h.holds q (hsub q hq).1, h.named,
          fun q hq q' hq' => h.apart q (hsub q hq).1 q' (hsub q' hq').1, ?_⟩
        simpa [Sent.pairs, htimed] using h.samples
      · have hp : p ∈ w.held := hclear p hfind htimed
        obtain ⟨rx, hrx, heq⟩ := h.drainTxStamp_of_held hp tx
        rw [hkey] at heq
        rw [heq]
        refine ⟨fun q hq => ?_, h.named, fun q hq q' hq' => h.apart q (hsub q hq).1 q' (hsub q' hq').1, ?_⟩
        · obtain ⟨hq, hne⟩ := hsub q hq
          obtain ⟨hlast, hno, href, rx', htrig, hin⟩ := h.holds q hq
          have hplace : q.userRef % kInFlight ≠ p.userRef % kInFlight := fun hs => by
            rw [h.apart q hq p hp hs] at hne
            exact hne hkey
          exact ⟨hlast, hno, href, rx', htrig, (Function.update_of_ne hplace _ _).trans hin⟩
        · simp [Sent.pairs, hrx, h.samples]

/-- A deed keeps the tables in agreement. -/
theorem Tracks.step (h : s.Tracks w) : {d : Deed} → w.Clear d → (s.step d).Tracks (w.step d)
  | .send key userRef trigger, _ => h.send key userRef trigger
  | .stamp _ _, hclear => h.stamp hclear

/-- Before the first send there is nothing to agree on. -/
theorem tracks_new : Tracks {} {} :=
  ⟨fun _ hp => absurd hp List.not_mem_nil, fun _ _ hname => absurd rfl hname, fun _ hp => absurd hp List.not_mem_nil, rfl⟩

/-- **Over a run of deeds** the tables stay in agreement, as long as every stamp of a timed send comes while the send is held. -/
theorem Tracks.run (h : s.Tracks w) (deeds : List Deed) (hclear : Along Watch.step Watch.Clear w deeds) :
    (deeds.foldl Stamps.step s).Tracks (deeds.foldl Watch.step w) :=
  hclear.simulates (fun h hd => h.step hd) h

end Stamps

end TickToTrade.Dut
