import TickToTrade.Dut.TableLedgers
import TickToTrade.Replay.FeedValidator

/-!
# The counts of the feed validator

The validator checks a message against the orders that the book of the locate holds, and
the book may hold orders of an earlier session still. The counts are right as long as no
message is about such an order, and no longer.
-/

namespace TickToTrade.Replay.FeedValidator

open Dut Util

variable {v : FeedValidator} {y : Tally} {locate l : ℕ} {msg : List UInt8}

/-! ### Messages -/

theorem names_iff {ref : ℕ} {body : Itch.Body} : BookBuilder.Names ref body ↔ ∃ reduceBy, named body = some (ref, reduceBy) := by
  cases body <;> simp [BookBuilder.Names, named]

theorem named_ne_zero {body : Itch.Body} (h : WellFormed body) {ref reduceBy : ℕ} (hn : named body = some (ref, reduceBy)) :
    ref ≠ 0 := by
  cases body with
  | orderExecuted r shares mn =>
      cases hn
      exact h.1
  | orderExecutedWithPrice r shares mn price =>
      cases hn
      exact h.1
  | orderCancel r shares =>
      cases hn
      exact h.1
  | orderDelete r =>
      cases hn
      exact h
  | orderReplace orig new shares price =>
      cases hn
      exact h.1
  | _ => cases hn

theorem expected_of_wellFormed {body : Itch.Body} (h : WellFormed body) (b : BookBuilder) : b.Expected body := by
  cases body with
  | addOrder ref side shares price => exact .inr h
  | orderExecuted ref shares mn => exact h.1
  | orderExecutedWithPrice ref shares mn price => exact h.1
  | orderCancel ref shares => exact h.1
  | orderReplace orig new shares price => exact .inr (.inr h.2)
  | _ => trivial

/-- A system event has the type `S`. -/
theorem byteAt_of_systemEvent {e : Itch.SystemEventCode} (h : (Itch.decode msg).body = .systemEvent e) : Itch.byteAt msg 0 = 83 := by
  by_contra htype
  unfold Itch.decode Itch.bodyOf at h
  simp only [if_neg htype] at h
  split_ifs at h

/-- A message of the type `S` names no order and adds none. -/
theorem body_of_byteAt (h : Itch.byteAt msg 0 = 83) :
    (Itch.decode msg).body = .systemEventShort ∨ ∃ e, (Itch.decode msg).body = .systemEvent e := by
  unfold Itch.decode Itch.bodyOf
  simp only [if_pos h]
  split_ifs
  · exact .inl rfl
  · exact .inr ⟨_, rfl⟩

/-! ### The counts -/

/-- The two counts of a locate. -/
def counts (v : FeedValidator) (l : ℕ) : ℕ × ℕ := ((v.sym l).unknownRef, (v.sym l).overReduce)

/-- The shares that the book of the locate has of an order. -/
def restingOf (v : FeedValidator) (locate ref : ℕ) : ℕ :=
  match v.book? locate with
  | none => 0
  | some b => b.restingShares ref

/-- Check the order that a message is about, if there is one. -/
def checked (v : FeedValidator) (locate : ℕ) : Option (ℕ × ℕ) → FeedValidator
  | none => v
  | some (ref, reduceBy) => v.checkReference locate ref reduceBy

theorem checkReference_eq (v : FeedValidator) (locate ref reduceBy : ℕ) :
    v.checkReference locate ref reduceBy =
      if v.restingOf locate ref = 0 then v.count locate fun st => { st with unknownRef := st.unknownRef + 1 }
      else if reduceBy > v.restingOf locate ref then v.count locate fun st => { st with overReduce := st.overReduce + 1 }
      else v := rfl

theorem sym_count_of_ne (h : l ≠ locate) (v : FeedValidator) (f : SymbolStats → SymbolStats) :
    (v.count locate f).sym l = v.sym l := Function.update_of_ne h ..

@[simp] theorem sym_count (v : FeedValidator) (locate : ℕ) (f : SymbolStats → SymbolStats) :
    (v.count locate f).sym locate = f (v.sym locate) := Function.update_self ..

@[simp] theorem books_count (v : FeedValidator) (locate : ℕ) (f : SymbolStats → SymbolStats) :
    (v.count locate f).books = v.books := rfl

/-- A change of other statistics. -/
theorem counts_count (v : FeedValidator) (locate : ℕ) {f : SymbolStats → SymbolStats}
    (hf : ∀ st, (f st).unknownRef = st.unknownRef ∧ (f st).overReduce = st.overReduce) (l : ℕ) :
    (v.count locate f).counts l = v.counts l := by
  unfold counts
  by_cases hl : l = locate
  · subst hl
    rw [sym_count, (hf _).1, (hf _).2]
  · rw [sym_count_of_ne hl]

theorem counts_traded (v : FeedValidator) (locate : ℕ) (price : ℤ) (l : ℕ) : (v.traded locate price).counts l = v.counts l := by
  unfold traded
  split_ifs
  · exact counts_count v locate (by exact fun _ => ⟨rfl, rfl⟩) l
  · rfl

/-- The counts change by the check only. -/
theorem counts_inspect (v : FeedValidator) (locate ts : ℕ) (body : Itch.Body) (l : ℕ) :
    (v.inspect locate ts body).counts l = (v.checked locate (named body)).counts l := by
  cases body with
  | stockDirectory name =>
      simp only [inspect]
      exact counts_count v locate (by exact fun _ => ⟨rfl, rfl⟩) l
  | stockTradingAction state =>
      simp only [inspect]
      split_ifs <;> rfl
  | orderExecuted ref shares mn =>
      simp only [inspect]
      split_ifs
      · exact counts_traded ..
      · rfl
  | orderExecutedWithPrice ref shares mn price =>
      simp only [inspect]
      split_ifs
      · exact counts_traded ..
      · rfl
  | tradeNonCross ref side shares price mn =>
      simp only [inspect]
      split_ifs
      · exact counts_traded ..
      · rfl
  | crossTrade shares price mn =>
      simp only [inspect]
      split_ifs
      · exact counts_traded ..
      · rfl
  | _ => rfl

/-- Only the books matter to a check. -/
theorem counts_checked_congr {w v : FeedValidator} (hbooks : w.books = v.books) (hcounts : ∀ l, w.counts l = v.counts l)
    (locate : ℕ) (o : Option (ℕ × ℕ)) (l : ℕ) : (w.checked locate o).counts l = (v.checked locate o).counts l := by
  have hbump : ∀ f : SymbolStats → SymbolStats,
      (∀ st st', st.unknownRef = st'.unknownRef → st.overReduce = st'.overReduce →
        (f st).unknownRef = (f st').unknownRef ∧ (f st).overReduce = (f st').overReduce) →
      (w.count locate f).counts l = (v.count locate f).counts l := by
    intro f hf
    have heq := hcounts l
    unfold counts at heq ⊢
    by_cases hl : l = locate
    · subst hl
      obtain ⟨hunknown, hover⟩ := hf _ _ (congrArg Prod.fst heq) (congrArg Prod.snd heq)
      rw [sym_count, sym_count, hunknown, hover]
    · rw [sym_count_of_ne hl, sym_count_of_ne hl]
      exact heq
  cases o with
  | none => exact hcounts l
  | some o =>
      obtain ⟨ref, reduceBy⟩ := o
      have hresting : w.restingOf locate ref = v.restingOf locate ref := by
        unfold restingOf book?
        rw [hbooks]
      simp only [checked]
      rw [checkReference_eq, checkReference_eq, hresting]
      split_ifs
      · exact hbump _ fun st st' hunknown hover => ⟨congrArg (· + 1) hunknown, hover⟩
      · exact hbump _ fun st st' hunknown hover => ⟨hunknown, congrArg (· + 1) hover⟩
      · exact hcounts l

theorem books_checkReference (v : FeedValidator) (locate ref reduceBy : ℕ) : (v.checkReference locate ref reduceBy).books = v.books := by
  rw [checkReference_eq]
  split_ifs <;> rfl

theorem books_traded (v : FeedValidator) (locate : ℕ) (price : ℤ) : (v.traded locate price).books = v.books := by
  unfold traded
  split_ifs <;> rfl

/-- The messages are read before they are applied. -/
theorem books_inspect (v : FeedValidator) (locate ts : ℕ) (body : Itch.Body) : (v.inspect locate ts body).books = v.books := by
  cases body with
  | stockTradingAction state =>
      simp only [inspect]
      split_ifs <;> rfl
  | orderExecuted ref shares mn =>
      simp only [inspect]
      split_ifs
      · exact (books_traded ..).trans (books_checkReference ..)
      · exact books_checkReference ..
  | orderExecutedWithPrice ref shares mn price =>
      simp only [inspect]
      split_ifs
      · exact (books_traded ..).trans (books_checkReference ..)
      · exact books_checkReference ..
  | tradeNonCross ref side shares price mn =>
      simp only [inspect]
      split_ifs
      · exact books_traded ..
      · rfl
  | crossTrade shares price mn =>
      simp only [inspect]
      split_ifs
      · exact books_traded ..
      · rfl
  | orderCancel ref shares => exact books_checkReference ..
  | orderDelete ref => exact books_checkReference ..
  | orderReplace orig new shares price => exact books_checkReference ..
  | _ => rfl

theorem counts_observe (v : FeedValidator) (locate type ts : ℕ) (l : ℕ) : (v.observe locate type ts).counts l = v.counts l := by
  unfold observe
  by_cases hof : ofOrders type
  · rw [if_pos hof]
    split
    · rfl
    · refine (counts_count _ locate (by exact fun _ => ⟨rfl, rfl⟩) l).trans ?_
      split_ifs
      · exact counts_count v locate (by exact fun _ => ⟨rfl, rfl⟩) l
      · exact counts_count v locate (by exact fun _ => ⟨rfl, rfl⟩) l
      · exact counts_count v locate (by exact fun _ => ⟨rfl, rfl⟩) l
      · rfl
  · rw [if_neg hof]

theorem books_observe (v : FeedValidator) (locate type ts : ℕ) : (v.observe locate type ts).books = v.books := by
  unfold observe
  by_cases hof : ofOrders type
  · rw [if_pos hof]
    split
    · rfl
    · refine (books_count ..).trans ?_
      split_ifs <;> rfl
  · rw [if_neg hof]

theorem counts_sample (v : FeedValidator) (l : ℕ) : v.sample.counts l = v.counts l := by
  unfold sample
  split_ifs <;> rfl

theorem books_sample (v : FeedValidator) : v.sample.books = v.books := by
  unfold sample
  split_ifs <;> rfl

/-! ### A message -/

theorem onMessage_short (h : msg.length < 11) (v : FeedValidator) : v.onMessage msg = v := by
  unfold onMessage
  rw [if_pos h]

theorem onMessage_system (h : ¬ msg.length < 11) (htype : Itch.byteAt msg 0 = 83) (v : FeedValidator) :
    v.onMessage msg = v.onSystemEvent (Itch.decode msg).body := by
  unfold onMessage
  rw [if_neg h]
  simp only [if_pos htype]

/-- The counts and the books after a message that is no system event. -/
theorem onMessage_feed (h : ¬ msg.length < 11) (htype : Itch.byteAt msg 0 ≠ 83) (v : FeedValidator) :
    (∀ l, (v.onMessage msg).counts l = (v.checked (Itch.decode msg).locate (named (Itch.decode msg).body)).counts l) ∧
      (v.onMessage msg).books = (v.books.apply (Itch.decode msg)).1 := by
  unfold onMessage
  rw [if_neg h]
  simp only [if_neg htype]
  generalize hw : (FeedValidator.count { v with messages := v.messages + 1 } (Itch.decode msg).locate
    fun st => { st with messages := st.messages + 1 }) = w
  have hcounts : ∀ l, w.counts l = v.counts l := fun l => by
    rw [← hw]
    exact counts_count { v with messages := v.messages + 1 } _ (by exact fun _ => ⟨rfl, rfl⟩) l
  have hbooks : w.books = v.books := by rw [← hw]; rfl
  refine ⟨fun l => ?_, ?_⟩
  · rw [counts_sample, counts_observe]
    exact (counts_inspect w _ _ _ l).trans (counts_checked_congr hbooks hcounts _ _ l)
  · rw [books_sample, books_observe]
    change ((w.inspect _ _ _).books.apply _).1 = _
    rw [books_inspect, hbooks]

/-! ### The counts of a locate -/

variable {home : List UInt8 → ℕ} {s : FeedValidator × Tally}

theorem exact_iff : Exact locate s ↔ s.1.counts locate = (s.2.unknownRef, s.2.overReduce) := by
  unfold Exact counts
  rw [Prod.mk.injEq]

/-- The orders of the locate are orders of its book, and the counts are right so far. -/
def Counted (home : List UInt8 → ℕ) (locate : ℕ) (s : FeedValidator × Tally) : Prop :=
  BookTable.Tracks home locate s.1.books s.2.live ∧ Exact locate s

/-- The book and the session agree on an order that the session has, and on one that is not
left over. -/
theorem Counted.restingOf_eq (h : Counted home locate s) {ref : ℕ} (h0 : ref ≠ 0)
    (hleft : ∀ b, s.1.book? locate = some b → b.restingShares ref ≠ 0 → s.2.live.lookup ref ≠ none) :
    s.1.restingOf locate ref = ((s.2.live.lookup ref).map Resting.shares).getD 0 ∧
      ∀ o, s.2.live.lookup ref = some o → 0 < o.shares := by
  unfold restingOf book?
  unfold book? at hleft
  cases hbook : (s.1.books.books locate).book with
  | none =>
      rw [h.1.bookless hbook, Finmap.lookup_empty]
      exact ⟨rfl, fun o ho => nomatch ho⟩
  | some i =>
      rw [hbook] at hleft
      obtain ⟨g, hg, hwithin⟩ := h.1.held i hbook
      simp only [Option.map_some]
      rw [hg.restingShares_eq h0]
      cases hf : s.2.live.lookup ref with
      | some o =>
          rw [hwithin ref o hf]
          exact ⟨rfl, fun o' ho' => (hg.shares ref o' (hwithin ref o' (hf.trans ho'))).1⟩
      | none =>
          have hgone := not_imp_not.mp (hleft _ rfl) hf
          rw [hg.restingShares_eq h0] at hgone
          rw [hgone]
          exact ⟨rfl, fun o ho => nomatch ho⟩

/-- The check counts what the tally counts. -/
theorem Counted.check (h : Counted home locate s) {body : Itch.Body} (hwell : WellFormed body)
    (hleft : ∀ ref reduceBy b, named body = some (ref, reduceBy) → s.1.book? locate = some b → b.restingShares ref ≠ 0 →
      s.2.live.lookup ref ≠ none) :
    (s.1.checked locate (named body)).counts locate =
      ((s.2.check (named body)).unknownRef, (s.2.check (named body)).overReduce) := by
  have hexact := exact_iff.mp h.2
  cases hn : named body with
  | none => exact hexact
  | some o =>
      obtain ⟨ref, reduceBy⟩ := o
      obtain ⟨hresting, hpos⟩ := h.restingOf_eq (named_ne_zero hwell hn) fun b => hleft ref reduceBy b hn
      simp only [checked, Tally.check]
      rw [checkReference_eq, hresting]
      cases hf : s.2.live.lookup ref with
      | none =>
          simp only [Option.map_none, Option.getD_none, if_true]
          unfold counts
          rw [sym_count]
          exact Prod.ext (congrArg (· + 1) h.2.1) h.2.2
      | some o =>
          simp only [Option.map_some, Option.getD_some]
          rw [if_neg (Nat.ne_of_gt (hpos o hf))]
          split_ifs
          · unfold counts
            rw [sym_count]
            exact Prod.ext h.2.1 (congrArg (· + 1) h.2.2)
          · exact hexact

theorem check_live (y : Tally) (o : Option (ℕ × ℕ)) : (y.check o).live = y.live := by
  cases o with
  | none => rfl
  | some o =>
      obtain ⟨ref, reduceBy⟩ := o
      simp only [Tally.check]
      cases y.live.lookup ref with
      | none => rfl
      | some r =>
          simp only
          split_ifs <;> rfl

/-- A check of another locate. -/
theorem counts_checked_of_ne (h : locate ≠ l) (v : FeedValidator) (o : Option (ℕ × ℕ)) :
    (v.checked l o).counts locate = v.counts locate := by
  cases o with
  | none => rfl
  | some o =>
      obtain ⟨ref, reduceBy⟩ := o
      simp only [checked]
      rw [checkReference_eq]
      unfold counts
      split_ifs
      · rw [sym_count_of_ne h]
      · rw [sym_count_of_ne h]
      · rfl

/-- A message that starts no session and is about no order is not counted. -/
theorem onMessage_quiet {y : Tally} (hstart : (Itch.decode msg).body ≠ .systemEvent .startOfMessages)
    (hnamed : named (Itch.decode msg).body = none)
    (haccount : ∀ ownRefMin f, BookBuilder.account ownRefMin f (Itch.decode msg).body = f) (v : FeedValidator) :
    y.onMessage locate v msg = y := by
  unfold Tally.onMessage
  simp only [hnamed, haccount, if_neg hstart]
  split_ifs <;> rfl

/-- A system event. -/
theorem Counted.watch_system (h : Counted home locate s) (hlength : ¬ msg.length < 11) (htype : Itch.byteAt msg 0 = 83) :
    Counted home locate (watch locate s msg) := by
  have hquiet : (Itch.decode msg).body ≠ .systemEvent .startOfMessages → named (Itch.decode msg).body = none →
      (∀ ownRefMin f, BookBuilder.account ownRefMin f (Itch.decode msg).body = f) →
      (s.1.onSystemEvent (Itch.decode msg).body).books = s.1.books →
      (s.1.onSystemEvent (Itch.decode msg).body).sym = s.1.sym → Counted home locate (watch locate s msg) := by
    intro hstart hnamed haccount hbooks hsym
    unfold watch
    rw [onMessage_system hlength htype, onMessage_quiet hstart hnamed haccount]
    refine ⟨?_, ?_⟩
    · change BookTable.Tracks home locate (s.1.onSystemEvent (Itch.decode msg).body).books s.2.live
      rw [hbooks]
      exact h.1
    · unfold Exact
      simp only [hsym]
      exact h.2
  obtain hb | ⟨e, hb⟩ := body_of_byteAt htype
  · exact hquiet (by rw [hb]; exact fun he => nomatch he) (by rw [hb]; rfl) (by rw [hb]; exact fun _ _ => rfl)
      (by rw [hb]; rfl) (by rw [hb]; rfl)
  · cases e with
    | startOfMessages =>
        unfold watch
        rw [onMessage_system hlength htype, hb]
        have htally : s.2.onMessage locate s.1 msg = { s.2 with live := ∅ } := by
          unfold Tally.onMessage
          simp only [if_neg hlength, if_pos hb]
        rw [htally]
        exact ⟨h.1.clearAll, h.2⟩
    | _ => exact hquiet (by rw [hb]; decide) (by rw [hb]; rfl) (by rw [hb]; exact fun _ _ => rfl) (by rw [hb]; rfl) (by rw [hb]; rfl)

/-- A message that is no system event. -/
theorem Counted.watch_feed (h : Counted home locate s) (hlength : ¬ msg.length < 11) (htype : Itch.byteAt msg 0 ≠ 83)
    (hwell : WellFormed (Itch.decode msg).body)
    (hhome : ∀ name, (Itch.decode msg).body = .stockDirectory name → home name = (Itch.decode msg).locate)
    (hleft : ¬ Leftover locate s msg) : Counted home locate (watch locate s msg) := by
  obtain ⟨hcounts, hbooks⟩ := onMessage_feed hlength htype s.1
  have hstart : (Itch.decode msg).body ≠ .systemEvent .startOfMessages := fun he => htype (byteAt_of_systemEvent he)
  have hnone : (Itch.decode msg).locate = locate → ∀ ref reduceBy b, named (Itch.decode msg).body = some (ref, reduceBy) →
      s.1.book? locate = some b → b.restingShares ref ≠ 0 → s.2.live.lookup ref ≠ none := fun hl ref reduceBy b hn hbook hrest hf =>
    hleft ⟨Nat.le_of_not_lt hlength, hl, ref, reduceBy, b, hn, hbook, hrest, hf⟩
  have htracks := h.1.apply hhome (expected_of_wellFormed hwell)
    (fun ref hn => by
      obtain ⟨reduceBy, hn⟩ := names_iff.mp hn
      exact named_ne_zero hwell hn)
    fun hl ref hn hf i hi => by
      obtain ⟨reduceBy, hn⟩ := names_iff.mp hn
      by_contra hrest
      exact hnone hl ref reduceBy _ hn (by unfold book?; rw [hi]; rfl) hrest hf
  unfold FeedValidator.watch
  by_cases hl : (Itch.decode msg).locate = locate
  · have hchecked := h.check hwell (hnone hl)
    have htally : s.2.onMessage locate s.1 msg =
        if s.1.books.skips locate then s.2.check (named (Itch.decode msg).body)
        else { s.2.check (named (Itch.decode msg).body) with
          live := BookBuilder.account s.1.books.cfg.ownRefMin s.2.live (Itch.decode msg).body } := by
      unfold Tally.onMessage
      simp only [if_neg hlength, if_neg hstart, if_neg (not_not.mpr hl), check_live]
    rw [htally]
    refine ⟨?_, exact_iff.mpr ?_⟩
    · rw [hl] at htracks
      change BookTable.Tracks home locate (s.1.onMessage msg).books _
      rw [hbooks]
      split_ifs with hskips
      · rw [check_live]
        rw [if_neg fun he => by rw [hskips] at he; exact Bool.noConfusion he.2] at htracks
        exact htracks
      · rw [if_pos ⟨rfl, Bool.eq_false_iff.mpr hskips⟩] at htracks
        exact htracks
    · refine (hcounts locate).trans ?_
      rw [hl, hchecked]
      split_ifs <;> rfl
  · have htally : s.2.onMessage locate s.1 msg = s.2 := by
      unfold Tally.onMessage
      simp only [if_neg hlength, if_neg hstart, if_pos hl]
    rw [htally]
    refine ⟨?_, exact_iff.mpr ?_⟩
    · rw [if_neg fun he => hl he.1] at htracks
      change BookTable.Tracks home locate (s.1.onMessage msg).books _
      rw [hbooks]
      exact htracks
    · refine (hcounts locate).trans ?_
      rw [counts_checked_of_ne (Ne.symm hl)]
      exact exact_iff.mp h.2

/-- **A message keeps the counts right, unless it is about an order left over.** -/
theorem Counted.watch (h : Counted home locate s) (hwell : WellFormed (Itch.decode msg).body)
    (hhome : ∀ name, (Itch.decode msg).body = .stockDirectory name → home name = (Itch.decode msg).locate)
    (hleft : ¬ Leftover locate s msg) : Counted home locate (watch locate s msg) := by
  by_cases hlength : msg.length < 11
  · have hsame : FeedValidator.watch locate s msg = s := by
      unfold FeedValidator.watch Tally.onMessage
      simp only [onMessage_short hlength, if_pos hlength]
    rw [hsame]
    exact h
  by_cases htype : Itch.byteAt msg 0 = 83
  · exact h.watch_system hlength htype
  · exact h.watch_feed hlength htype hwell hhome hleft

/-- A message about an order left over is not counted, and should be. -/
theorem not_exact_of_leftover (h : Exact locate s) (hleft : Leftover locate s msg) : ¬ Exact locate (watch locate s msg) := by
  obtain ⟨hlength, hl, ref, reduceBy, b, hn, hbook, hrest, hf⟩ := hleft
  intro hexact
  have hlength : ¬ msg.length < 11 := Nat.not_lt.mpr hlength
  have htype : Itch.byteAt msg 0 ≠ 83 := fun htype => by
    obtain hb | ⟨e, hb⟩ := body_of_byteAt htype
    · rw [hb] at hn
      cases hn
    · rw [hb] at hn
      cases hn
  have hstart : (Itch.decode msg).body ≠ .systemEvent .startOfMessages := fun he => htype (byteAt_of_systemEvent he)
  have hcode : (s.1.onMessage msg).counts locate = (s.1.checked locate (named (Itch.decode msg).body)).counts locate := by
    have hcounts := (onMessage_feed hlength htype s.1).1 locate
    rw [hl] at hcounts
    exact hcounts
  have htally : (s.2.onMessage locate s.1 msg).unknownRef = s.2.unknownRef + 1 := by
    unfold Tally.onMessage
    simp only [if_neg hlength, if_neg hstart, if_neg (not_not.mpr hl), hn]
    split_ifs <;> simp only [Tally.check, hf]
  have hresting : s.1.restingOf locate ref ≠ 0 := by
    unfold restingOf
    rw [hbook]
    exact hrest
  have hsame : ((s.1.onMessage msg).sym locate).unknownRef = (s.1.sym locate).unknownRef := by
    have hfst := congrArg Prod.fst hcode
    rw [hn] at hfst
    simp only [checked] at hfst
    rw [checkReference_eq, if_neg hresting] at hfst
    refine hfst.trans ?_
    split_ifs
    · simp only [counts, sym_count]
    · rfl
  have hunknown : ((s.1.onMessage msg).sym locate).unknownRef = (s.2.onMessage locate s.1 msg).unknownRef := hexact.1
  rw [hsame, htally, h.1] at hunknown
  omega

/-! ### Streams -/

/-- The locate of a symbol of the stream. -/
def homeOf (msgs : List (List UInt8)) (name : List UInt8) : ℕ :=
  ((msgs.find? fun msg => (Itch.decode msg).body = .stockDirectory name).map fun msg => (Itch.decode msg).locate).getD 0

theorem homeOf_eq {msgs : List (List UInt8)} (hone : OneLocate msgs) {name : List UInt8} (hmsg : msg ∈ msgs)
    (hname : (Itch.decode msg).body = .stockDirectory name) : homeOf msgs name = (Itch.decode msg).locate := by
  unfold homeOf
  cases hfind : msgs.find? fun msg => (Itch.decode msg).body = .stockDirectory name with
  | none => exact absurd hname (by simpa using List.find?_eq_none.mp hfind msg hmsg)
  | some msg' =>
      have hname' : (Itch.decode msg').body = .stockDirectory name := by simpa using List.find?_some hfind
      exact hone msg' (List.mem_of_find?_eq_some hfind) msg hmsg name hname' hname

/-- **The counts of a locate are right after every message of a stream if and only if no
message of it is about an order that the locate's book holds from an earlier session.** -/
theorem counts_exact_iff (cfg : BookTableConfig) (locate : ℕ) (msgs : List (List UInt8)) (hone : OneLocate msgs)
    (hwell : ∀ msg ∈ msgs, WellFormed (Itch.decode msg).body) :
    (∀ n, Exact locate (watchAll cfg locate (msgs.take n))) ↔
      ∀ n msg, msgs[n]? = some msg → ¬ Leftover locate (watchAll cfg locate (msgs.take n)) msg := by
  have hnext : ∀ n msg, msgs[n]? = some msg →
      watchAll cfg locate (msgs.take (n + 1)) = watch locate (watchAll cfg locate (msgs.take n)) msg := by
    intro n msg hmsg
    obtain ⟨hn, rfl⟩ := List.getElem?_eq_some_iff.mp hmsg
    unfold watchAll
    rw [List.take_succ_eq_append_getElem hn, List.foldl_append]
    rfl
  constructor
  · intro hexact n msg hmsg hleft
    have hafter := hexact (n + 1)
    rw [hnext n msg hmsg] at hafter
    exact not_exact_of_leftover (hexact n) hleft hafter
  · intro hnone n
    suffices h : Counted (homeOf msgs) locate (watchAll cfg locate (msgs.take n)) from h.2
    induction n with
    | zero => exact ⟨BookTable.tracks_new _ locate cfg, rfl, rfl⟩
    | succ n ih =>
        cases hmsg : msgs[n]? with
        | none =>
            have hlen := List.getElem?_eq_none_iff.mp hmsg
            rw [List.take_of_length_le hlen] at ih
            rw [List.take_of_length_le (Nat.le_succ_of_le hlen)]
            exact ih
        | some msg =>
            rw [hnext n msg hmsg]
            have hmem := List.mem_of_getElem? hmsg
            exact ih.watch (hwell msg hmem) (fun name hname => homeOf_eq hone hmem hname) (hnone n msg hmsg)

/-- A start of messages. -/
def startBytes : List UInt8 := 83 :: List.replicate 10 0 ++ [79]

/-- A bid for 30 shares, order 7 of locate 1. -/
def addBytes : List UInt8 :=
  [65, 0, 1] ++ List.replicate 15 0 ++ [7, 66, 0, 0, 0, 30] ++ List.replicate 8 32 ++ [0, 1, 134, 160]

/-- An execution of 10 shares of that order. -/
def executedBytes : List UInt8 := [69, 0, 1] ++ List.replicate 15 0 ++ [7, 0, 0, 0, 10] ++ List.replicate 8 0

/-- Small books. -/
def smallBooks : BookTableConfig := { coldBandTicks := 4, maxBandTicks := 16, coldMapSlots := 4 }

theorem counts_exact_sample :
    (∀ n, Exact 1 (watchAll smallBooks 1 ([startBytes, addBytes, executedBytes].take n))) ↔
      ∀ n msg, [startBytes, addBytes, executedBytes][n]? = some msg →
        ¬ Leftover 1 (watchAll smallBooks 1 ([startBytes, addBytes, executedBytes].take n)) msg := by
  refine counts_exact_iff smallBooks 1 _ ?_ ?_
  · intro msg hmsg msg' hmsg' name hname
    have hnone : ∀ msg ∈ [startBytes, addBytes, executedBytes], ∀ name, (Itch.decode msg).body ≠ .stockDirectory name := by
      intro msg hmsg name
      rw [List.mem_cons, List.mem_cons, List.mem_singleton] at hmsg
      obtain rfl | rfl | rfl := hmsg <;> exact Itch.Body.noConfusion
    exact absurd hname (hnone msg hmsg name)
  · intro msg hmsg
    rw [List.mem_cons, List.mem_cons, List.mem_singleton] at hmsg
    obtain rfl | rfl | rfl := hmsg
    · trivial
    · exact ⟨by decide, by decide⟩
    · exact ⟨by decide, by decide⟩

/-- An order of the first session is executed in the second one: the reference is not live
any more, and the validator does not count the execution. -/
theorem leftover_uncounted :
    ¬ Exact 1 (watchAll smallBooks 1 [startBytes, addBytes, startBytes, executedBytes]) ∧
      ((watchAll smallBooks 1 [startBytes, addBytes, startBytes, executedBytes]).1.sym 1).unknownRef = 0 ∧
      (watchAll smallBooks 1 [startBytes, addBytes, startBytes, executedBytes]).2.unknownRef = 1 := by
  unfold Exact
  decide +kernel

end TickToTrade.Replay.FeedValidator
