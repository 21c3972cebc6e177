import TickToTrade.Dut.SessionRuns

/-!
# Fresh quotes after an answer

An answer that frees an order of a hot symbol, or changes the symbol's position, ought
to bring a fresh evaluation of its quotes: the strategy forgets the interval in which
it wants no change, at the latest with the symbol's next message. The session keeps
this promise by a mark in place of the top last seen. But the slot that waits for a
replace is found on another way, which leaves no mark (`replaced_not_fresh`); the
evaluation of all symbols does not look for the mark; and the mark is itself a version
that a book can have. Without these three the promise holds (`fresh_after_answer`).
-/

namespace TickToTrade.Dut.DutSession

variable {S : Type}

/-- Does an answer free an order of the hot symbol, or change its position? -/
def Frees (d d' : DutSession S) (h : ℕ) : Prop :=
  (∃ side, (d.oms.slots h side).state.Pending ∧ ¬ (d'.oms.slots h side).state.Pending) ∨
    (d'.oms.acct h).position ≠ (d.oms.acct h).position

/-- The promise about what happens next: before the first evaluation of the symbol its
strategy has been made to forget, and a message for the symbol's book that comes before
is followed by the evaluation. -/
structure Fresh (h : ℕ) (log : List Event) : Prop where
  forgets : ∀ l₁ l₂, log = l₁ ++ .evaluated h :: l₂ → .evaluated h ∉ l₁ → .forgot h ∈ l₁
  prompt : ∀ l₁ n msg l₂, log = l₁ ++ .applied n msg (some h) :: l₂ → .evaluated h ∉ l₁ →
    ∃ m₁ m₂, l₂ = m₁ ++ .evaluated h :: m₂ ∧ ∀ e ∈ m₁, e = .forgot h

/-- Where an element of a list in two parts stands: in the first or in the second. -/
theorem split_append_cons {α : Type*} {l l' l₁ l₂ : List α} {x : α} (h : l ++ l' = l₁ ++ x :: l₂) :
    (∃ c, l = l₁ ++ x :: c ∧ l₂ = c ++ l') ∨ ∃ c, l₁ = l ++ c ∧ l' = c ++ x :: l₂ := by
  obtain ⟨c, rfl, hc⟩ | ⟨c, hl, hc⟩ := List.append_eq_append_iff.mp h
  · exact .inr ⟨c, rfl, hc⟩
  · cases c with
    | nil => exact .inr ⟨[], by simpa using hl.symm, hc.symm⟩
    | cons y c =>
        obtain ⟨rfl, rfl⟩ := List.cons.inj hc
        exact .inl ⟨c, hl, rfl⟩

/-- Nothing has happened that the promise is about. -/
def Untouched (h : ℕ) (log : List Event) : Prop :=
  (∀ e ∈ log, e ≠ .evaluated h) ∧ ∀ n msg, .applied n msg (some h) ∉ log

namespace Untouched

variable {h : ℕ} {l l' : List Event}

theorem nil : Untouched h [] := ⟨by simp, by simp⟩

theorem append (hl : Untouched h l) (hl' : Untouched h l') : Untouched h (l ++ l') :=
  ⟨fun e he => (List.mem_append.mp he).elim (hl.1 e) (hl'.1 e),
    fun n msg he => (List.mem_append.mp he).elim (hl.2 n msg) (hl'.2 n msg)⟩

/-- What is done for another symbol touches nothing. -/
theorem of_isFor {x : ℕ} (hx : h ≠ x) (hl : ∀ e ∈ l, e.IsFor x) : Untouched h l :=
  ⟨by rintro e he rfl; exact hx (hl _ he), fun _ _ he => hl _ he⟩

end Untouched

namespace Fresh

variable {h : ℕ} {l l' : List Event}

theorem of_untouched (hl : Untouched h l) : Fresh h l where
  forgets l₁ l₂ heq _ := absurd rfl (hl.1 (.evaluated h) (by simp [heq]))
  prompt l₁ n msg l₂ heq _ := absurd (by simp [heq]) (hl.2 n msg)

/-- Before the log something untouched makes no difference. -/
theorem prepend (hl : Untouched h l) (hl' : Fresh h l') : Fresh h (l ++ l') where
  forgets l₁ l₂ heq hno := by
    obtain ⟨c, rfl, -⟩ | ⟨c, rfl, hc⟩ := split_append_cons heq
    · exact absurd rfl (hl.1 (.evaluated h) (by simp))
    · exact List.mem_append_right _ (hl'.forgets c l₂ hc fun he => hno (List.mem_append_right _ he))
  prompt l₁ n msg l₂ heq hno := by
    obtain ⟨c, rfl, -⟩ | ⟨c, rfl, hc⟩ := split_append_cons heq
    · exact absurd (by simp) (hl.2 n msg)
    · exact hl'.prompt c n msg l₂ hc fun he => hno (List.mem_append_right _ he)

/-- Once the symbol has been evaluated, what comes later makes no difference. -/
theorem append (hl : Fresh h l) (hev : .evaluated h ∈ l) : Fresh h (l ++ l') where
  forgets l₁ l₂ heq hno := by
    obtain ⟨c, hc, -⟩ | ⟨c, rfl, -⟩ := split_append_cons heq
    · exact hl.forgets l₁ c hc hno
    · exact absurd (List.mem_append_left _ hev) hno
  prompt l₁ n msg l₂ heq hno := by
    obtain ⟨c, hc, rfl⟩ | ⟨c, rfl, -⟩ := split_append_cons heq
    · obtain ⟨m₁, m₂, rfl, hm⟩ := hl.prompt l₁ n msg c hc hno
      exact ⟨m₁, m₂ ++ l', by simp, hm⟩
    · exact absurd (List.mem_append_left _ hev) hno

/-- An evaluation after forgetting, and only requests after it. -/
theorem evaluation {m ps : List Event} (hm : ∀ e ∈ m, e = .forgot h) (hmem : m ≠ [])
    (hps : ∀ e ∈ ps, ∃ o ok, e = .produced h o ok) : Fresh h (m ++ .evaluated h :: ps) where
  forgets l₁ l₂ heq hno := by
    obtain ⟨c, rfl, -⟩ | ⟨c, rfl, hc⟩ := split_append_cons heq
    · exact absurd (hm (.evaluated h) (by simp)) (by simp)
    · obtain ⟨e, he⟩ := List.exists_mem_of_ne_nil m hmem
      rw [hm e he] at he
      exact List.mem_append_left _ he
  prompt l₁ n msg l₂ heq _ := by
    have hmem' : .applied n msg (some h) ∈ m ++ .evaluated h :: ps := by rw [heq]; simp
    simp only [List.mem_append, List.mem_cons] at hmem'
    obtain he | he | he := hmem'
    · exact absurd (hm _ he) (by simp)
    · cases he
    · obtain ⟨_, _, he⟩ := hps _ he
      cases he

/-- A message for the symbol's book, followed by such an evaluation. -/
theorem message {n : ℕ} {msg : List UInt8} {m ps : List Event} (hm : ∀ e ∈ m, e = .forgot h) (hmem : m ≠ [])
    (hps : ∀ e ∈ ps, ∃ o ok, e = .produced h o ok) :
    Fresh h (.applied n msg (some h) :: (m ++ .evaluated h :: ps)) where
  forgets l₁ l₂ heq hno := by
    cases l₁ with
    | nil => cases heq
    | cons e l₁ =>
        obtain ⟨rfl, htail⟩ := List.cons.inj heq
        exact List.mem_cons_of_mem _ ((evaluation hm hmem hps).forgets l₁ l₂ htail
          fun he => hno (List.mem_cons_of_mem _ he))
  prompt l₁ n' msg' l₂ heq hno := by
    cases l₁ with
    | nil =>
        obtain ⟨-, rfl⟩ := List.cons.inj heq
        exact ⟨m, ps, rfl, hm⟩
    | cons e l₁ =>
        obtain ⟨rfl, htail⟩ := List.cons.inj heq
        exact (evaluation hm hmem hps).prompt l₁ n' msg' l₂ htail fun he => hno (List.mem_cons_of_mem _ he)

end Fresh

/-! ### What a marked symbol waits for -/

/-- A part of a run keeps the promise for a marked symbol: either it is evaluated as
promised, or nothing has happened and the mark is still there. -/
def Keeps (h : ℕ) (d d' : DutSession S) : Prop :=
  ∃ new, d'.log = d.log ++ new ∧
    (d.topSeen h = kDirtyTop →
      (.evaluated h ∈ new ∧ Fresh h new) ∨ (Untouched h new ∧ d'.topSeen h = kDirtyTop))

namespace Keeps

variable {h : ℕ} {d d' d'' : DutSession S}

/-- A part of a run that does not touch the symbol. -/
theorem of_untouched {new : List Event} (hlog : d'.log = d.log ++ new) (hun : Untouched h new)
    (hmark : d.topSeen h = kDirtyTop → d'.topSeen h = kDirtyTop) : Keeps h d d' :=
  ⟨new, hlog, fun hm => .inr ⟨hun, hmark hm⟩⟩

/-- A part of a run that does nothing for the promise. -/
theorem of_log_eq (hlog : d'.log = d.log) (hmark : d.topSeen h = kDirtyTop → d'.topSeen h = kDirtyTop) :
    Keeps h d d' :=
  of_untouched (by rw [hlog, List.append_nil]) Untouched.nil hmark

theorem refl (d : DutSession S) : Keeps h d d := of_log_eq rfl id

/-- Parts of a run one after the other. -/
theorem trans (hk : Keeps h d d') (hk' : Keeps h d' d'') : Keeps h d d'' := by
  obtain ⟨new, hlog, hnew⟩ := hk
  obtain ⟨new', hlog', hnew'⟩ := hk'
  refine ⟨new ++ new', by rw [hlog', hlog, List.append_assoc], fun hm => ?_⟩
  obtain ⟨hev, hf⟩ | ⟨hu, hmark⟩ := hnew hm
  · exact .inl ⟨List.mem_append_left _ hev, hf.append hev⟩
  · obtain ⟨hev, hf⟩ | ⟨hu', hmark'⟩ := hnew' hmark
    · exact .inl ⟨List.mem_append_right _ hev, hf.prepend hu⟩
    · exact .inr ⟨hu.append hu', hmark'⟩

theorem fresh (hk : Keeps h d d') (hmark : d.topSeen h = kDirtyTop) : Fresh h (d'.log.drop d.log.length) := by
  obtain ⟨new, hlog, hnew⟩ := hk
  rw [hlog, List.drop_left]
  exact (hnew hmark).elim (fun hf => hf.2) fun hu => Fresh.of_untouched hu.1

end Keeps

variable [Strategy S]

theorem keeps_forget (d : DutSession S) (h x : ℕ) : Keeps h d (d.forget x) :=
  .of_untouched rfl ⟨by simp, by simp⟩ id

/-- The quote of another symbol leaves the mark. -/
theorem keeps_quote_of_ne {h x : ℕ} (hx : h ≠ x) (d : DutSession S) : Keeps h d (d.quote x) := by
  obtain ⟨pre, ps, hq⟩ := quote_quoted d x
  refine .of_untouched hq.log (Untouched.of_isFor hx hq.isFor) fun hmark => ?_
  rw [hq.topSeen, Function.update_of_ne hx]
  exact hmark

/-- `requote` for another symbol leaves the mark. -/
theorem keeps_requote_of_ne {h x : ℕ} (hx : h ≠ x) (d : DutSession S) : Keeps h d (d.requote x) := by
  unfold requote
  split_ifs
  · exact Keeps.refl d
  · exact (keeps_forget d h x).trans (keeps_quote_of_ne hx _)
  · exact keeps_quote_of_ne hx d

/-- A symbol that may not trade is made to forget before its quotes are pulled. -/
theorem keeps_quote_of_stopped {d : DutSession S} {h : ℕ} (hall : ¬ d.tradingAllowed h) :
    Keeps h d (d.quote h) := by
  obtain ⟨pre, ps, hq⟩ := quote_quoted d h
  have hpre := hq.pre_eq
  rw [if_neg hall] at hpre
  subst hpre
  exact ⟨_, hq.log, fun _ => .inl ⟨by simp, Fresh.evaluation (m := [.forgot h]) (by simp) (by simp) hq.only⟩⟩

/-- The quotes of some symbols, of which the marked one may not trade. -/
theorem keeps_foldl_quote {h : ℕ} (hs : List ℕ) (d : DutSession S) (hall : ¬ d.tradingAllowed h) :
    Keeps h d (hs.foldl quote d) := by
  induction hs generalizing d with
  | nil => exact Keeps.refl d
  | cons x hs ih =>
      obtain ⟨pre, ps, hq⟩ := quote_quoted d x
      have hrest := ih (d.quote x) (by rw [hq.tradingAllowed]; exact hall)
      by_cases hx : h = x
      · subst hx
        exact (keeps_quote_of_stopped hall).trans hrest
      · exact (keeps_quote_of_ne hx d).trans hrest

/-- A marked symbol whose book does not show the mark is evaluated afresh. -/
theorem requote_fresh {d : DutSession S} {h : ℕ} (hmark : d.topSeen h = kDirtyTop)
    (htop : (d.books.hotBook h).topVersion ≠ kDirtyTop) :
    ∃ m ps, (d.requote h).log = d.log ++ (m ++ .evaluated h :: ps) ∧ (∀ e ∈ m, e = .forgot h) ∧ m ≠ [] ∧
      ∀ e ∈ ps, ∃ o ok, e = .produced h o ok := by
  unfold requote
  rw [if_neg (by rw [hmark]; exact htop), if_pos hmark]
  obtain ⟨pre, ps, hq⟩ := quote_quoted (d.forget h) h
  refine ⟨.forgot h :: pre, ps, by rw [hq.log]; simp [forget, note], fun e he => ?_, by simp, hq.only⟩
  obtain rfl | he := List.mem_cons.mp he
  · rfl
  · rw [hq.pre_eq] at he
    split_ifs at he
    · cases he
    · exact List.mem_singleton.mp he

/-! ### Messages and packets -/

/-- When a message for the marked symbol has been applied: does the book not show the
mark as its version? -/
def Distinct (d : DutSession S) (n : ℕ) (msg : List UInt8) (h : ℕ) : Prop :=
  d.topSeen h = kDirtyTop → (d.applyMessage n msg).2 = some h →
    ((d.applyMessage n msg).1.books.hotBook h).topVersion ≠ kDirtyTop

instance (d : DutSession S) (n : ℕ) (msg : List UInt8) (h : ℕ) : Decidable (d.Distinct n msg h) := by
  unfold Distinct; infer_instance

omit [Strategy S] in
theorem topSeen_applyMessage (d : DutSession S) (n : ℕ) (msg : List UInt8) :
    (d.applyMessage n msg).1.topSeen = d.topSeen := by
  have hr := applyMessage_receives d n msg
  revert hr
  generalize d.applyMessage n msg = r
  intro hr
  cases hr with
  | event code => cases code <;> rfl
  | skipped => rfl
  | applied => rfl

/-- One message keeps the promise. -/
theorem keeps_handle {d : DutSession S} {n : ℕ} {msg : List UInt8} {h : ℕ} (hdist : d.Distinct n msg h) :
    Keeps h d (d.handle n msg) := by
  have htop := congrFun (topSeen_applyMessage d n msg) h
  obtain ⟨new, hm, hnew⟩ := applyMessage_handles d n msg
  by_cases hr : (d.applyMessage n msg).2 = some h
  · rw [handle_of_some hr]
    obtain ⟨qs, hq, -⟩ := requote_quotes (d.applyMessage n msg).1 h
    by_cases hmark : d.topSeen h = kDirtyTop
    · -- its quote is fresh
      obtain ⟨m, ps, hlog, hforgot, hne, hps⟩ := requote_fresh (htop.trans hmark) (hdist hmark hr)
      refine ⟨new ++ (m ++ .evaluated h :: ps), by rw [hlog, hm.log, List.append_assoc],
        fun _ => .inl ⟨by simp, ?_⟩⟩
      obtain rfl | ⟨-, rfl⟩ := hnew
      · exact Fresh.evaluation hforgot hne hps
      · rw [hr]
        exact Fresh.message hforgot hne hps
    · exact ⟨new ++ qs, by rw [hq.log, hm.log, List.append_assoc], fun hmark' => absurd hmark' hmark⟩
  · -- the message touches nothing that the promise is about
    have hun : Untouched h new := by
      obtain rfl | ⟨-, rfl⟩ := hnew
      · exact Untouched.nil
      · refine ⟨by simp, fun n' msg' he => hr ?_⟩
        simp only [List.mem_singleton, Event.applied.injEq] at he
        exact he.2.2.symm
    have hfirst : Keeps h d (d.applyMessage n msg).1 := .of_untouched hm.log hun fun hmark => htop.trans hmark
    unfold handle
    revert hr hfirst
    rcases d.applyMessage n msg with ⟨d', _ | x⟩
    · exact fun _ hfirst => hfirst
    · exact fun hr hfirst => hfirst.trans (keeps_requote_of_ne (fun he => hr (by rw [he])) d')

/-- The message loop keeps the promise. -/
theorem keeps_handleAll {h : ℕ} (msgs : List (List UInt8)) (d : DutSession S) (n : ℕ)
    (hdist : ∀ pre msg post, msgs = pre ++ msg :: post → (d.handleAll n pre).Distinct (n + pre.length) msg h) :
    Keeps h d (d.handleAll n msgs) := by
  induction msgs generalizing d n with
  | nil => exact Keeps.refl d
  | cons msg msgs ih =>
      have hfirst : Keeps h d (d.handle n msg) := keeps_handle (hdist [] msg msgs rfl)
      refine hfirst.trans (ih (d.handle n msg) (n + 1) fun pre m post heq => ?_)
      have := hdist (msg :: pre) m post (by rw [heq]; rfl)
      rw [List.length_cons, ← Nat.add_assoc, Nat.add_right_comm] at this
      exact this

/-- The packets that do not lose a mark: no message for the marked symbol finds a book
with the mark as its version, and if all symbols are quoted at the end then the symbol
is no longer marked, or may not trade. -/
def KeepsMark (h : ℕ) (d : DutSession S) (i : Input) : Prop :=
  ∀ pkt, i = .packet pkt → d.Accepts pkt →
    (∀ pre msg post, Mold.messages pkt = pre ++ msg :: post →
      (d.upTo pkt pre).Distinct (Mold.sequenceOf pkt + pre.length) msg h) ∧
    ((d.afterMessages pkt).reconcileAll → (d.afterMessages pkt).topSeen h = kDirtyTop →
      ¬ (d.afterMessages pkt).tradingAllowed h)

theorem keeps_finish {d : DutSession S} {pkt : List UInt8} {h : ℕ}
    (hall : d.reconcileAll → d.topSeen h = kDirtyTop → ¬ d.tradingAllowed h) : Keeps h d (d.finish pkt) := by
  obtain ⟨new, hf⟩ := finish_finishes d pkt
  by_cases hmark : d.topSeen h = kDirtyTop
  · unfold finish
    split_ifs with hr
    · have hq := keeps_foldl_quote (List.range d.books.hotCount) { d with reconcileAll := false }
        (hall hr hmark)
      have hfirst : Keeps h d { d with reconcileAll := false } := .of_log_eq rfl id
      exact (hfirst.trans hq).trans (.of_log_eq rfl id)
    · exact .of_log_eq rfl id
  · exact ⟨new, hf.log, fun hmark' => absurd hmark' hmark⟩

theorem keeps_applyPacket {d : DutSession S} {pkt : List UInt8} {h : ℕ} (hkm : KeepsMark h d (.packet pkt)) :
    Keeps h d (d.applyPacket pkt) := by
  by_cases hacc : d.Accepts pkt
  · obtain ⟨hdist, hall⟩ := hkm pkt rfl hacc
    rw [applyPacket_of_accepts hacc]
    have hbegin : Keeps h d (d.begin pkt) := by
      obtain ⟨hb, -⟩ := begin_spec d pkt
      refine .of_untouched hb.log Untouched.nil fun hmark => ?_
      unfold begin
      simp only
      split_ifs <;> exact hmark
    have hloop : Keeps h (d.begin pkt) (d.afterMessages pkt) := keeps_handleAll _ _ _ hdist
    exact (hbegin.trans hloop).trans (keeps_finish hall)
  · obtain he | ⟨-, he⟩ := applyPacket_of_not_accepts hacc
    · rw [he]; exact Keeps.refl d
    · rw [he]; exact .of_log_eq rfl id

/-! ### Runs -/

omit [Strategy S] in
/-- An answer keeps the marks. -/
theorem marked_applyAck {d : DutSession S} {h : ℕ} (hmark : d.topSeen h = kDirtyTop) (ouch : List UInt8) :
    (d.applyAck ouch).topSeen h = kDirtyTop := by
  unfold applyAck
  simp only
  cases (d.oms.onAck ouch).ackSym with
  | none => exact hmark
  | some sym =>
      simp only
      split_ifs
      · by_cases hx : h = sym
        · rw [hx, Function.update_self]
        · rw [Function.update_of_ne hx]; exact hmark
      · exact hmark

theorem keeps_warmQuotePath (d : DutSession S) (h : ℕ) : Keeps h d d.warmQuotePath := by
  have hfold : ∀ (hs : List ℕ) (e : DutSession S), Keeps h e (hs.foldl warm e) := by
    intro hs
    induction hs with
    | nil => exact Keeps.refl
    | cons x hs ih =>
        intro e
        have hone : Keeps h e (e.warm x) := .of_untouched rfl ⟨by simp, by simp⟩ id
        exact hone.trans (ih (e.warm x))
  exact (hfold (List.range d.books.hotCount) d).trans (.of_log_eq rfl id)

/-- Every step that does not lose the mark keeps the promise. -/
theorem keeps_step {d : DutSession S} {i : Input} {h : ℕ} (hkm : KeepsMark h d i) : Keeps h d (d.step i) := by
  cases i with
  | packet bytes => exact keeps_applyPacket hkm
  | ack bytes => exact .of_log_eq rfl fun hmark => marked_applyAck hmark bytes
  | coldFrame => exact .of_log_eq rfl id
  | warmUp => exact keeps_warmQuotePath d h
  | testOrder =>
      have hone : Keeps h d d.sendTestOrder := .of_untouched rfl ⟨by simp, by simp⟩ id
      exact hone

theorem keeps_run {h : ℕ} (ins : List Input) (d : DutSession S) (hkm : EachStep (KeepsMark h) d ins) :
    Keeps h d (d.run ins) := by
  induction ins generalizing d with
  | nil => exact Keeps.refl d
  | cons i ins ih => exact (keeps_step hkm.1).trans (ih (d.step i) hkm.2)

/-- Is the hot symbol marked already, or does the answer leave the slots that wait for
a replace alone? -/
def LeavesMark (d : DutSession S) (ouch : List UInt8) (h : ℕ) : Prop :=
  d.topSeen h = kDirtyTop ∨ ∀ side,
    (∀ r, Ouch.decodeOut ouch = some (.replaced r) → ¬ (d.oms.slots h side).Awaits r.userRefNum) ∧
    ∀ r, Ouch.decodeOut ouch = some (.rejected r) → ¬ (d.oms.slots h side).Awaits r.userRefNum

omit [Strategy S] in
/-- An answer that frees an order of a hot symbol, and does not go to a slot waiting for
a replace, marks the symbol. -/
theorem topSeen_applyAck {d : DutSession S} (hd : d.Sound) {ouch : List UInt8} {h : ℕ}
    (hfree : Frees d (d.applyAck ouch) h) (hmark : d.LeavesMark ouch h) :
    (d.applyAck ouch).topSeen h = kDirtyTop := by
  obtain hmark | hmark := hmark
  · exact marked_applyAck hmark ouch
  -- nothing is freed where the slots and the account are the same
  have hsame : (∀ side, (d.oms.onAck ouch).slots h side = d.oms.slots h side) →
      (d.oms.onAck ouch).acct h = d.oms.acct h → False := by
    rintro hslots hacct
    obtain ⟨side, hp, hn⟩ | hp := hfree
    · exact hn ((congrArg (fun s : QuoteSlot => s.state.Pending) (hslots side)).mpr hp)
    · exact hp (congrArg Account.position hacct)
  cases hdec : Ouch.decodeOut ouch with
  | none => exact (hsame (fun _ => by rw [OrderManager.onAck, hdec]) (by rw [OrderManager.onAck, hdec])).elim
  | some m =>
      have hack : d.oms.onAck ouch = ({ d.oms with ackSym := none } : OrderManager).onAckMsg m := by
        rw [OrderManager.onAck, hdec]
      have hans := OrderManager.onAckMsg_answers { d.oms with ackSym := none } m
      rw [← hack] at hans
      cases hans with
      | nothing hslots hacct => exact (hsame (fun side => by rw [hslots]) (by rw [hacct])).elim
      | byRef sym side hidle hsym hslots hacct =>
          have hx : h = sym := by
            by_contra hne
            exact hsame (fun side' => hslots (h, side') fun he => hne (Prod.ext_iff.mp he).1) (hacct h hne)
          have hhot : h < d.books.hotCount := by
            by_contra hge
            exact hidle (by rw [← hx]; exact hd.idle h (by omega) side)
          unfold applyAck
          simp only [hsym, ← hx, if_pos hhot, Function.update_self]
      | byPending sym side userRef hm hawaits hslots hacct =>
          have hx : h = sym := by
            by_contra hne
            exact hsame (fun side' => hslots (h, side') fun he => hne (Prod.ext_iff.mp he).1) (by rw [hacct])
          subst hx
          obtain ⟨r, rfl, rfl⟩ | ⟨r, rfl, rfl⟩ := hm
          · exact absurd hawaits ((hmark side).1 r hdec)
          · exact absurd hawaits ((hmark side).2 r hdec)

/-- **An answer brings a fresh evaluation**: after every run of a session, an answer that
frees an order of a hot symbol or changes its position is followed by an evaluation of
the symbol after its strategy has forgotten, at the latest with the symbol's next
message, as long as the answer does not go to a slot waiting for a replace and no
packet loses the mark. -/
theorem fresh_after_answer (cfg : DutConfig) (strat : S) (link : ℕ → Bool) (pre : List Input)
    (ouch : List UInt8) (post : List Input) (h : ℕ)
    (hfree : Frees ((new cfg strat link).run pre) (((new cfg strat link).run pre).applyAck ouch) h)
    (hmark : ((new cfg strat link).run pre).LeavesMark ouch h)
    (hpost : EachStep (KeepsMark h) (((new cfg strat link).run pre).applyAck ouch) post) :
    let d := ((new cfg strat link).run pre).applyAck ouch
    Fresh h ((d.run post).log.drop d.log.length) :=
  (keeps_run post _ hpost).fresh (topSeen_applyAck ((sound_new cfg strat link).run pre) hfree hmark)

/-- A bid is accepted, and a trading action follows. -/
theorem fresh_after_answer_sample :
    let d := ((oneSymbol false [sampleBid]).run [packetOf 1 [systemEvent 81]]).applyAck (acceptanceBytes 1 5)
    Fresh 0 ((d.run [packetOf 2 [tradingAction 84]]).log.drop d.log.length) := by
  refine fresh_after_answer _ _ _ _ _ _ 0 (.inl ⟨.buy, by decide, by decide⟩) (.inr fun side => ?_) ⟨?_, trivial⟩
  · have hdec : Ouch.decodeOut (acceptanceBytes 1 5) = some (.accepted ⟨1, .buy, 5, 0, 0, .live⟩) := by decide
    rw [hdec]
    exact ⟨fun _ he => (by cases he), fun _ he => (by cases he)⟩
  · rintro _ ⟨⟩ -
    refine ⟨fun pre msg post heq => ?_, fun _ => by decide⟩
    have hmsgs : Mold.messages (Mold.pack [] 2 [tradingAction 84]) = [tradingAction 84] := by decide
    rw [hmsgs] at heq
    cases pre with
    | nil =>
        obtain ⟨rfl, -⟩ := List.cons.inj heq
        decide
    | cons x pre => simp at heq

/-- The acceptance of a replace. -/
def replacementBytes (userRef qty price : ℕ) : List UInt8 :=
  [85] ++ List.replicate 12 0 ++ Mold.put 4 userRef ++ [66] ++ Mold.put 4 qty ++ List.replicate 8 0 ++
    Mold.put 8 price ++ List.replicate 13 0 ++ [76] ++ List.replicate 16 0

/-- A bid is accepted and then replaced. The replace is accepted, and the next message
for the symbol brings no evaluation. -/
theorem replaced_not_fresh :
    let d := (oneSymbol false [sampleBid, { sampleBid with bidPrice := 101 }]).run
      [packetOf 1 [systemEvent 81], acceptance 1 5, packetOf 2 [tradingAction 84]]
    let d' := d.applyAck (replacementBytes 2 5 101)
    Frees d d' 0 ∧ ¬ Fresh 0 ((d'.run [packetOf 3 [tradingAction 84]]).log.drop d'.log.length) := by
  refine ⟨.inl ⟨.buy, by decide, by decide⟩, fun hf => ?_⟩
  have hlog : ∀ l, l = [Event.applied 3 (tradingAction 84) (some 0)] → ¬ Fresh 0 l := by
    rintro _ rfl hf
    obtain ⟨m₁, m₂, heq, -⟩ := hf.prompt [] _ _ [] rfl (by simp)
    simp at heq
  exact hlog _ (by decide) hf

end TickToTrade.Dut.DutSession
