import TickToTrade.Dut.LazyBooks

/-!
# Late clears are not seen

A table that clears its cold books late shows what a table shows that clears every book at
a restart, as long as its restarts and directory entries are `Timely`: no restart brings
the count of the sessions back to the stamp of a book that it should clear, and no
directory entry makes a hot book of one that is still owed its clear.
-/

namespace TickToTrade.Dut.BookTable

open BookBuilder (Same Clean)

variable {t e : BookTable}

/-! ### What is promised -/

/-- The book has no clear to wait for, or none that would change it. -/
def Current (t : BookTable) (i : ℕ) : Prop := (t.storage i).epoch = t.epoch ∨ Clean (t.storage i)

/-- The restarts and the directory entries at which nothing is missed. -/
def Timely (t : BookTable) : Op → Prop
  | .restart => ∀ i < t.created, (∀ h ∈ t.hots, h.book ≠ some i) → (t.storage i).epoch = (t.epoch + 1) % 2 ^ 32 →
      Clean (t.storage i)
  | .message ⟨locate, .stockDirectory name⟩ => t.cfg.scope ≠ .coldOnly → (t.books locate).hot = none →
      (t.hots.findIdx? fun h => !h.resolved && h.name = name) ≠ none →
      ∀ i, t.knownBook locate name = some i → t.Current i
  | _ => True

/-- The live orders of the books of this session. -/
def currentLive (t : BookTable) : ℤ :=
  ∑ i ∈ Finset.range t.created, if (t.storage i).epoch = t.epoch then (t.storage i).liveOrders else 0

/-- The book that a message is applied to. -/
def addressed (t : BookTable) (msg : Itch.Msg) : Option ℕ :=
  match msg.body with
  | .stockDirectory _ => none
  | .stockDirectoryShort => none
  | .stockTradingAction _ => none
  | .stockTradingActionShort => none
  | _ => if t.skips msg.locate then none else ((t.ensureBook msg.locate).books msg.locate).book

/-- The first table shows what the second one shows, which clears at once: the hot books are the
same, and so is every book of this session; the others are once they are cleared. -/
structure Agrees (t e : BookTable) : Prop where
  hot : ∀ h, Same (t.hotBook h) (e.hotBook h)
  live : t.live = (t.currentLive % 2 ^ 64).toNat
  books : ∀ i < t.created, Settled t.epoch (t.storage i) (e.storage i)

/-! ### The books of the hot symbols -/

/-- The books of the locates, profiles and hot symbols are books of the table. -/
structure Stocked (t : BookTable) : Prop where
  ofLocate : ∀ l i, (t.books l).book = some i → i < t.created
  ofProfile : ∀ name i, t.byName.lookup name = some i → i < t.created
  ofHot : ∀ h ∈ t.hots, ∀ i, h.book = some i → i < t.created

/-- Beside that, the hot books wait for no clear. -/
structure Ready (t : BookTable) : Prop extends Stocked t where
  hot : ∀ h ∈ t.hots, ∀ i, h.book = some i → t.Current i

theorem Makes.storage {f : BookTable → BookTable} (h : Makes f t) :
    (∀ i < t.created, (f t).storage i = t.storage i) ∧
      ∀ i, t.created ≤ i → i < (f t).created → Clean ((f t).storage i) := by
  obtain ⟨made, hcreated, -, -, hs⟩ := h
  rw [hcreated, hs t.storage]
  cases made with
  | none =>
      refine ⟨fun i hi => rfl, fun i hlow hhigh => ?_⟩
      simp only [Option.toList, List.length_nil] at hhigh
      omega
  | some hot =>
      refine ⟨fun i hi => Function.update_of_ne (Nat.ne_of_lt hi) .., fun i hlow hhigh => ?_⟩
      simp only [Option.toList, List.length_singleton] at hhigh
      have hi : i = t.created := by omega
      rw [hi]
      change Clean (Function.update t.storage t.created _ t.created)
      rw [Function.update_self]
      exact BookBuilder.clean_ofConfig _

theorem Makes.current {f : BookTable → BookTable} (h : Makes f t) {i : ℕ} (hi : i < t.created) (hc : t.Current i) :
    (f t).Current i := by
  unfold Current
  rw [h.storage.1 i hi]
  obtain ⟨made, -, hepoch, -, -⟩ := h
  rw [hepoch]
  exact hc

theorem mem_modify {α : Type*} {l : List α} {i : ℕ} {f : α → α} {a : α} (h : a ∈ l.modify i f) :
    a ∈ l ∨ ∃ b ∈ l, a = f b := by
  obtain ⟨j, hj, rfl⟩ := List.mem_iff_getElem.mp h
  rw [List.length_modify] at hj
  rw [List.getElem_modify]
  split_ifs
  · exact .inr ⟨_, List.getElem_mem hj, rfl⟩
  · exact .inl (List.getElem_mem hj)

namespace Ready

/-- The locates and the hot symbols keep their books, or get a current one. -/
theorem makes (h : Ready t) {f : BookTable → BookTable} (hf : Makes f t) (hnames : (f t).byName = t.byName)
    (hbooks : ∀ l i, ((f t).books l).book = some i → (t.books l).book = some i ∨ i < (f t).created)
    (hhots : ∀ s ∈ (f t).hots, ∀ i, s.book = some i → (∃ s' ∈ t.hots, s'.book = some i) ∨ i < (f t).created ∧ (f t).Current i) :
    Ready (f t) := by
  have hgrows : t.created ≤ (f t).created := by
    obtain ⟨made, hcreated, -⟩ := hf
    omega
  refine ⟨⟨fun l i hi => ?_, fun name i hi => ?_, fun s hs i hi => ?_⟩, fun s hs i hi => ?_⟩
  · obtain hold | hnew := hbooks l i hi
    · exact Nat.lt_of_lt_of_le (h.ofLocate l i hold) hgrows
    · exact hnew
  · rw [hnames] at hi
    exact Nat.lt_of_lt_of_le (h.ofProfile name i hi) hgrows
  · obtain ⟨s', hs', hi'⟩ | hnew := hhots s hs i hi
    · exact Nat.lt_of_lt_of_le (h.ofHot s' hs' i hi') hgrows
    · exact hnew.1
  · obtain ⟨s', hs', hi'⟩ | hnew := hhots s hs i hi
    · exact hf.current (h.ofHot s' hs' i hi') (h.hot s' hs' i hi')
    · exact hnew.2

theorem ensureBook (h : Ready t) (locate : ℕ) : Ready (t.ensureBook locate) := by
  obtain ⟨hgrows, hhots, -, hother, -, b, hb, hold⟩ := ensureBook_spec t locate
  refine Ready.makes (f := fun t => t.ensureBook locate) h (makes_ensureBook t locate) hgrows.byName (fun l i hi => ?_) fun s hs i hi => ?_
  · by_cases hl : l = locate
    · subst hl
      rw [hb] at hi
      cases hi
      obtain hold | ⟨-, -, hlt⟩ := hold
      · exact .inl hold
      · exact .inr hlt
    · rw [hother l hl] at hi
      exact .inl hi
  · simp only [hhots] at hs
    exact .inl ⟨s, hs, hi⟩

theorem onDirectory (h : Ready t) {locate : ℕ} {name : List UInt8} (htimely : t.Timely (.message ⟨locate, .stockDirectory name⟩)) :
    Ready (t.onDirectory locate name) := by
  have hmakes := makes_onDirectory t locate name
  -- the book of the entry is known, or new
  have hbook : ∀ {book : Option ℕ}, Gets t (t.onDirectory locate name) (t.knownBook locate name) book → ∀ i, book = some i →
      i < (t.onDirectory locate name).created ∧
        ((∀ j, t.knownBook locate name = some j → t.Current j) → (t.onDirectory locate name).Current i) := by
    rintro book hg i rfl
    obtain hknown | ⟨-, b, hb, hlow, hhigh⟩ := hg
    · have hi : i < t.created := by
        unfold knownBook at hknown
        cases hown : (t.books locate).book with
        | some j =>
            rw [hown] at hknown
            cases hknown
            exact h.ofLocate locate i hown
        | none =>
            rw [hown] at hknown
            exact h.ofProfile name i hknown.symm
      refine ⟨Nat.lt_of_lt_of_le hi ?_, fun hall => hmakes.current hi (hall i hknown.symm)⟩
      obtain ⟨made, hcreated, -⟩ := hmakes
      simp only at hcreated
      omega
    · cases hb
      exact ⟨hhigh, fun _ => .inr (hmakes.storage.2 i hlow hhigh)⟩
  cases onDirectory_directs t locate name with
  | binds j book hnone hj hgrows hg hbooks hbits hhots =>
      refine Ready.makes (f := fun t => t.onDirectory locate name) h hmakes hgrows.byName (fun l i hi => ?_) fun s hs i hi => ?_
      · simp only [hbooks] at hi
        by_cases hl : l = locate
        · subst hl
          rw [Function.update_self] at hi
          exact .inr (hbook hg i hi).1
        · rw [Function.update_of_ne hl] at hi
          exact .inl hi
      · simp only [hhots] at hs
        obtain hold | ⟨s', hs', rfl⟩ := mem_modify hs
        · exact .inl ⟨s, hold, hi⟩
        · simp only at hi
          split_ifs at hi with hcold
          · exact .inl ⟨s', hs', hi⟩
          · obtain ⟨hlt, hcurrent⟩ := hbook hg i hi
            exact .inr ⟨hlt, hcurrent (htimely hcold hnone (by rw [hj]; exact Option.some_ne_none j))⟩
  | leaves book hno hgrows hg hbooks hbits hhots =>
      refine Ready.makes (f := fun t => t.onDirectory locate name) h hmakes hgrows.byName (fun l i hi => ?_) fun s hs i hi => ?_
      · simp only [hbooks] at hi
        by_cases hl : l = locate
        · subst hl
          rw [Function.update_self] at hi
          exact .inr (hbook hg i hi).1
        · rw [Function.update_of_ne hl] at hi
          exact .inl hi
      · simp only [hhots] at hs
        exact .inl ⟨s, hs, hi⟩

theorem setTrading (h : Ready t) (locate : ℕ) (trading : Bool) : Ready (t.setTrading locate trading) := by
  refine Ready.makes (f := fun t => t.setTrading locate trading) h (makes_setTrading t locate trading) ?_ (fun l i hi => ?_)
    fun s hs i hi => ?_
  · unfold BookTable.setTrading
    split <;> rfl
  · unfold BookTable.setTrading at hi
    split at hi
    · exact .inl hi
    · exact .inl hi
  · unfold BookTable.setTrading at hs
    split at hs
    · exact .inl ⟨s, hs, hi⟩
    · obtain hold | ⟨s', hs', rfl⟩ := mem_modify hs
      · exact .inl ⟨s, hold, hi⟩
      · exact .inl ⟨s', hs', hi⟩

theorem applyToBook (h : Ready t) (i : ℕ) (body : Itch.Body) : Ready (t.applyToBook i body) := by
  refine ⟨⟨h.ofLocate, h.ofProfile, h.ofHot⟩, fun s hs j hj => ?_⟩
  have hcurrent := h.hot s hs j hj
  unfold Current at hcurrent ⊢
  unfold BookTable.applyToBook
  simp only
  by_cases hji : j = i
  · rw [hji, Function.update_self]
    refine .inl ((BookBuilder.epoch_apply _ body).trans ?_)
    split_ifs with hne
    · rfl
    · exact not_not.mp hne
  · rw [Function.update_of_ne hji]
    exact hcurrent

end Ready

/-! ### A restart -/

theorem renew_iterate (epoch : ℕ) (b : BookBuilder) (n : ℕ) :
    Same b.clear ((renew epoch)^[n + 1] b) ∧ ((renew epoch)^[n + 1] b).epoch = epoch := by
  have hrenew : ∀ b : BookBuilder, Same b.clear (renew epoch b) := fun b => Same.setEpoch b.clear epoch
  induction n with
  | zero => exact ⟨hrenew b, rfl⟩
  | succ n ih =>
      rw [Function.iterate_succ_apply']
      refine ⟨?_, rfl⟩
      exact ((BookBuilder.clean_clear b).trans ih.1.clear).trans (hrenew _)

/-- A restart clears a hot book and stamps it; it leaves the other books. -/
theorem clearAll_storage (t : BookTable) (i : ℕ) :
    (∃ h ∈ t.hots, h.book = some i) ∧ Same (t.storage i).clear (t.clearAll.storage i) ∧
        (t.clearAll.storage i).epoch = (t.epoch + 1) % 2 ^ 32 ∨
      (∀ h ∈ t.hots, h.book ≠ some i) ∧ t.clearAll.storage i = t.storage i := by
  rw [storage_clearAll]
  by_cases hhot : ∃ h ∈ t.hots, h.book = some i
  · obtain ⟨h, hh, hbook⟩ := hhot
    have hpos : 0 < (t.hots.filter fun h => h.book = some i).length :=
      List.length_pos_of_mem (List.mem_filter.mpr ⟨hh, decide_eq_true hbook⟩)
    obtain ⟨n, hn⟩ := Nat.exists_eq_succ_of_ne_zero (Nat.ne_of_gt hpos)
    rw [hn]
    exact .inl ⟨⟨h, hh, hbook⟩, renew_iterate _ _ n⟩
  · have hnil : (t.hots.filter fun h => h.book = some i) = [] :=
      List.filter_eq_nil_iff.mpr fun h hh hbook => hhot ⟨h, hh, of_decide_eq_true hbook⟩
    rw [hnil]
    exact .inr ⟨fun h hh hbook => hhot ⟨h, hh, hbook⟩, rfl⟩

theorem Ready.clearAll (h : Ready t) : Ready t.clearAll := by
  have hhots : ∀ s ∈ t.clearAll.hots, ∃ s' ∈ t.hots, s'.book = s.book := by
    intro s hs
    obtain ⟨s', hs', rfl⟩ := List.mem_map.mp hs
    exact ⟨s', hs', rfl⟩
  refine ⟨⟨h.ofLocate, h.ofProfile, fun s hs i hi => ?_⟩, fun s hs i hi => ?_⟩
  · obtain ⟨s', hs', hbook⟩ := hhots s hs
    exact h.ofHot s' hs' i (hbook.trans hi)
  · obtain ⟨s', hs', hbook⟩ := hhots s hs
    obtain ⟨-, -, hepoch⟩ | ⟨hnone, -⟩ := clearAll_storage t i
    · exact .inl hepoch
    · exact absurd (hbook.trans hi) (hnone s' hs')

theorem Mirrors.clearAll (h : Mirrors t e) (htimely : t.Timely .restart) : Mirrors t.clearAll e.clearAtOnce := by
  refine ⟨?_, fun i hi => ?_⟩
  · unfold clearAtOnce
    rw [h.same]
    rfl
  · have hcreated : e.created = t.created := by rw [h.same]
    have hi : i < t.created := hi
    have hstorage : e.clearAtOnce.storage i = (e.storage i).clear := if_pos (by rw [hcreated]; exact hi)
    have hcleared := (h.books i hi).clear
    rw [hstorage]
    obtain ⟨-, hsame, hepoch⟩ | ⟨hcold, hsame⟩ := clearAll_storage t i
    · exact .inl ⟨hepoch, hsame.symm.trans hcleared⟩
    · rw [hsame]
      by_cases hepoch : (t.storage i).epoch = (t.epoch + 1) % 2 ^ 32
      · exact .inl ⟨hepoch, (htimely i hi hcold hepoch).trans hcleared⟩
      · exact .inr ⟨hepoch, hcleared⟩

/-! ### The count of the live orders -/

/-- The count is that of the books of this session. -/
def Balanced (t : BookTable) : Prop := t.live = (t.currentLive % 2 ^ 64).toNat

theorem Balanced.makes (h : Balanced t) {f : BookTable → BookTable} (hf : Makes f t) : Balanced (f t) := by
  obtain ⟨hold, hnew⟩ := hf.storage
  obtain ⟨made, hcreated, hepoch, hlive, -⟩ := hf
  have hsum : (f t).currentLive = t.currentLive := by
    unfold currentLive
    refine (Finset.sum_subset (Finset.range_subset_range.mpr (by omega)) fun i hi hout => ?_).symm.trans
      (Finset.sum_congr rfl fun i hi => ?_)
    · rw [Finset.mem_range] at hi hout
      rw [(hnew i (by omega) hi).liveOrders, ite_self]
    · rw [hold i (Finset.mem_range.mp hi), hepoch]
  unfold Balanced
  rw [hlive, hsum]
  exact h

theorem Balanced.applyToBook (h : Balanced t) {i : ℕ} (hi : i < t.created) (body : Itch.Body) : Balanced (t.applyToBook i body) := by
  generalize hb : (if (t.storage i).epoch ≠ t.epoch then { (t.storage i).clear with epoch := t.epoch } else t.storage i) = b
  have happly : t.applyToBook i body = { t with
      storage := Function.update t.storage i (b.apply body)
      live := ((t.live + ((b.apply body).liveOrders - b.liveOrders)) % 2 ^ 64).toNat } := by rw [← hb]; rfl
  have hstamp : (b.apply body).epoch = t.epoch := by
    rw [BookBuilder.epoch_apply, ← hb]
    split_ifs with hne
    · rfl
    · exact not_not.mp hne
  have hbefore : (if (t.storage i).epoch = t.epoch then (t.storage i).liveOrders else 0) = b.liveOrders := by
    rw [← hb]
    by_cases hepoch : (t.storage i).epoch = t.epoch
    · rw [if_pos hepoch, if_neg (not_not.mpr hepoch)]
    · rw [if_neg hepoch, if_pos hepoch]
      exact (BookBuilder.liveOrders_clear (t.storage i)).symm
  have hmem : i ∈ Finset.range t.created := Finset.mem_range.mpr hi
  have hsum : (t.applyToBook i body).currentLive = t.currentLive + ((b.apply body).liveOrders - b.liveOrders) := by
    unfold currentLive
    rw [happly]
    simp only
    rw [← Finset.add_sum_erase _ _ hmem, ← Finset.add_sum_erase _ _ hmem, hbefore, Function.update_self, if_pos hstamp]
    have hrest : ∀ j ∈ (Finset.range t.created).erase i,
        (if (Function.update t.storage i (b.apply body) j).epoch = t.epoch
          then (Function.update t.storage i (b.apply body) j).liveOrders else 0) =
          if (t.storage j).epoch = t.epoch then (t.storage j).liveOrders else 0 := fun j hj => by
      rw [Function.update_of_ne (Finset.ne_of_mem_erase hj)]
    rw [Finset.sum_congr rfl hrest]
    ring
  have hlive : (t.applyToBook i body).live = ((t.live + ((b.apply body).liveOrders - b.liveOrders)) % 2 ^ 64).toNat := by rw [happly]
  unfold Balanced at h ⊢
  rw [hsum, hlive, h]
  omega

theorem Balanced.clearAll (htimely : t.Timely .restart) : Balanced t.clearAll := by
  have hsum : t.clearAll.currentLive = 0 := by
    refine Finset.sum_eq_zero fun i hi => ?_
    have hi : i < t.created := Finset.mem_range.mp hi
    obtain ⟨-, hsame, -⟩ | ⟨hcold, hsame⟩ := clearAll_storage t i
    · rw [hsame.liveOrders, BookBuilder.liveOrders_clear, ite_self]
    · rw [hsame]
      split_ifs with hepoch
      · exact (htimely i hi hcold hepoch).liveOrders
      · rfl
  unfold Balanced
  rw [hsum]
  rfl

/-! ### Every step -/

/-- What is kept at every step. -/
structure InStep (t e : BookTable) : Prop where
  mirrors : Mirrors t e
  ready : Ready t
  balanced : Balanced t

/-- **A message.** -/
theorem InStep.apply (h : InStep t e) {msg : Itch.Msg} (htimely : t.Timely (.message msg)) :
    InStep (t.apply msg).1 (e.applyAtOnce msg).1 ∧ (t.apply msg).2 = (e.applyAtOnce msg).2 ∧
      ∀ i, t.addressed msg = some i → Same ((t.apply msg).1.storage i) ((e.applyAtOnce msg).1.storage i) := by
  obtain ⟨l, body⟩ := msg
  have hbooks : e.books = t.books := by rw [h.mirrors.same]
  have hskips : e.skips l = t.skips l := by rw [h.mirrors.same]; rfl
  have hensured : InStep (t.ensureBook l) (e.ensureBook l) :=
    ⟨Mirrors.makes (f := fun t => t.ensureBook l) h.mirrors (makes_ensureBook t l), h.ready.ensureBook l,
      Balanced.makes (f := fun t => t.ensureBook l) h.balanced (makes_ensureBook t l)⟩
  have hbooks' : (e.ensureBook l).books = (t.ensureBook l).books := by rw [hensured.mirrors.same]
  -- a message for the book of the locate
  have htouch : ∀ body, InStep ((t.ensureBook l).applyToBook (((t.ensureBook l).books l).book.getD 0) body)
        ((e.ensureBook l).applyAtOnceToBook (((e.ensureBook l).books l).book.getD 0) body) ∧
      ∀ i, ((t.ensureBook l).books l).book = some i →
        Same (((t.ensureBook l).applyToBook (((t.ensureBook l).books l).book.getD 0) body).storage i)
          (((e.ensureBook l).applyAtOnceToBook (((e.ensureBook l).books l).book.getD 0) body).storage i) := by
    intro body
    obtain ⟨-, -, -, -, -, i, hi, -⟩ := ensureBook_spec t l
    rw [hbooks', hi, Option.getD_some]
    have hlt := hensured.ready.ofLocate l i hi
    obtain ⟨hmirrors, hsame⟩ := hensured.mirrors.applyToBook hlt body
    refine ⟨⟨hmirrors, hensured.ready.applyToBook i body, hensured.balanced.applyToBook hlt body⟩, fun j hj => ?_⟩
    cases hj
    exact hsame
  cases body
  case stockDirectory name =>
    have hmakes := makes_onDirectory t l name
    have hmirrors := Mirrors.makes (f := fun t => t.onDirectory l name) h.mirrors hmakes
    have hafter : (e.onDirectory l name).books = (t.onDirectory l name).books := by
      have hsame := congrArg BookTable.books hmirrors.same
      exact hsame
    refine ⟨⟨hmirrors, h.ready.onDirectory htimely, Balanced.makes (f := fun t => t.onDirectory l name) h.balanced hmakes⟩, ?_,
      fun i hi => by cases hi⟩
    exact congrArg (fun books : ℕ → Entry => (books l).hot) hafter.symm
  case stockDirectoryShort => exact ⟨h, by rw [show (e.applyAtOnce _).2 = (e.books l).hot from rfl, hbooks]; rfl, fun i hi => by cases hi⟩
  case stockTradingAction state =>
    unfold BookTable.apply applyAtOnce
    simp only
    rw [hskips, hbooks]
    split_ifs
    · exact ⟨h, rfl, fun i hi => nomatch hi⟩
    · have hmakes := makes_setTrading (t.ensureBook l) l (state = .trading)
      exact ⟨⟨Mirrors.makes (f := fun t => t.setTrading l (state = .trading)) hensured.mirrors hmakes,
        hensured.ready.setTrading l _, Balanced.makes (f := fun t => t.setTrading l (state = .trading)) hensured.balanced hmakes⟩,
        rfl, fun i hi => nomatch hi⟩
  case stockTradingActionShort =>
    unfold BookTable.apply applyAtOnce
    simp only
    rw [hskips, hbooks]
    split_ifs
    · exact ⟨h, rfl, fun i hi => nomatch hi⟩
    · exact ⟨hensured, rfl, fun i hi => nomatch hi⟩
  all_goals
    unfold BookTable.apply applyAtOnce addressed
    simp only
    rw [hskips, hbooks]
    split_ifs
    · exact ⟨h, rfl, fun i hi => nomatch hi⟩
    · exact ⟨(htouch _).1, rfl, (htouch _).2⟩

/-- **A restart.** -/
theorem InStep.clearAll (h : InStep t e) (htimely : t.Timely .restart) : InStep t.clearAll e.clearAtOnce :=
  ⟨h.mirrors.clearAll htimely, h.ready.clearAll, Balanced.clearAll htimely⟩

/-- The tables show the same. -/
theorem InStep.agrees (h : InStep t e) : Agrees t e := by
  refine ⟨fun i => ?_, h.balanced, h.mirrors.books⟩
  have hhots : e.hots = t.hots := by rw [h.mirrors.same]
  have hempty : e.empty = t.empty := by rw [h.mirrors.same]
  unfold hotBook
  rw [hhots, hempty]
  cases hs : t.hots[i]? with
  | none => exact Same.refl _
  | some s =>
      have hs' := List.mem_of_getElem? hs
      obtain ⟨name, book, locate, resolved, trading⟩ := s
      cases book with
      | none => exact Same.refl t.empty
      | some j => exact (h.mirrors.books j (h.ready.ofHot _ hs' j rfl)).same (h.ready.hot _ hs' j rfl)

/-! ### Runs -/

theorem stocked_new (cfg : BookTableConfig) : Stocked (BookTable.new cfg) := by
  have hbind : ∀ {t : BookTable}, Stocked t → ∀ locate i, Stocked (t.bindHot locate i) := by
    intro t h locate i
    refine ⟨fun l j hj => ?_, h.ofProfile, fun s hs j hj => ?_⟩
    · by_cases hl : l = locate
      · subst hl
        exact h.ofLocate l j (by simpa [BookTable.bindHot, setEntry, BookTable.setHot] using hj)
      · exact h.ofLocate l j (by simpa [BookTable.bindHot, setEntry, BookTable.setHot, hl] using hj)
    · obtain hold | ⟨s', hs', rfl⟩ := mem_modify hs
      · exact h.ofHot s hold j hj
      · exact h.ofHot s' hs' j hj
  have hcreate : ∀ {t : BookTable}, Stocked t → ∀ locate hot, Stocked (t.create locate hot) := by
    intro t h locate hot
    refine ⟨fun l j hj => ?_, fun name j hj => Nat.lt_succ_of_lt (h.ofProfile name j hj),
      fun s hs j hj => Nat.lt_succ_of_lt (h.ofHot s hs j hj)⟩
    change j < t.created + 1
    by_cases hl : l = locate
    · subst hl
      have hj : some t.created = some j := by simpa [BookTable.create, setEntry] using hj
      cases hj
      exact Nat.lt_succ_self _
    · exact Nat.lt_succ_of_lt (h.ofLocate l j (by simpa [BookTable.create, setEntry, emplace, hl] using hj))
  have hset : ∀ {t : BookTable}, Stocked t → ∀ i (f : HotSymbol → HotSymbol),
      (∀ s j, (f s).book = some j → s.book = some j ∨ j < t.created) → Stocked (t.setHot i f) := by
    intro t h i f hf
    refine ⟨h.ofLocate, h.ofProfile, fun s hs j hj => ?_⟩
    obtain hold | ⟨s', hs', rfl⟩ := mem_modify hs
    · exact h.ofHot s hold j hj
    · obtain hsame | hlt := hf s' j hj
      · exact h.ofHot s' hs' j hsame
      · exact hlt
  refine new_induction (P := Stocked) cfg ⟨fun l i hi => ?_, fun name i hi => ?_, fun s hs i hi => ?_⟩ (fun t i locate h => ?_)
    fun t p h => ?_
  · cases hi
  · cases hi
  · obtain ⟨name, -, rfl⟩ := List.mem_map.mp hs
    cases hi
  · unfold pin
    simp only
    split_ifs
    · have hmade := hcreate (hbind h locate i) locate true
      exact hset hmade i _ fun s j hj => .inr (hmade.ofLocate locate j hj)
    · exact hset (hbind h locate i) i _ fun s j hj => .inr ((hbind h locate i).ofLocate locate j hj)
  · unfold addProfile
    split_ifs
    · exact h
    simp only
    split_ifs
    · exact h
    have hadded : Stocked { t.emplace (configProfiled t.cfg p (t.hotIndexByName p.name).isSome) with
        byName := (p.name, t.created) :: t.byName } := by
      refine ⟨fun l j hj => Nat.lt_succ_of_lt (h.ofLocate l j hj), fun name j hj => ?_,
        fun s hs j hj => Nat.lt_succ_of_lt (h.ofHot s hs j hj)⟩
      change j < t.created + 1
      change ((p.name, t.created) :: t.byName).lookup name = some j at hj
      rw [List.lookup_cons] at hj
      split at hj
      · cases hj
        exact Nat.lt_succ_self _
      · exact Nat.lt_succ_of_lt (h.ofProfile name j hj)
    split
    · exact hadded
    · refine hset hadded _ _ fun s j hj => ?_
      split_ifs at hj
      · cases hj
        exact .inr (Nat.lt_succ_self _)
      · exact .inl hj

theorem inStep_new (cfg : BookTableConfig) : InStep (BookTable.new cfg) (BookTable.new cfg) := by
  have hclean : AllBooks Clean (BookTable.new cfg) :=
    allBooks_new cfg (fun _ => BookBuilder.clean_ofConfig _) fun _ _ => BookBuilder.clean_ofConfig _
  have hstocked := stocked_new cfg
  have hlive : (BookTable.new cfg).live = 0 := by
    refine new_induction (P := fun t => t.live = 0) cfg rfl (fun t i locate h => ?_) fun t p h => ?_
    · unfold pin
      simp only
      split_ifs <;> exact h
    · unfold addProfile
      simp only
      split_ifs
      · exact h
      · exact h
      · split <;> exact h
  have hsum : (BookTable.new cfg).currentLive = 0 := by
    refine Finset.sum_eq_zero fun i hi => ?_
    rw [(hclean i (Finset.mem_range.mp hi)).liveOrders, ite_self]
  refine ⟨⟨rfl, fun i hi => Settled.refl (hclean i hi)⟩, ⟨hstocked, fun s hs i hi => .inr (hclean i (hstocked.ofHot s hs i hi))⟩, ?_⟩
  unfold Balanced
  rw [hlive, hsum]
  rfl

theorem InStep.run {ops : List Op} (h : InStep t e) (htimely : EachOp Timely t ops) : InStep (t.run ops) (e.runAtOnce ops) := by
  induction ops generalizing t e with
  | nil => exact h
  | cons op ops ih =>
      refine ih ?_ htimely.2
      cases op with
      | message msg => exact (h.apply htimely.1).1
      | restart => exact h.clearAll htimely.1

theorem eachOp_append {P : BookTable → Op → Prop} {ops ops' : List Op} :
    EachOp P t (ops ++ ops') ↔ EachOp P t ops ∧ EachOp P (t.run ops) ops' := by
  induction ops generalizing t with
  | nil => exact (and_iff_right trivial).symm
  | cons op ops ih => exact (and_congr_right fun _ => ih).trans and_assoc.symm

/-- **In every run whose restarts and directory entries are timely, the table shows what one
shows that clears every book at a restart**: at all times the hot books are the same and
the count of live orders is that of the books of this session, and every message gets the
same answer and leaves the book that it is applied to the same. -/
theorem late_clears_unseen (cfg : BookTableConfig) (ops : List Op) (htimely : EachOp Timely (BookTable.new cfg) ops) :
    ∀ before after, ops = before ++ after →
      let t := (BookTable.new cfg).run before
      let e := (BookTable.new cfg).runAtOnce before
      Agrees t e ∧ ∀ msg rest, after = .message msg :: rest → (t.apply msg).2 = (e.applyAtOnce msg).2 ∧
        ∀ i, t.addressed msg = some i → Same ((t.apply msg).1.storage i) ((e.applyAtOnce msg).1.storage i) := by
  rintro before after rfl
  obtain ⟨hbefore, hafter⟩ := eachOp_append.mp htimely
  have h := (inStep_new cfg).run hbefore
  refine ⟨h.agrees, ?_⟩
  rintro msg rest rfl
  exact (h.apply hafter.1).2

/-- A table with one hot symbol. -/
def oneHot : BookTableConfig where
  coldBandTicks := 4
  hotBandTicks := 4
  maxBandTicks := 16
  coldMapSlots := 4
  hotMapSlots := 4
  hotSymbols := [[72, 79, 84]]

/-- A bid of locate 1. -/
def sampleBid : Itch.Msg := ⟨1, .addOrder 7 .buy 30 100000⟩

/-- A day after which the symbol of the locate becomes known. -/
def sampleDays : List Op := [.message sampleBid, .restart, .message sampleBid, .message ⟨1, .stockDirectory [72, 79, 84]⟩]

theorem late_clears_sample : Agrees ((BookTable.new oneHot).run sampleDays) ((BookTable.new oneHot).runAtOnce sampleDays) := by
  refine (late_clears_unseen oneHot sampleDays ⟨trivial, ?_, trivial, ?_, trivial⟩ sampleDays [] (List.append_nil _).symm).1
  · intro i hi hcold hepoch
    have hlt : i < 1 := hi
    obtain rfl : i = 0 := by omega
    exact absurd hepoch (by decide +kernel)
  · intro hscope hnone hfind i hi
    have hknown : ((((BookTable.new oneHot).run (sampleDays.take 3))).books 1).book.or none = some i := hi
    obtain rfl : i = 0 := by
      have hzero : ((((BookTable.new oneHot).run (sampleDays.take 3))).books 1).book.or none = some 0 := by decide +kernel
      exact Option.some.inj (hknown.symm.trans hzero)
    exact .inl (by decide +kernel)

/-- A book with a bid is owed its clear when the directory entry makes it the book of a hot
symbol: the bid of the day before stays in the hot book. -/
theorem late_binding :
    let ops := [.message sampleBid, .restart, .message ⟨1, .stockDirectory [72, 79, 84]⟩]
    ¬ Agrees ((BookTable.new oneHot).run ops) ((BookTable.new oneHot).runAtOnce ops) ∧
      (((BookTable.new oneHot).run ops).hotBook 0).bestBid = 100000 ∧
      (((BookTable.new oneHot).runAtOnce ops).hotBook 0).bestBid = kNoPrice := by
  intro ops
  have hlazy : (((BookTable.new oneHot).run ops).hotBook 0).bestBid = 100000 := by decide +kernel
  have heager : (((BookTable.new oneHot).runAtOnce ops).hotBook 0).bestBid = kNoPrice := by decide +kernel
  refine ⟨fun h => ?_, hlazy, heager⟩
  obtain ⟨epoch, version, hsame⟩ := h.hot 0
  rw [hsame] at heager
  rw [show ((((BookTable.new oneHot).run ops).hotBook 0).restamp version epoch).bestBid =
    (((BookTable.new oneHot).run ops).hotBook 0).bestBid from rfl, hlazy] at heager
  exact absurd heager (by decide)

end TickToTrade.Dut.BookTable
