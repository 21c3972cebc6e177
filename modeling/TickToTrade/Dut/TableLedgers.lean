import TickToTrade.Dut.BookStamps
import TickToTrade.Dut.HostileRefs
import TickToTrade.Dut.TableBooks

/-!
# The ledgers of a table

The orders of a locate that are live since the last restart are orders of its book, whether
or not the book has been cleared since (`Tracks`), as long as no message is about an order
that the book has and the session has not.
-/

namespace TickToTrade.Dut

open Util

variable {b : BookBuilder} {f g : FiniteMap Resting}

/-! ### Ledgers within ledgers -/

/-- The orders of `f` are orders of `g`. -/
def Within (f g : FiniteMap Resting) : Prop := ∀ ref o, f.lookup ref = some o → g.lookup ref = some o

namespace Within

theorem empty (g : FiniteMap Resting) : Within ∅ g := by
  intro ref o ho
  rw [Finmap.lookup_empty] at ho
  cases ho

theorem insert (h : Within f g) (ref : ℕ) (r : Resting) : Within (f.insert ref r) (g.insert ref r) := by
  intro k o hk
  by_cases hkr : k = ref
  · rw [hkr, Finmap.lookup_insert] at hk ⊢
    exact hk
  · rw [Finmap.lookup_insert_of_ne _ hkr] at hk ⊢
    exact h k o hk

theorem erase (h : Within f g) (ref : ℕ) : Within (f.erase ref) (g.erase ref) := by
  intro k o hk
  by_cases hkr : k = ref
  · rw [hkr, Finmap.lookup_erase] at hk
    cases hk
  · rw [Finmap.lookup_erase_ne hkr] at hk ⊢
    exact h k o hk

theorem lessen (h : Within f g) {ref : ℕ} (hsame : f.lookup ref = none → g.lookup ref = none) (shares : ℕ) :
    Within (BookBuilder.lessen f ref shares) (BookBuilder.lessen g ref shares) := by
  unfold BookBuilder.lessen
  cases hf : f.lookup ref with
  | none =>
      rw [hsame hf]
      exact h
  | some o =>
      rw [h ref o hf]
      simp only
      split_ifs
      · exact h.erase ref
      · exact h.insert ref _

/-- The same message happens to both, unless it is about an order of the larger one only. -/
theorem account (h : Within f g) {body : Itch.Body}
    (hsame : ∀ ref, BookBuilder.Names ref body → f.lookup ref = none → g.lookup ref = none) (ownRefMin : ℕ) :
    Within (BookBuilder.account ownRefMin f body) (BookBuilder.account ownRefMin g body) := by
  cases body with
  | addOrder ref side shares price =>
      simp only [BookBuilder.account]
      split_ifs
      · exact h
      · exact h.insert ref _
  | orderExecuted ref shares mn => exact h.lessen (hsame ref rfl) shares
  | orderExecutedWithPrice ref shares mn price => exact h.lessen (hsame ref rfl) shares
  | orderCancel ref shares => exact h.lessen (hsame ref rfl) shares
  | orderDelete ref => exact h.erase ref
  | orderReplace orig new shares price =>
      simp only [BookBuilder.account]
      cases hf : f.lookup orig with
      | none =>
          rw [hsame orig rfl hf]
          exact h
      | some o =>
          rw [h orig o hf]
          simp only
          split_ifs
          · exact h.erase orig
          · exact (h.erase orig).insert new _
  | _ => exact h

end Within

/-! ### Books and their ledgers -/

theorem BookBuilder.Records.clear (h : b.Records f) : b.clear.Records ∅ := by
  have hnone : ∀ (ref : ℕ) (o : Resting), (∅ : FiniteMap Resting).lookup ref = some o → 0 < o.shares ∧ o.shares < 2 ^ 30 :=
    fun ref o ho => by rw [Finmap.lookup_empty] at ho; cases ho
  unfold BookBuilder.clear
  simp only
  split_ifs with hempty
  · -- the early exit: no order is left
    have hcard := h.refines.card
    rw [hempty.1] at hcard
    have hf : f = ∅ := Finmap.ext_lookup fun ref => by
      rw [Finmap.lookup_empty, Finmap.lookup_eq_none]
      have hkeys : f.keys = ∅ := Finset.card_eq_zero.mp (by exact_mod_cast hcard.symm)
      rw [← Finmap.mem_keys, hkeys]
      exact Finset.notMem_empty ref
    rw [← hf]
    exact h.congr rfl
  · exact ⟨FlatHashMap.refines_ofLogCap _, hnone⟩

theorem ownRefMin_clear (b : BookBuilder) : b.clear.ownRefMin = b.ownRefMin := by
  unfold BookBuilder.clear
  simp only
  split_ifs <;> rfl

theorem ownRefMin_ofConfig (cfg : BookConfig) : (BookBuilder.ofConfig cfg).ownRefMin = cfg.ownRefMin := by
  unfold BookBuilder.ofConfig
  simp only
  split_ifs
  · exact (BookBuilder.frame_anchor _ _ _).ownRefMin
  · rfl

/-- The shares of an order, from the ledger. -/
theorem BookBuilder.Records.restingShares_eq (h : b.Records f) {ref : ℕ} (h0 : ref ≠ 0) :
    b.restingShares ref = ((f.lookup ref).map Resting.shares).getD 0 := by
  have hlookup := (h.refines.find h0).2
  unfold BookBuilder.restingShares
  rw [← hlookup]
  cases b.orders.find ref <;> rfl

theorem BookBuilder.Records.restingShares_eq_zero (h : b.Records f) {ref : ℕ} (h0 : ref ≠ 0) :
    b.restingShares ref = 0 ↔ f.lookup ref = none := by
  rw [h.restingShares_eq h0]
  cases hf : f.lookup ref with
  | none => exact iff_of_true rfl rfl
  | some o =>
      have hpos := (h.shares ref o hf).1
      exact iff_of_false (Nat.ne_of_gt hpos) (Option.some_ne_none o)

/-! ### The table -/

namespace BookTable

variable {t : BookTable} {home : List UInt8 → ℕ} {locate : ℕ}

/-- A book with the references of the table's configuration, and with a ledger. -/
def Kept (t : BookTable) (b : BookBuilder) : Prop := b.ownRefMin = t.cfg.ownRefMin ∧ ∃ g, b.Records g

/-- The orders `f` of the locate are orders of its book. If a restart is still to clear the
book, there are none. -/
structure Tracks (home : List UInt8 → ℕ) (locate : ℕ) (t : BookTable) (f : FiniteMap Resting) : Prop
    extends Housed home t where
  kept : AllBooks (Kept t) t
  bookless : (t.books locate).book = none → f = ∅
  held : ∀ i, (t.books locate).book = some i → ∃ g, (t.storage i).Records g ∧ Within f g
  stale : ∀ i, (t.books locate).book = some i → (t.storage i).epoch ≠ t.epoch → f = ∅

theorem kept_ofConfig (cfg : BookConfig) (h : cfg.ownRefMin = t.cfg.ownRefMin) : Kept t (BookBuilder.ofConfig cfg) :=
  ⟨(ownRefMin_ofConfig cfg).trans h, ∅, (BookBuilder.Built.ofConfig cfg).records⟩

theorem kept_configFor (hot : Bool) : Kept t (BookBuilder.ofConfig (configFor t.cfg hot)) := kept_ofConfig _ rfl

theorem kept_renew {b : BookBuilder} (h : Kept t b) (epoch : ℕ) : Kept t (renew epoch b) :=
  ⟨(ownRefMin_clear b).trans h.1, ∅, h.2.choose_spec.clear.congr rfl⟩

namespace Tracks

/-- With no live orders there is nothing to hold. -/
theorem of_empty (hh : Housed home t) (hk : AllBooks (Kept t) t) : Tracks home locate t ∅ where
  toHoused := hh
  kept := hk
  bookless _ := rfl
  held i hi := by
    obtain ⟨-, g, hg⟩ := hk i (hh.made _ i hi)
    exact ⟨g, hg, Within.empty g⟩
  stale _ _ _ := rfl

theorem clearAll (h : Tracks home locate t f) : Tracks home locate t.clearAll ∅ :=
  of_empty (h.toHoused.congr (fun _ => rfl) rfl (Nat.le_refl _)) (h.kept.clearAll fun _ _ hb => kept_renew hb _)

/-- The books keep their places, and the locate's book stays. -/
theorem of_grows (h : Tracks home locate t f) {t' : BookTable} (hg : Grows t t') (hh : Housed home t')
    (hk : AllBooks (Kept t') t')
    (hbook : ∀ i, (t.books locate).book = some i → (t'.books locate).book = some i) : Tracks home locate t' f := by
  cases hb : (t.books locate).book with
  | none =>
      rw [h.bookless hb]
      exact of_empty hh hk
  | some i =>
      have hi := h.made locate i hb
      have hsame : ∀ j, (t'.books locate).book = some j → j = i := fun j hj => by
        rw [hbook i hb] at hj
        exact (Option.some.inj hj).symm
      refine ⟨hh, hk, fun hnone => ?_, fun j hj => ?_, fun j hj hepoch => ?_⟩
      · rw [hbook i hb] at hnone
        cases hnone
      · rw [hsame j hj, hg.storage i hi]
        exact h.held i hb
      · rw [hsame j hj, hg.storage i hi, hg.epoch] at hepoch
        exact h.stale i hb hepoch

theorem onDirectory (h : Tracks home locate t f) {l : ℕ} {name : List UInt8} (hhome : home name = l) :
    Tracks home locate (t.onDirectory l name) f := by
  have hh := h.toHoused.onDirectory hhome
  have hk := h.kept.onDirectory kept_configFor l name
  have hstays : ∀ {book : Option ℕ}, Gets t (t.onDirectory l name) (t.knownBook l name) book →
      (∀ l', (t.onDirectory l name).books l' = if l' = l then { t.books l with book := book, hot := ((t.onDirectory l name).books l).hot } else t.books l') →
      ∀ i, (t.books locate).book = some i → ((t.onDirectory l name).books locate).book = some i := by
    intro book hgets hbooks i hi
    rw [hbooks]
    split_ifs with hl
    · subst hl
      have hknown : t.knownBook locate name = some i := by rw [knownBook, hi]; rfl
      obtain hb | ⟨hnone, -⟩ := hgets
      · rw [hb, hknown]
      · rw [hknown] at hnone
        cases hnone
    · exact hi
  cases onDirectory_directs t l name with
  | binds i book hnone hi hgrows hgets hbooks hbits hhots =>
      refine h.of_grows hgrows hh (by unfold Kept; rw [hgrows.cfg]; exact hk) (hstays hgets fun l' => ?_)
      rw [hbooks]
      split_ifs with hl
      · rw [hl, Function.update_self]
      · rw [Function.update_of_ne hl]
  | leaves book hno hgrows hgets hbooks hbits hhots =>
      refine h.of_grows hgrows hh (by unfold Kept; rw [hgrows.cfg]; exact hk) (hstays hgets fun l' => ?_)
      rw [hbooks]
      split_ifs with hl
      · rw [hl, Function.update_self]
      · rw [Function.update_of_ne hl]

theorem ensureBook (h : Tracks home locate t f) (l : ℕ) : Tracks home locate (t.ensureBook l) f := by
  obtain ⟨hgrows, -, -, hother, -, b, hb, hold⟩ := ensureBook_spec t l
  refine h.of_grows hgrows (h.toHoused.ensureBook l) ?_ fun i hi => ?_
  · have hk := h.kept.ensureBook kept_configFor l
    unfold Kept
    rw [hgrows.cfg]
    exact hk
  · by_cases hl : locate = l
    · subst hl
      obtain hold | ⟨hnone, -⟩ := hold
      · rw [hb, ← hold, hi]
      · rw [hnone] at hi
        cases hi
    · rw [hother locate hl]
      exact hi

theorem setTrading (h : Tracks home locate t f) (l : ℕ) (trading : Bool) : Tracks home locate (t.setTrading l trading) f := by
  unfold BookTable.setTrading
  split
  · exact h
  · exact ⟨h.toHoused.congr (fun _ => rfl) rfl (Nat.le_refl _), h.kept, h.bookless, h.held, h.stale⟩

/-- A message for the book `i`. -/
theorem applyToBook (h : Tracks home locate t f) {l i : ℕ} (hi : (t.books l).book = some i) {body : Itch.Body}
    (hexpected : ∀ b : BookBuilder, b.Expected body)
    (hrefs : ∀ ref, BookBuilder.Names ref body → ref ≠ 0)
    (hsame : l = locate → ∀ ref, BookBuilder.Names ref body → f.lookup ref = none → (t.storage i).restingShares ref = 0) :
    Tracks home locate (t.applyToBook i body) (if l = locate then BookBuilder.account t.cfg.ownRefMin f body else f) := by
  generalize hb : (if (t.storage i).epoch ≠ t.epoch then { (t.storage i).clear with epoch := t.epoch } else t.storage i) = b
  have hstorage : (t.applyToBook i body).storage = Function.update t.storage i (b.apply body) := by rw [← hb]; rfl
  have hcreated := h.made l i hi
  have hkept : Kept t b := by
    rw [← hb]
    split_ifs
    · exact kept_renew (h.kept i hcreated) t.epoch
    · exact h.kept i hcreated
  have hone : ∀ g, b.Records g → (b.apply body).Records (BookBuilder.account t.cfg.ownRefMin g body) := fun g hg => by
    rw [← hkept.1]
    exact BookBuilder.records_apply hg (hexpected b)
  have hepoch : (b.apply body).epoch = t.epoch := by
    rw [BookBuilder.epoch_apply, ← hb]
    split_ifs with hne
    · rfl
    · exact not_not.mp hne
  have hall : AllBooks (Kept t) (t.applyToBook i body) := by
    intro j hj
    rw [hstorage]
    by_cases hji : j = i
    · obtain ⟨hown, g, hg⟩ := hkept
      rw [hji, Function.update_self]
      exact ⟨(BookBuilder.ownRefMin_apply b body).trans hown, _, hone g hg⟩
    · rw [Function.update_of_ne hji]
      exact h.kept j hj
  have hhoused : Housed home (t.applyToBook i body) := h.toHoused.congr (fun _ => rfl) rfl (Nat.le_refl _)
  by_cases hl : l = locate
  · subst hl
    rw [if_pos rfl]
    have hheld : ∃ g, b.Records g ∧ Within f g ∧ ∀ ref, BookBuilder.Names ref body → f.lookup ref = none → g.lookup ref = none := by
      obtain ⟨g, hg, hwithin⟩ := h.held i hi
      rw [← hb]
      split_ifs with hne
      · rw [h.stale i hi hne]
        exact ⟨∅, hg.clear.congr rfl, Within.empty ∅, fun ref _ _ => Finmap.lookup_empty ref⟩
      · exact ⟨g, hg, hwithin, fun ref hn hf => (hg.restingShares_eq_zero (hrefs ref hn)).mp (hsame rfl ref hn hf)⟩
    obtain ⟨g, hg, hwithin, hagree⟩ := hheld
    have hself : ∀ j, (t.books l).book = some j → j = i := fun j hj => by
      rw [hi] at hj
      exact (Option.some.inj hj).symm
    refine ⟨hhoused, hall, fun hnone => ?_, fun j hj => ?_, fun j hj hne => ?_⟩
    · rw [show ((t.applyToBook i body).books l).book = some i from hi] at hnone
      cases hnone
    · rw [hself j hj, hstorage, Function.update_self]
      exact ⟨_, hone g hg, hwithin.account hagree _⟩
    · rw [hself j hj, hstorage, Function.update_self] at hne
      exact absurd hepoch hne
  · rw [if_neg hl]
    have hother : ∀ j, (t.books locate).book = some j → (t.applyToBook i body).storage j = t.storage j := fun j hj => by
      rw [hstorage, Function.update_of_ne]
      rintro rfl
      exact hl (h.apart l locate j hi hj)
    refine ⟨hhoused, hall, h.bookless, fun j hj => ?_, fun j hj hne => ?_⟩
    · rw [hother j hj]
      exact h.held j hj
    · rw [hother j hj] at hne
      exact h.stale j hj hne

/-- A message that the table keeps a book for. -/
theorem applyToOwn (h : Tracks home locate t f) (l : ℕ) {body : Itch.Body} (hexpected : ∀ b : BookBuilder, b.Expected body)
    (hrefs : ∀ ref, BookBuilder.Names ref body → ref ≠ 0)
    (hsame : l = locate → ∀ ref, BookBuilder.Names ref body → f.lookup ref = none →
      ∀ i, (t.books locate).book = some i → (t.storage i).restingShares ref = 0) :
    Tracks home locate ((t.ensureBook l).applyToBook (((t.ensureBook l).books l).book.getD 0) body)
      (if l = locate then BookBuilder.account t.cfg.ownRefMin f body else f) := by
  obtain ⟨hgrows, -, -, -, -, i, hi, hold⟩ := ensureBook_spec t l
  have hensured := h.ensureBook l
  rw [hi, Option.getD_some, ← hgrows.cfg]
  refine hensured.applyToBook hi hexpected hrefs fun hl ref hn hf => ?_
  subst hl
  obtain hold | ⟨hnone, -, -⟩ := hold
  · rw [hgrows.storage i (h.made _ _ hold)]
    exact hsame rfl ref hn hf i hold
  · -- a new book has no orders
    have hnew : ((t.ensureBook l).storage i).Records ∅ := by
      have hmade : t.ensureBook l = { t with undirected := t.undirected + 1 }.create l (t.books l).hot.isSome := by
        unfold BookTable.ensureBook
        rw [if_pos (by rw [hnone]; rfl)]
      have hi' : i = t.created := by
        rw [hmade] at hi
        have hself : ((BookTable.create { t with undirected := t.undirected + 1 } l (t.books l).hot.isSome).books l).book =
            some t.created := by simp [BookTable.create, setEntry]
        rw [hself] at hi
        exact (Option.some.inj hi).symm
      have hstorage : (t.ensureBook l).storage i = BookBuilder.ofConfig (configFor t.cfg (t.books l).hot.isSome) := by
        rw [hmade, hi']
        exact Function.update_self ..
      rw [hstorage]
      exact (BookBuilder.Built.ofConfig _).records
    exact (hnew.restingShares_eq_zero (hrefs ref hn)).mpr (Finmap.lookup_empty ref)

/-- A message, if it is about no order that the book has and the session has not. -/
theorem apply (h : Tracks home locate t f) {msg : Itch.Msg}
    (hhome : ∀ name, msg.body = .stockDirectory name → home name = msg.locate)
    (hexpected : ∀ b : BookBuilder, b.Expected msg.body) (hrefs : ∀ ref, BookBuilder.Names ref msg.body → ref ≠ 0)
    (hsame : msg.locate = locate → ∀ ref, BookBuilder.Names ref msg.body → f.lookup ref = none →
      ∀ i, (t.books locate).book = some i → (t.storage i).restingShares ref = 0) :
    Tracks home locate (t.apply msg).1
      (if msg.locate = locate ∧ t.skips msg.locate = false then BookBuilder.account t.cfg.ownRefMin f msg.body else f) := by
  obtain ⟨l, body⟩ := msg
  simp only at hhome hexpected hrefs hsame ⊢
  have hquiet : ∀ {t' : BookTable} {body : Itch.Body}, BookBuilder.account t.cfg.ownRefMin f body = f →
      Tracks home locate t' f →
      Tracks home locate t' (if l = locate ∧ t.skips l = false then BookBuilder.account t.cfg.ownRefMin f body else f) := by
    intro t' body heq h'
    rw [heq, ite_self]
    exact h'
  have hown := h.applyToOwn l hexpected hrefs hsame
  have hensured := h.ensureBook l
  unfold BookTable.apply
  cases body
  case stockDirectory name => exact hquiet rfl (h.onDirectory (hhome name rfl))
  case stockDirectoryShort => exact hquiet rfl h
  case stockTradingAction state =>
    refine hquiet rfl ?_
    simp only
    split_ifs
    · exact h
    · exact hensured.setTrading _ _
  case stockTradingActionShort =>
    refine hquiet rfl ?_
    simp only
    split_ifs
    · exact h
    · exact hensured
  all_goals
    simp only
    by_cases hskips : t.skips l = true
    · rw [if_pos hskips, if_neg fun he => by rw [hskips] at he; exact Bool.noConfusion he.2]
      exact h
    · rw [if_neg hskips]
      simp only [Bool.eq_false_iff.mpr hskips, and_true]
      exact hown

end Tracks

theorem cfg_new (cfg : BookTableConfig) : (BookTable.new cfg).cfg = cfg := by
  refine new_induction (P := fun t => t.cfg = cfg) cfg rfl (fun t i locate h => ?_) fun t p h => ?_
  · unfold pin
    simp only
    split_ifs <;> exact h
  · unfold addProfile
    simp only
    split_ifs
    · exact h
    · exact h
    · split <;> exact h

/-- A new table has no orders. -/
theorem tracks_new (home : List UInt8 → ℕ) (locate : ℕ) (cfg : BookTableConfig) :
    Tracks home locate (BookTable.new cfg) ∅ := by
  refine Tracks.of_empty (housed_new home cfg) ?_
  have hown : ∀ p hot, (configProfiled cfg p hot).ownRefMin = cfg.ownRefMin := fun p hot => by
    unfold configProfiled
    simp only
    split_ifs <;> rfl
  exact allBooks_new cfg (fun hot => kept_ofConfig _ (by rw [cfg_new]; rfl))
    fun p hot => kept_ofConfig _ (by rw [cfg_new]; exact hown p hot)

end BookTable

end TickToTrade.Dut
