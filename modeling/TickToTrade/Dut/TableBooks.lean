import TickToTrade.Dut.DirectoryBinding

/-!
# The books of a table

A table makes books, hands them to locates and clears them. `AllBooks` follows what holds
of every book that it has made. As long as each symbol keeps to one locate, no two locates
share a book (`Housed`).
-/

namespace TickToTrade.Dut.BookTable

variable {t t' : BookTable} {P : BookBuilder → Prop} {locate : ℕ} {name : List UInt8}

/-! ### Every book of a table -/

/-- Every book that the table has made has the property. -/
def AllBooks (P : BookBuilder → Prop) (t : BookTable) : Prop := ∀ i < t.created, P (t.storage i)

/-- What a restart does to a book, at once or when the book is next used. -/
def renew (epoch : ℕ) (b : BookBuilder) : BookBuilder := { b.clear with epoch := epoch }

/-- The hot symbols' books are renewed one after the other. -/
theorem foldl_renew (epoch i : ℕ) (hots : List HotSymbol) (storage : ℕ → BookBuilder) :
    hots.foldl (fun storage h => match h.book with
      | none => storage
      | some i => Function.update storage i { (storage i).clear with epoch := epoch }) storage i =
      (renew epoch)^[(hots.filter fun h => h.book = some i).length] (storage i) := by
  induction hots generalizing storage with
  | nil => rfl
  | cons h hots ih =>
      rw [List.foldl_cons, ih]
      cases hb : h.book with
      | none => rw [List.filter_cons_of_neg (by simp [hb])]
      | some j =>
          simp only
          by_cases hj : j = i
          · subst hj
            rw [List.filter_cons_of_pos (by simp [hb]), List.length_cons, Function.iterate_succ_apply, Function.update_self]
            rfl
          · rw [List.filter_cons_of_neg (by simp [hb, hj]), Function.update_of_ne (Ne.symm hj)]

/-- A restart clears a book once for each hot symbol that has it. -/
theorem storage_clearAll (t : BookTable) (i : ℕ) :
    t.clearAll.storage i = (renew ((t.epoch + 1) % 2 ^ 32))^[(t.hots.filter fun h => h.book = some i).length] (t.storage i) :=
  foldl_renew ((t.epoch + 1) % 2 ^ 32) i t.hots t.storage

namespace AllBooks

theorem create (h : AllBooks P t) (hot : Bool) (hnew : P (BookBuilder.ofConfig (configFor t.cfg hot))) (locate : ℕ) :
    AllBooks P (t.create locate hot) := by
  intro i hi
  change P (Function.update t.storage t.created _ i)
  by_cases he : i = t.created
  · rw [he, Function.update_self]
    exact hnew
  · rw [Function.update_of_ne he]
    exact h i (Nat.lt_of_le_of_ne (Nat.le_of_lt_succ hi) he)

theorem ensureBook (h : AllBooks P t) (hnew : ∀ hot, P (BookBuilder.ofConfig (configFor t.cfg hot))) (locate : ℕ) :
    AllBooks P (t.ensureBook locate) := by
  unfold BookTable.ensureBook
  split_ifs
  · exact AllBooks.create (t := { t with undirected := t.undirected + 1 }) h _ (hnew _) locate
  · exact h

theorem directHot (h : AllBooks P t) (hnew : ∀ hot, P (BookBuilder.ofConfig (configFor t.cfg hot))) (locate i : ℕ) :
    AllBooks P (t.directHot locate i) := by
  have hbound : AllBooks P (t.bindHot locate i) := h
  unfold BookTable.directHot
  simp only
  split_ifs
  · exact hbound
  · exact hbound.create true (hnew true) locate
  · exact hbound

theorem directCold (h : AllBooks P t) (hnew : ∀ hot, P (BookBuilder.ofConfig (configFor t.cfg hot))) (locate : ℕ) :
    AllBooks P (t.directCold locate) := by
  unfold BookTable.directCold
  split_ifs
  · exact h.create false (hnew false) locate
  · exact h

theorem onDirectory (h : AllBooks P t) (hnew : ∀ hot, P (BookBuilder.ofConfig (configFor t.cfg hot))) (locate : ℕ)
    (name : List UInt8) : AllBooks P (t.onDirectory locate name) := by
  unfold BookTable.onDirectory
  simp only
  generalize hu : (if (t.books locate).book.isNone = true then
    t.setEntry locate { t.books locate with book := t.byName.lookup name } else t) = u
  obtain ⟨hall, hcfg⟩ : AllBooks P u ∧ u.cfg = t.cfg := by
    rw [← hu]
    split_ifs
    · exact ⟨h, rfl⟩
    · exact ⟨h, rfl⟩
  split
  · exact hall.directHot (by rw [hcfg]; exact hnew) locate _
  · exact hall.directCold (by rw [hcfg]; exact hnew) locate

theorem setTrading (h : AllBooks P t) (locate : ℕ) (trading : Bool) : AllBooks P (t.setTrading locate trading) := by
  unfold BookTable.setTrading
  split <;> exact h

theorem clearAll (h : AllBooks P t) (hclear : ∀ epoch b, P b → P (renew epoch b)) : AllBooks P t.clearAll := by
  intro i hi
  rw [storage_clearAll]
  exact Function.Iterate.rec P (h i hi) (hclear _) _

end AllBooks

/-- What holds of a blank table, and stays when a symbol is pinned and a profile added. -/
theorem new_induction {P : BookTable → Prop} (cfg : BookTableConfig) (hblank : P (blank cfg))
    (hpin : ∀ t i locate, P t → P (t.pin i locate)) (hprofile : ∀ t p, P t → P (t.addProfile p)) : P (BookTable.new cfg) := by
  have hfold : ∀ {α : Type} (step : BookTable → α → BookTable), (∀ t a, P t → P (step t a)) →
      ∀ (l : List α) (t : BookTable), P t → P (l.foldl step t) := by
    intro α step hstep l
    induction l with
    | nil => exact fun _ h => h
    | cons a l ih => exact fun t h => ih _ (hstep t a h)
  exact hfold addProfile hprofile _ _ (hfold (fun (t : BookTable) (p : ℕ × ℕ) => t.pin p.1 p.2) (fun t p => hpin t p.1 p.2) _ _ hblank)

/-- The books that a new table has. -/
theorem allBooks_new (cfg : BookTableConfig) (hnew : ∀ hot, P (BookBuilder.ofConfig (configFor cfg hot)))
    (hprofiled : ∀ p hot, P (BookBuilder.ofConfig (configProfiled cfg p hot))) : AllBooks P (BookTable.new cfg) := by
  suffices h : AllBooks P (BookTable.new cfg) ∧ (BookTable.new cfg).cfg = cfg from h.1
  refine new_induction (P := fun t => AllBooks P t ∧ t.cfg = cfg) cfg ⟨fun i hi => absurd hi (Nat.not_lt_zero i), rfl⟩
    (fun t i locate h => ?_) fun t p h => ?_
  · obtain ⟨h, hcfg⟩ := h
    have hbound : AllBooks P (t.bindHot locate i) := h
    unfold pin
    simp only
    split_ifs
    · refine ⟨hbound.create true ?_ locate, hcfg⟩
      rw [show (t.bindHot locate i).cfg = cfg from hcfg]
      exact hnew true
    · exact ⟨hbound, hcfg⟩
  · obtain ⟨h, hcfg⟩ := h
    have hroom : ∀ hot, AllBooks P (t.emplace (configProfiled t.cfg p hot)) := by
      intro hot i hi
      change P (Function.update t.storage t.created _ i)
      by_cases he : i = t.created
      · rw [he, Function.update_self, hcfg]
        exact hprofiled p hot
      · rw [Function.update_of_ne he]
        exact h i (Nat.lt_of_le_of_ne (Nat.le_of_lt_succ hi) he)
    unfold addProfile
    simp only
    split_ifs
    · exact ⟨h, hcfg⟩
    · exact ⟨h, hcfg⟩
    · split
      · exact ⟨hroom _, hcfg⟩
      · exact ⟨hroom _, hcfg⟩

/-! ### Each locate has its own book -/

/-- The books of the locates and of the profiles, where every symbol keeps to the locate
`home`. -/
structure Housed (home : List UInt8 → ℕ) (t : BookTable) : Prop where
  made : ∀ l i, (t.books l).book = some i → i < t.created
  apart : ∀ l l' i, (t.books l).book = some i → (t.books l').book = some i → l = l'
  named : ∀ name i, t.byName.lookup name = some i → i < t.created
  namedApart : ∀ name name' i, t.byName.lookup name = some i → t.byName.lookup name' = some i → name = name'
  claimed : ∀ name i l, t.byName.lookup name = some i → (t.books l).book = some i → l = home name

namespace Housed

variable {home : List UInt8 → ℕ}

theorem congr (h : Housed home t) (hbooks : ∀ l, (t'.books l).book = (t.books l).book) (hnames : t'.byName = t.byName)
    (hcreated : t.created ≤ t'.created) : Housed home t' where
  made l i hi := Nat.lt_of_lt_of_le (h.made l i (by rw [← hbooks]; exact hi)) hcreated
  apart l l' i hi hi' := h.apart l l' i (by rw [← hbooks]; exact hi) (by rw [← hbooks]; exact hi')
  named name i hi := Nat.lt_of_lt_of_le (h.named name i (by rw [← hnames]; exact hi)) hcreated
  namedApart name name' i hi hi' := h.namedApart name name' i (by rw [← hnames]; exact hi) (by rw [← hnames]; exact hi')
  claimed name i l hi hl := h.claimed name i l (by rw [← hnames]; exact hi) (by rw [← hbooks]; exact hl)

/-- A locate gets a book: the one it had, that of its symbol's profile, or a new one. -/
theorem gets (h : Housed home t) (hgrows : Grows t t') {book : Option ℕ}
    (hother : ∀ l, l ≠ locate → (t'.books l).book = (t.books l).book) (hself : (t'.books locate).book = book)
    (hbook : book = (t.books locate).book ∨
      (∃ name, (t.books locate).book = none ∧ book = t.byName.lookup name ∧ home name = locate) ∨
        ∃ b, book = some b ∧ t.created ≤ b ∧ b < t'.created) : Housed home t' := by
  have hold : ∀ l i, l ≠ locate → ((t'.books l).book = some i ↔ (t.books l).book = some i) := fun l i hl => by
    rw [hother l hl]
  have hown : ∀ i, (t'.books locate).book = some i → (∀ l, (t.books l).book = some i → l = locate) ∧ i < t'.created ∧
      ∀ name, t.byName.lookup name = some i → locate = home name := by
    intro i hi
    rw [hself] at hi
    obtain he | ⟨name, -, he, hhome⟩ | ⟨b, he, hlow, hhigh⟩ := hbook
    · rw [he] at hi
      exact ⟨fun l hl => h.apart l locate i hl hi, Nat.lt_of_lt_of_le (h.made _ _ hi) hgrows.created,
        fun name hname => h.claimed name i locate hname hi⟩
    · rw [he] at hi
      refine ⟨fun l hl => (h.claimed name i l hi hl).trans hhome, Nat.lt_of_lt_of_le (h.named _ _ hi) hgrows.created,
        fun name' hname => ?_⟩
      rw [← h.namedApart name name' i hi hname, hhome]
    · rw [he] at hi
      cases hi
      exact ⟨fun l hl => absurd (h.made _ _ hl) (by omega), hhigh, fun name hname => absurd (h.named _ _ hname) (by omega)⟩
  refine ⟨fun l i hi => ?_, fun l l' i hi hi' => ?_, fun name i hi => ?_, fun name name' i hi hi' => ?_, fun name i l hi hl => ?_⟩
  · by_cases hl : l = locate
    · subst hl
      exact (hown i hi).2.1
    · exact Nat.lt_of_lt_of_le (h.made l i ((hold l i hl).mp hi)) hgrows.created
  · by_cases hl : l = locate
    · by_cases hl' : l' = locate
      · rw [hl, hl']
      · subst hl
        exact ((hown i hi).1 l' ((hold l' i hl').mp hi')).symm
    · by_cases hl' : l' = locate
      · subst hl'
        exact (hown i hi').1 l ((hold l i hl).mp hi)
      · exact h.apart l l' i ((hold l i hl).mp hi) ((hold l' i hl').mp hi')
  · rw [hgrows.byName] at hi
    exact Nat.lt_of_lt_of_le (h.named name i hi) hgrows.created
  · rw [hgrows.byName] at hi hi'
    exact h.namedApart name name' i hi hi'
  · rw [hgrows.byName] at hi
    by_cases hl' : l = locate
    · subst hl'
      exact (hown i hl).2.2 name hi
    · exact h.claimed name i l hi ((hold l i hl').mp hl)

theorem ensureBook (h : Housed home t) (locate : ℕ) : Housed home (t.ensureBook locate) := by
  obtain ⟨hgrows, -, -, hother, -, b, hb, hold⟩ := ensureBook_spec t locate
  refine h.gets hgrows (fun l hl => by rw [hother l hl]) hb ?_
  obtain hold | ⟨-, hlow, hhigh⟩ := hold
  · exact .inl hold.symm
  · exact .inr (.inr ⟨b, rfl, hlow, hhigh⟩)

theorem onDirectory (h : Housed home t) (hhome : home name = locate) : Housed home (t.onDirectory locate name) := by
  have hgets : ∀ {t' : BookTable} {book : Option ℕ}, Gets t t' (t.knownBook locate name) book →
      book = (t.books locate).book ∨
        (∃ name, (t.books locate).book = none ∧ book = t.byName.lookup name ∧ home name = locate) ∨
          ∃ b, book = some b ∧ t.created ≤ b ∧ b < t'.created := by
    intro t' book hg
    obtain rfl | ⟨-, b, hb, hlow, hhigh⟩ := hg
    · unfold knownBook
      cases hb : (t.books locate).book with
      | none => exact .inr (.inl ⟨name, rfl, rfl, hhome⟩)
      | some b => exact .inl rfl
    · exact .inr (.inr ⟨b, hb, hlow, hhigh⟩)
  cases onDirectory_directs t locate name with
  | binds i book hnone hi hgrows hg hbooks hbits hhots =>
      refine h.gets hgrows (fun l hl => ?_) ?_ (hgets hg)
      · rw [hbooks, Function.update_of_ne hl]
      · rw [hbooks, Function.update_self]
  | leaves book hno hgrows hg hbooks hbits hhots =>
      refine h.gets hgrows (fun l hl => ?_) ?_ (hgets hg)
      · rw [hbooks, Function.update_of_ne hl]
      · rw [hbooks, Function.update_self]

theorem create (h : Housed home t) (locate : ℕ) (hot : Bool) : Housed home (t.create locate hot) := by
  have hself : ((t.create locate hot).books locate).book = some t.created := by simp [BookTable.create, setEntry]
  refine h.gets (Grows.create t locate hot) (fun l hl => ?_) hself
    (.inr (.inr ⟨t.created, rfl, Nat.le_refl _, Nat.lt_succ_self _⟩))
  simp [BookTable.create, setEntry, emplace, hl]

theorem pin (h : Housed home t) (i locate : ℕ) : Housed home (t.pin i locate) := by
  have hbound : Housed home (t.bindHot locate i) := by
    refine h.congr (fun l => ?_) rfl (Nat.le_refl _)
    by_cases hl : l = locate
    · subst hl
      simp [BookTable.bindHot, setEntry, BookTable.setHot]
    · simp [BookTable.bindHot, setEntry, BookTable.setHot, hl]
  unfold BookTable.pin
  simp only
  split_ifs
  · exact (hbound.create locate true).congr (fun _ => rfl) rfl (Nat.le_refl _)
  · exact hbound.congr (fun _ => rfl) rfl (Nat.le_refl _)

theorem addProfile (h : Housed home t) (p : SymbolProfile) : Housed home (t.addProfile p) := by
  unfold BookTable.addProfile
  split_ifs with hp
  · exact h
  simp only
  split_ifs
  · exact h
  have hnone : t.byName.lookup p.name = none := Option.not_isSome_iff_eq_none.mp (not_or.mp hp).2
  have hlookup : ∀ name i, ((p.name, t.created) :: t.byName).lookup name = some i →
      name = p.name ∧ i = t.created ∨ t.byName.lookup name = some i := by
    intro name i hi
    by_cases hn : name = p.name
    · subst hn
      rw [List.lookup_cons_self] at hi
      exact .inl ⟨rfl, (Option.some.inj hi).symm⟩
    · rw [List.lookup_cons, beq_eq_false_iff_ne.mpr hn] at hi
      exact .inr hi
  have hadded : Housed home { t.emplace (configProfiled t.cfg p (t.hotIndexByName p.name).isSome) with
      byName := (p.name, t.created) :: t.byName } := by
    refine ⟨fun l i hi => Nat.lt_succ_of_lt (h.made l i hi), h.apart, fun name i hi => ?_, fun name name' i hi hi' => ?_,
      fun name i l hi hl => ?_⟩
    · obtain ⟨-, rfl⟩ | hi := hlookup name i hi
      · exact Nat.lt_succ_self _
      · exact Nat.lt_succ_of_lt (h.named name i hi)
    · obtain ⟨rfl, rfl⟩ | hi := hlookup name i hi
      · obtain ⟨rfl, -⟩ | hi' := hlookup name' _ hi'
        · rfl
        · exact absurd (h.named name' _ hi') (Nat.lt_irrefl _)
      · obtain ⟨-, rfl⟩ | hi' := hlookup name' i hi'
        · exact absurd (h.named name _ hi) (Nat.lt_irrefl _)
        · exact h.namedApart name name' i hi hi'
    · obtain ⟨-, rfl⟩ | hi := hlookup name i hi
      · exact absurd (h.made l _ hl) (Nat.lt_irrefl _)
      · exact h.claimed name i l hi hl
  split
  · exact hadded
  · exact hadded.congr (fun _ => rfl) rfl (Nat.le_refl _)

end Housed

/-- A table starts with books that no two locates share. -/
theorem housed_new (home : List UInt8 → ℕ) (cfg : BookTableConfig) : Housed home (BookTable.new cfg) := by
  have hblank : Housed home (blank cfg) := by
    constructor
    all_goals
      intros
      contradiction
  exact new_induction cfg hblank (fun _ i locate h => h.pin i locate) fun _ p h => h.addProfile p

end TickToTrade.Dut.BookTable
