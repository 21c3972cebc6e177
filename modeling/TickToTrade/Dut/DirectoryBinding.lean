import Mathlib.Data.Option.Basic
import TickToTrade.Dut.BookTable

/-!
# Binding locates to symbols

A directory entry says which symbol a locate stands for. The table binds a hot symbol
to the first locate that is directed to it and never again, so that the binding goes
stale when a later session directs the symbol to another locate, or the locate to
another symbol (`stale_binding`). `Binds` is what a directory entry has to be, at the
table that it finds, for the binding to follow it. In a run in which every directory
entry is so, the hot index of a locate is always the symbol that it was last directed
to, and the book of a hot symbol changes only by restarts and by messages with its
locate (`directory_binds`).
-/

namespace TickToTrade.Dut

/-- What a hot symbol is bound to. -/
def HotSymbol.binding (h : HotSymbol) : List UInt8 × Bool × ℕ × Option ℕ := (h.name, h.resolved, h.locate, h.book)

namespace BookTable

/-- What can happen to a table. -/
inductive Op where
  | message (msg : Itch.Msg)
  | restart

/-- One step of a table. -/
def step (t : BookTable) : Op → BookTable
  | .message msg => (t.apply msg).1
  | .restart => t.clearAll

/-- A run of a table. -/
def run (t : BookTable) (ops : List Op) : BookTable := ops.foldl step t

/-- `P` holds of every step of a run: of the table it starts from and what happens. -/
def EachOp (P : BookTable → Op → Prop) (t : BookTable) : List Op → Prop
  | [] => True
  | op :: ops => P t op ∧ EachOp P (t.step op) ops

/-! ### What a directory entry does -/

/-- The table has at most gained books. -/
structure Grows (t t' : BookTable) : Prop where
  cfg : t'.cfg = t.cfg
  byName : t'.byName = t.byName
  empty : t'.empty = t.empty
  epoch : t'.epoch = t.epoch
  created : t.created ≤ t'.created
  storage : ∀ b < t.created, t'.storage b = t.storage b

namespace Grows

variable {t t' t'' : BookTable}

theorem refl (t : BookTable) : Grows t t := ⟨rfl, rfl, rfl, rfl, Nat.le_refl _, fun _ _ => rfl⟩

theorem trans (h : Grows t t') (h' : Grows t' t'') : Grows t t'' where
  cfg := h'.cfg.trans h.cfg
  byName := h'.byName.trans h.byName
  empty := h'.empty.trans h.empty
  epoch := h'.epoch.trans h.epoch
  created := Nat.le_trans h.created h'.created
  storage b hb := (h'.storage b (Nat.lt_of_lt_of_le hb h.created)).trans (h.storage b hb)

theorem setEntry (t : BookTable) (locate : ℕ) (e : Entry) : Grows t (t.setEntry locate e) :=
  ⟨rfl, rfl, rfl, rfl, Nat.le_refl _, fun _ _ => rfl⟩

theorem setHot (t : BookTable) (i : ℕ) (f : HotSymbol → HotSymbol) : Grows t (t.setHot i f) :=
  ⟨rfl, rfl, rfl, rfl, Nat.le_refl _, fun _ _ => rfl⟩

theorem bindHot (t : BookTable) (locate i : ℕ) : Grows t (t.bindHot locate i) :=
  ⟨rfl, rfl, rfl, rfl, Nat.le_refl _, fun _ _ => rfl⟩

theorem create (t : BookTable) (locate : ℕ) (hot : Bool) : Grows t (t.create locate hot) :=
  ⟨rfl, rfl, rfl, rfl, Nat.le_succ _, fun _ hb => Function.update_of_ne (Nat.ne_of_lt hb) ..⟩

end Grows

/-- The book that a locate has already, or else that of the profile of the name. -/
def knownBook (t : BookTable) (locate : ℕ) (name : List UInt8) : Option ℕ :=
  (t.books locate).book.or (t.byName.lookup name)

/-- The book of an entry after the table `t` has become `t'`: the known one, or a new one
where none was known. -/
def Gets (t t' : BookTable) (known book : Option ℕ) : Prop :=
  book = known ∨ known = none ∧ ∃ b, book = some b ∧ t.created ≤ b ∧ b < t'.created

/-- What a directory entry does: it binds its locate to a hot symbol without a locate,
or it leaves the hot symbols. -/
inductive Directs (t : BookTable) (locate : ℕ) (name : List UInt8) (t' : BookTable) : Prop where
  | binds (i : ℕ) (book : Option ℕ) (hnone : (t.books locate).hot = none)
      (hi : t.hots.findIdx? (fun h => !h.resolved && h.name = name) = some i)
      (hgrows : Grows t t') (hgets : Gets t t' (t.knownBook locate name) book)
      (hbooks : t'.books = Function.update t.books locate ⟨book, some i⟩)
      (hbits : t'.hotBits = Function.update t.hotBits locate true)
      (hhots : t'.hots = t.hots.modify i fun h =>
        { h with resolved := true, locate := locate, book := if t.cfg.scope = .coldOnly then h.book else book })
  | leaves (book : Option ℕ)
      (hno : (t.books locate).hot ≠ none ∨ t.hots.findIdx? (fun h => !h.resolved && h.name = name) = none)
      (hgrows : Grows t t') (hgets : Gets t t' (t.knownBook locate name) book)
      (hbooks : t'.books = Function.update t.books locate ⟨book, (t.books locate).hot⟩)
      (hbits : t'.hotBits = t.hotBits) (hhots : t'.hots = t.hots)

theorem onDirectory_directs (t : BookTable) (locate : ℕ) (name : List UInt8) :
    Directs t locate name (t.onDirectory locate name) := by
  -- the profile's book, if the locate has none
  obtain ⟨u, hu, hbooks⟩ : ∃ u, u = (if (t.books locate).book.isNone then
      t.setEntry locate { t.books locate with book := t.byName.lookup name } else t) ∧
      u = { t with books := Function.update t.books locate ⟨t.knownBook locate name, (t.books locate).hot⟩ } := by
    refine ⟨_, rfl, ?_⟩
    cases hb : t.books locate with
    | mk book hot =>
        cases book with
        | none => simp [setEntry, knownBook, hb]
        | some b =>
            have hsame : Function.update t.books locate ⟨some b, hot⟩ = t.books := by
              rw [← hb, Function.update_eq_self]
            simp [knownBook, hb, hsame]
  have hentry : u.books locate = ⟨t.knownBook locate name, (t.books locate).hot⟩ := by rw [hbooks]; simp
  have hgrows : Grows t u := by rw [hbooks]; exact Grows.setEntry t locate _
  have hcreated : u.created = t.created := by rw [hbooks]
  have hhots : u.hots = t.hots := by rw [hbooks]
  have hscope : u.cfg = t.cfg := by rw [hbooks]
  have hbits : u.hotBits = t.hotBits := by rw [hbooks]
  have hupdate : ∀ e, Function.update u.books locate e = Function.update t.books locate e := by
    intro e
    rw [hbooks]
    simp
  unfold onDirectory
  simp only
  rw [← hu, hentry, hhots]
  split
  next i hnone hi =>
    simp only at hnone
    unfold directHot
    simp only
    have hbound : (u.bindHot locate i).books = Function.update t.books locate ⟨t.knownBook locate name, some i⟩ := by
      rw [← hupdate]
      simp [BookTable.bindHot, setEntry, BookTable.setHot, hentry]
    rw [show (u.bindHot locate i).cfg = t.cfg from hscope]
    by_cases hcold : t.cfg.scope = .coldOnly
    · rw [if_pos hcold]
      refine .binds i (t.knownBook locate name) hnone hi (hgrows.trans (Grows.bindHot u locate i)) (.inl rfl) hbound
        ?_ ?_
      · rw [← hbits]; rfl
      · rw [← hhots]
        simp [BookTable.bindHot, setEntry, BookTable.setHot, hcold]
    · rw [if_neg hcold, hbound, Function.update_self]
      cases hknown : t.knownBook locate name with
      | none =>
          simp only [Option.isNone_none, if_true]
          refine .binds i (some t.created) hnone hi
            (hgrows.trans ((Grows.bindHot u locate i).trans ((Grows.create _ locate true).trans (Grows.setHot ..))))
            (.inr ⟨hknown, t.created, rfl, Nat.le_refl _, ?_⟩) ?_ ?_ ?_
          · simp [BookTable.create, setEntry, emplace, BookTable.setHot, BookTable.bindHot, hcreated]
          · simp [BookTable.create, setEntry, emplace, BookTable.setHot, BookTable.bindHot, hcreated, hupdate]
          · rw [← hbits]; rfl
          · rw [← hhots]
            simp [BookTable.create, setEntry, emplace, BookTable.setHot, BookTable.bindHot, hcold, hcreated,
              List.modify_modify_eq, Function.comp_def]
      | some b =>
          simp only [Option.isNone_some, Bool.false_eq_true, if_false]
          refine .binds i (some b) hnone hi
            (hgrows.trans ((Grows.bindHot u locate i).trans (Grows.setHot ..))) (.inl hknown.symm) ?_ ?_ ?_
          · rw [← hknown]; exact hbound
          · rw [← hbits]; rfl
          · rw [← hhots, hbound, hknown]
            simp [setEntry, BookTable.setHot, BookTable.bindHot, hcold, List.modify_modify_eq, Function.comp_def]
  next hno =>
    simp only at hno
    have hno' : (t.books locate).hot ≠ none ∨ t.hots.findIdx? (fun h => !h.resolved && h.name = name) = none := by
      by_contra hcon
      push Not at hcon
      obtain ⟨i, hi⟩ := Option.ne_none_iff_exists'.mp hcon.2
      exact hno i hcon.1 hi
    unfold directCold
    rw [hentry, hscope]
    simp only
    split_ifs with hc
    · refine .leaves (some t.created) hno' (hgrows.trans (Grows.create u locate false))
        (.inr ⟨by simpa using hc.1, t.created, rfl, Nat.le_refl _, ?_⟩) ?_ hbits hhots
      · simp [BookTable.create, setEntry, emplace, hcreated]
      · simp [BookTable.create, setEntry, emplace, hcreated, hentry, hupdate]
    · refine .leaves (t.knownBook locate name) hno' hgrows (.inl rfl) ?_ hbits hhots
      rw [hbooks]

/-! ### What other messages do -/

theorem ensureBook_spec (t : BookTable) (locate : ℕ) :
    Grows t (t.ensureBook locate) ∧ (t.ensureBook locate).hots = t.hots ∧
      (t.ensureBook locate).hotBits = t.hotBits ∧
      (∀ l ≠ locate, (t.ensureBook locate).books l = t.books l) ∧
      ((t.ensureBook locate).books locate).hot = (t.books locate).hot ∧
      ∃ b, ((t.ensureBook locate).books locate).book = some b ∧
        ((t.books locate).book = some b ∨
          (t.books locate).book = none ∧ t.created ≤ b ∧ b < (t.ensureBook locate).created) := by
  unfold ensureBook
  split_ifs with h
  · have hnone : (t.books locate).book = none := by simpa using h
    refine ⟨⟨rfl, rfl, rfl, rfl, Nat.le_succ _, fun _ hb => Function.update_of_ne (Nat.ne_of_lt hb) ..⟩, rfl, rfl,
      fun l hl => ?_, ?_, t.created, ?_, .inr ⟨hnone, Nat.le_refl _, Nat.lt_succ_self _⟩⟩
    · simp [create, setEntry, emplace, hl]
    · simp [create, setEntry]
    · simp [create, setEntry]
  · obtain ⟨b, hb⟩ := Option.ne_none_iff_exists'.mp (by simpa using h)
    exact ⟨Grows.refl t, rfl, rfl, fun _ _ => rfl, rfl, b, hb, .inl hb⟩

/-- A message that is no directory entry does nothing, or makes sure of the locate's book
and then perhaps sets whether a symbol trades, or changes the book. -/
theorem apply_cases (t : BookTable) {msg : Itch.Msg} (hdir : ∀ name, msg.body ≠ .stockDirectory name) :
    let u := t.ensureBook msg.locate
    (t.apply msg).1 = t ∨ (t.apply msg).1 = u ∨ (∃ trading, (t.apply msg).1 = u.setTrading msg.locate trading) ∨
      (t.apply msg).1 = u.applyToBook ((u.books msg.locate).book.getD 0) msg.body := by
  intro u
  unfold apply
  cases hb : msg.body
  case stockDirectory name => exact absurd hb (hdir name)
  case stockDirectoryShort => exact .inl rfl
  case stockTradingAction state =>
    simp only
    split_ifs
    · exact .inl rfl
    · exact .inr (.inr (.inl ⟨_, rfl⟩))
  case stockTradingActionShort =>
    simp only
    split_ifs
    · exact .inl rfl
    · exact .inr (.inl rfl)
  all_goals
    simp only
    split_ifs
    · exact .inl rfl
    · exact .inr (.inr (.inr rfl))

/-! ### The invariant -/

/-- The hot index of each locate is the symbol that it was last directed to, by `names`;
the symbol has the locate, and the bitmap agrees. -/
structure Follows (t : BookTable) (names : ℕ → Option (List UInt8)) : Prop where
  hot : ∀ l i, t.hotIndexOf l = some i ↔ ∃ name, names l = some name ∧ t.hotIndexByName name = some i
  locate : ∀ l i, t.hotIndexOf l = some i → ∃ h : HotSymbol, t.hots[i]? = some h ∧ h.locate = l ∧ h.resolved
  isHot : ∀ l, t.isHot l = (t.hotIndexOf l).isSome

/-- The invariant: beside that, the books are known, and the book of a hot symbol is used
by no other locate. -/
structure Routed (t : BookTable) (names : ℕ → Option (List UInt8)) : Prop extends Follows t names where
  resolved : ∀ (i : ℕ) (h : HotSymbol), t.hots[i]? = some h → h.resolved → t.hotIndexOf h.locate = some i
  ofLocate : ∀ l b, (t.books l).book = some b → b < t.created
  ofProfile : ∀ name b, t.byName.lookup name = some b → b < t.created
  ofHot : ∀ (i : ℕ) (h : HotSymbol) b, t.hots[i]? = some h → h.book = some b → b < t.created
  cold : t.cfg.scope = .coldOnly → ∀ (i : ℕ) (h : HotSymbol), t.hots[i]? = some h → h.book = none
  own : ∀ (i : ℕ) (h : HotSymbol) b, t.hots[i]? = some h → h.resolved → h.book = some b →
    ∀ l, l ≠ h.locate → (t.books l).book ≠ some b

/-- A change of one element that a function does not see. -/
theorem map_modify_of_same {α β : Type*} {f : α → β} {g : α → α} (h : ∀ a, f (g a) = f a) (l : List α) (i : ℕ) :
    (l.modify i g).map f = l.map f := by
  refine List.ext_getElem? fun j => ?_
  simp only [List.getElem?_map, List.getElem?_modify]
  cases l[j]? with
  | none => simp
  | some a => by_cases hi : i = j <;> simp [hi, h]

/-- The hot symbols of two tables with the same bindings. -/
theorem exists_binding {t t' : BookTable} (h : t'.hots.map HotSymbol.binding = t.hots.map HotSymbol.binding) {i : ℕ}
    {s : HotSymbol} (hs : t'.hots[i]? = some s) :
    ∃ s₀, t.hots[i]? = some s₀ ∧ s.name = s₀.name ∧ s.resolved = s₀.resolved ∧ s.locate = s₀.locate ∧
      s.book = s₀.book := by
  have hi := congrArg (fun l => l[i]?) h
  simp only [List.getElem?_map, hs, Option.map_some] at hi
  obtain ⟨s₀, hs₀, heq⟩ := Option.map_eq_some_iff.mp hi.symm
  simp only [HotSymbol.binding, Prod.mk.injEq] at heq
  exact ⟨s₀, hs₀, heq.1.symm, heq.2.1.symm, heq.2.2.1.symm, heq.2.2.2.symm⟩

theorem hotIndexByName_congr {t t' : BookTable} (h : t'.hots.map HotSymbol.name = t.hots.map HotSymbol.name)
    (name : List UInt8) : t'.hotIndexByName name = t.hotIndexByName name := by
  have hmap : ∀ t : BookTable, t.hotIndexByName name = (t.hots.map HotSymbol.name).findIdx? fun n => n = name := by
    intro t
    rw [List.findIdx?_map]
    rfl
  rw [hmap, hmap, h]

theorem names_of_bindings {t t' : BookTable} (h : t'.hots.map HotSymbol.binding = t.hots.map HotSymbol.binding) :
    t'.hots.map HotSymbol.name = t.hots.map HotSymbol.name := by
  have := congrArg (List.map Prod.fst) h
  rwa [List.map_map, List.map_map] at this

namespace Routed

variable {t t' : BookTable} {names : ℕ → Option (List UInt8)}

/-- Steps that leave the bindings keep the invariant. -/
theorem congr (h : Routed t names) (hhots : t'.hots.map HotSymbol.binding = t.hots.map HotSymbol.binding)
    (hbits : t'.hotBits = t.hotBits) (hcfg : t'.cfg = t.cfg) (hbyName : t'.byName = t.byName)
    (hcreated : t.created ≤ t'.created)
    (hbooks : ∀ l, (t'.books l).hot = (t.books l).hot ∧ Gets t t' (t.books l).book (t'.books l).book) :
    Routed t' names := by
  have hot : ∀ l, t'.hotIndexOf l = t.hotIndexOf l := fun l => (hbooks l).1
  have hback := fun {i : ℕ} {s : HotSymbol} => exists_binding hhots (i := i) (s := s)
  refine ⟨⟨fun l i => ?_, fun l i hi => ?_, fun l => ?_⟩, fun i s hs hr => ?_, fun l b hb => ?_, fun name b hb => ?_,
    fun i s b hs hb => ?_, fun hc i s hs => ?_, fun i s b hs hr hb l hl heq => ?_⟩
  · simp only [hot, hotIndexByName_congr (names_of_bindings hhots), h.hot]
  · rw [hot] at hi
    obtain ⟨s₀, hs₀, hl, hr⟩ := h.locate l i hi
    obtain ⟨s, hs, -, hr', hl', -⟩ := exists_binding hhots.symm hs₀
    exact ⟨s, hs, hl'.symm.trans hl, hr'.symm.trans hr⟩
  · rw [hot, ← h.isHot, BookTable.isHot, hbits, BookTable.isHot]
  · obtain ⟨s₀, hs₀, -, hr', hl', -⟩ := hback hs
    rw [hot, hl']
    exact h.resolved i s₀ hs₀ (hr'.symm.trans hr)
  · obtain heq | ⟨-, b', hb', -, hlt⟩ := (hbooks l).2
    · exact Nat.lt_of_lt_of_le (h.ofLocate l b (heq.symm.trans hb)) hcreated
    · cases hb'.symm.trans hb
      exact hlt
  · rw [hbyName] at hb
    exact Nat.lt_of_lt_of_le (h.ofProfile name b hb) hcreated
  · obtain ⟨s₀, hs₀, -, -, -, hb'⟩ := hback hs
    exact Nat.lt_of_lt_of_le (h.ofHot i s₀ b hs₀ (hb'.symm.trans hb)) hcreated
  · obtain ⟨s₀, hs₀, -, -, -, hb'⟩ := hback hs
    rw [hb']
    exact h.cold (by rw [← hcfg]; exact hc) i s₀ hs₀
  · obtain ⟨s₀, hs₀, -, hr', hl', hb'⟩ := hback hs
    have hb₀ := hb'.symm.trans hb
    obtain hsame | ⟨-, b', hb'', hge, -⟩ := (hbooks l).2
    · exact h.own i s₀ b hs₀ (hr'.symm.trans hr) hb₀ l (by rw [← hl']; exact hl) (hsame.symm.trans heq)
    · cases hb''.symm.trans heq
      have := h.ofHot i s₀ b hs₀ hb₀
      omega

/-- Making sure of a book keeps the invariant. -/
theorem ensureBook (h : Routed t names) (locate : ℕ) : Routed (t.ensureBook locate) names := by
  obtain ⟨hg, hhots, hbits, hother, hhot, b, hb, hbook⟩ := ensureBook_spec t locate
  refine h.congr (by rw [hhots]) hbits hg.cfg hg.byName hg.created fun l => ?_
  by_cases hl : l = locate
  · subst hl
    refine ⟨hhot, ?_⟩
    rw [hb]
    obtain hold | ⟨hnone, hge, hlt⟩ := hbook
    · exact .inl hold.symm
    · exact .inr ⟨hnone, b, rfl, hge, hlt⟩
  · rw [hother l hl]
    exact ⟨rfl, .inl rfl⟩

theorem setTrading (h : Routed t names) (locate : ℕ) (trading : Bool) :
    Routed (t.setTrading locate trading) names := by
  unfold BookTable.setTrading
  split
  · exact h
  · exact h.congr (map_modify_of_same (by exact fun _ => rfl) ..) rfl rfl rfl (Nat.le_refl _) fun _ => ⟨rfl, .inl rfl⟩

theorem clearAll (h : Routed t names) : Routed t.clearAll names := by
  refine h.congr ?_ rfl rfl rfl (Nat.le_refl _) fun _ => ⟨rfl, .inl rfl⟩
  unfold BookTable.clearAll
  simp only [List.map_map]
  rfl

/-- A message that is no directory entry keeps the invariant. -/
theorem apply (h : Routed t names) {msg : Itch.Msg} (hdir : ∀ name, msg.body ≠ .stockDirectory name) :
    Routed (t.apply msg).1 names := by
  have hu := h.ensureBook msg.locate
  obtain he | he | ⟨trading, he⟩ | he := apply_cases t hdir
  · rw [he]; exact h
  · rw [he]; exact hu
  · rw [he]; exact hu.setTrading msg.locate trading
  · rw [he]
    exact hu.congr rfl rfl rfl rfl (Nat.le_refl _) fun _ => ⟨rfl, .inl rfl⟩

/-- The book that an entry gets is known, and a new one is used nowhere. -/
theorem lt_of_gets (h : Routed t names) {locate : ℕ} {name : List UInt8} {book : Option ℕ} (hg : Grows t t')
    (hgets : Gets t t' (t.knownBook locate name) book) {b : ℕ} (hb : book = some b) : b < t'.created := by
  obtain rfl | ⟨-, b', hb', -, hlt⟩ := hgets
  · unfold knownBook at hb
    obtain hold | ⟨-, hprofile⟩ := Option.or_eq_some_iff.mp hb
    · exact Nat.lt_of_lt_of_le (h.ofLocate _ b hold) hg.created
    · exact Nat.lt_of_lt_of_le (h.ofProfile _ b hprofile) hg.created
  · cases hb'.symm.trans hb
    exact hlt

end Routed

/-! ### Directory entries that the binding follows -/

/-- Has the hot symbol no locate yet? -/
def Unbound (t : BookTable) (i : ℕ) : Prop := ∀ h : HotSymbol, t.hots[i]? = some h → h.resolved = false

/-- Does no other locate use the book that the locate will get? A table of cold symbols
keeps no books for hot ones. -/
def Alone (t : BookTable) (locate : ℕ) (name : List UInt8) : Prop :=
  t.cfg.scope ≠ .coldOnly → ∀ b, t.knownBook locate name = some b → ∀ l, l ≠ locate → (t.books l).book ≠ some b

/-- Is the book that the locate will get not that of a hot symbol with another locate? -/
def NotTaken (t : BookTable) (locate : ℕ) (name : List UInt8) : Prop :=
  ∀ b, t.knownBook locate name = some b →
    ∀ (i : ℕ) (h : HotSymbol), t.hots[i]? = some h → h.resolved → h.book = some b → h.locate = locate

/-- Does the binding follow what happens? A directory entry for a hot symbol finds it at
the same locate, or without one, at a locate of no hot symbol; any other directory entry
is for a locate of no hot symbol; and no locate gets the book of a hot symbol that has
another one. -/
def Binds (t : BookTable) : Op → Prop
  | .message ⟨locate, .stockDirectory name⟩ =>
      (match t.hotIndexByName name with
        | some i => t.hotIndexOf locate = some i ∨
            t.hotIndexOf locate = none ∧ t.Unbound i ∧ t.Alone locate name
        | none => t.hotIndexOf locate = none) ∧ t.NotTaken locate name
  | _ => True

/-- The name that each locate was last directed to. -/
def directed (names : ℕ → Option (List UInt8)) : Op → ℕ → Option (List UInt8)
  | .message ⟨locate, .stockDirectory name⟩ => Function.update names locate (some name)
  | _ => names

/-- The names that a run has directed the locates to. -/
def directory (ops : List Op) : ℕ → Option (List UInt8) := ops.foldl directed fun _ => none

/-- The first hot symbol of a name that has no locate is the first of that name, if that
one has none. -/
theorem findIdx_unresolved {t : BookTable} {name : List UInt8} {i : ℕ} (hi : t.hotIndexByName name = some i)
    (hun : t.Unbound i) : t.hots.findIdx? (fun h => !h.resolved && h.name = name) = some i := by
  obtain ⟨hlt, hname, hbefore⟩ := List.findIdx?_eq_some_iff_getElem.mp hi
  refine List.findIdx?_eq_some_iff_getElem.mpr ⟨hlt, ?_, fun j hj => ?_⟩
  · have hr := hun _ (List.getElem?_eq_getElem hlt)
    simp only [hr, Bool.not_false, Bool.true_and]
    exact hname
  · have := hbefore j hj
    simp only [Bool.and_eq_true, not_and]
    exact fun _ => this

namespace Routed

variable {t : BookTable} {names : ℕ → Option (List UInt8)}

/-- No locate gets the book of a hot symbol that has another locate. -/
theorem not_gets {t' : BookTable} (h : Routed t names) {locate : ℕ} {name : List UInt8}
    (htaken : t.NotTaken locate name) {i b : ℕ} {s : HotSymbol} (hs : t.hots[i]? = some s) (hr : s.resolved)
    (hb : s.book = some b) (hloc : s.locate ≠ locate) {book : Option ℕ}
    (hgets : Gets t t' (t.knownBook locate name) book) : book ≠ some b := by
  rintro rfl
  obtain hknown | ⟨-, b', hb', hge, -⟩ := hgets
  · exact hloc (htaken b hknown.symm i s hs hr hb)
  · cases hb'
    have := h.ofHot i s b hs hb
    omega

/-- A directory entry that the binding follows keeps the invariant. -/
theorem onDirectory (h : Routed t names) {locate : ℕ} {name : List UInt8}
    (hb : t.Binds (.message ⟨locate, .stockDirectory name⟩)) :
    Routed (t.onDirectory locate name) (Function.update names locate (some name)) := by
  obtain ⟨hname, htaken⟩ := hb
  have hd := onDirectory_directs t locate name
  revert hd
  generalize t.onDirectory locate name = t'
  rintro (⟨i, book, hnone, hi, hg, hgets, hbooks, hbits, hhots⟩ | ⟨book, hno, hg, hgets, hbooks, hbits, hhots⟩)
  · -- the locate is bound to the hot symbol `i`
    obtain ⟨hbyName, hun, halone⟩ : t.hotIndexByName name = some i ∧ t.Unbound i ∧ t.Alone locate name := by
      cases hn : t.hotIndexByName name with
      | none =>
          obtain ⟨hlt, hp, -⟩ := List.findIdx?_eq_some_iff_getElem.mp hi
          have := List.findIdx?_eq_none_iff.mp hn _ (List.getElem_mem hlt)
          simp only [Bool.and_eq_true] at hp
          exact absurd hp.2 (by simpa using this)
      | some i₀ =>
          rw [hn] at hname
          obtain hsame | ⟨-, hun, halone⟩ := hname
          · exact absurd (hnone.symm.trans hsame) (by simp)
          · cases (findIdx_unresolved hn hun).symm.trans hi
            exact ⟨rfl, hun, halone⟩
    have hnames : t'.hots.map HotSymbol.name = t.hots.map HotSymbol.name := by
      rw [hhots]
      exact map_modify_of_same (by exact fun _ => rfl) ..
    have hself : t'.hotIndexOf locate = some i := by rw [hotIndexOf, hbooks, Function.update_self]
    have hother : ∀ l ≠ locate, t'.books l = t.books l := fun l hl => by rw [hbooks, Function.update_of_ne hl]
    have hotOther : ∀ l ≠ locate, t'.hotIndexOf l = t.hotIndexOf l := fun l hl => congrArg Entry.hot (hother l hl)
    have hold : ∀ j ≠ i, t'.hots[j]? = t.hots[j]? := fun j hj => by
      rw [hhots, List.getElem?_modify_ne _ _ (Ne.symm hj)]
    have hnew : ∀ s : HotSymbol, t'.hots[i]? = some s → ∃ s₀ : HotSymbol, t.hots[i]? = some s₀ ∧ s.resolved ∧
        s.locate = locate ∧ s.book = if t.cfg.scope = .coldOnly then s₀.book else book := by
      intro s hs
      rw [hhots, List.getElem?_modify_eq] at hs
      obtain ⟨s₀, hs₀, rfl⟩ := Option.map_eq_some_iff.mp hs
      exact ⟨s₀, hs₀, rfl, rfl, rfl⟩
    have hfree : ∀ {j : ℕ} {s : HotSymbol}, t.hots[j]? = some s → s.resolved → s.locate ≠ locate := by
      rintro j s hs hr rfl
      exact absurd (hnone.symm.trans (h.resolved j s hs hr)) (by simp)
    refine ⟨⟨fun l j => ?_, fun l j hj => ?_, fun l => ?_⟩, fun j s hs hr => ?_, fun l b hb => ?_,
      fun n b hb => ?_, fun j s b hs hb => ?_, fun hc j s hs => ?_, fun j s b hs hr hb l hl heq => ?_⟩
    · simp only [hotIndexByName_congr hnames]
      by_cases hl : l = locate
      · subst hl
        rw [hself]
        simp [hbyName]
      · rw [hotOther l hl, Function.update_of_ne hl]
        exact h.hot l j
    · by_cases hl : l = locate
      · subst hl
        rw [hself] at hj
        cases hj
        obtain ⟨hlt, -⟩ := List.findIdx?_eq_some_iff_getElem.mp hi
        have hlt' : i < t'.hots.length := by rw [hhots, List.length_modify]; exact hlt
        have hs := List.getElem?_eq_getElem hlt'
        obtain ⟨-, -, hr, hloc, -⟩ := hnew _ hs
        exact ⟨_, hs, hloc, hr⟩
      · rw [hotOther l hl] at hj
        obtain ⟨s, hs, hloc, hr⟩ := h.locate l j hj
        have hji : j ≠ i := by
          rintro rfl
          rw [hun s hs] at hr
          cases hr
        exact ⟨s, by rw [hold j hji]; exact hs, hloc, hr⟩
    · by_cases hl : l = locate
      · subst hl
        rw [hself, BookTable.isHot, hbits, Function.update_self]
        rfl
      · rw [hotOther l hl, ← h.isHot, BookTable.isHot, hbits, Function.update_of_ne hl]
        rfl
    · by_cases hji : j = i
      · subst hji
        obtain ⟨-, -, -, hloc, -⟩ := hnew s hs
        rw [hloc]
        exact hself
      · rw [hold j hji] at hs
        rw [hotOther _ (hfree hs hr)]
        exact h.resolved j s hs hr
    · by_cases hl : l = locate
      · subst hl
        rw [hbooks, Function.update_self] at hb
        exact h.lt_of_gets hg hgets hb
      · rw [hother l hl] at hb
        exact Nat.lt_of_lt_of_le (h.ofLocate l b hb) hg.created
    · rw [hg.byName] at hb
      exact Nat.lt_of_lt_of_le (h.ofProfile n b hb) hg.created
    · by_cases hji : j = i
      · subst hji
        obtain ⟨s₀, hs₀, -, -, hbook⟩ := hnew s hs
        rw [hbook] at hb
        split_ifs at hb
        · exact Nat.lt_of_lt_of_le (h.ofHot j s₀ b hs₀ hb) hg.created
        · exact h.lt_of_gets hg hgets hb
      · rw [hold j hji] at hs
        exact Nat.lt_of_lt_of_le (h.ofHot j s b hs hb) hg.created
    · rw [hg.cfg] at hc
      by_cases hji : j = i
      · subst hji
        obtain ⟨s₀, hs₀, -, -, hbook⟩ := hnew s hs
        rw [hbook, if_pos hc]
        exact h.cold hc j s₀ hs₀
      · rw [hold j hji] at hs
        exact h.cold hc j s hs
    · by_cases hji : j = i
      · subst hji
        obtain ⟨s₀, hs₀, -, hloc, hbook⟩ := hnew s hs
        rw [hloc] at hl
        rw [hother l hl] at heq
        rw [hbook] at hb
        split_ifs at hb with hc
        · rw [h.cold hc j s₀ hs₀] at hb
          cases hb
        · obtain rfl | ⟨-, b', hb', hge, -⟩ := hgets
          · exact halone hc b hb l hl heq
          · cases hb'.symm.trans hb
            have := h.ofLocate l b heq
            omega
      · rw [hold j hji] at hs
        by_cases hloc : l = locate
        · subst hloc
          rw [hbooks, Function.update_self] at heq
          exact h.not_gets htaken hs hr hb hl.symm hgets heq
        · rw [hother l hloc] at heq
          exact h.own j s b hs hr hb l hl heq
  · -- the hot symbols stay as they are
    have hbyName : ∀ j, t.hotIndexOf locate = some j ↔ t.hotIndexByName name = some j := by
      intro j
      cases hn : t.hotIndexByName name with
      | none =>
          rw [hn] at hname
          simp [show t.hotIndexOf locate = none from hname]
      | some i₀ =>
          rw [hn] at hname
          obtain hsame | ⟨hnone, hun, -⟩ := hname
          · rw [hsame]
          · have hfind := findIdx_unresolved hn hun
            obtain hno | hno := hno
            · exact absurd hnone hno
            · exact absurd (hno.symm.trans hfind) (by simp)
    have hother : ∀ l ≠ locate, t'.books l = t.books l := fun l hl => by rw [hbooks, Function.update_of_ne hl]
    have hot : ∀ l, t'.hotIndexOf l = t.hotIndexOf l := by
      intro l
      by_cases hl : l = locate
      · subst hl; rw [hotIndexOf, hbooks, Function.update_self]; rfl
      · exact congrArg Entry.hot (hother l hl)
    refine ⟨⟨fun l j => ?_, fun l j hj => ?_, fun l => ?_⟩, fun j s hs hr => ?_, fun l b hb => ?_,
      fun n b hb => ?_, fun j s b hs hb => ?_, fun hc j s hs => ?_, fun j s b hs hr hb l hl heq => ?_⟩
    · simp only [hotIndexByName_congr (congrArg (List.map HotSymbol.name) hhots), hot]
      by_cases hl : l = locate
      · subst hl
        rw [hbyName]
        simp
      · rw [Function.update_of_ne hl]
        exact h.hot l j
    · rw [hot] at hj
      rw [hhots]
      exact h.locate l j hj
    · rw [hot, ← h.isHot, BookTable.isHot, hbits]
      rfl
    · rw [hhots] at hs
      rw [hot]
      exact h.resolved j s hs hr
    · by_cases hl : l = locate
      · subst hl
        rw [hbooks, Function.update_self] at hb
        exact h.lt_of_gets hg hgets hb
      · rw [hother l hl] at hb
        exact Nat.lt_of_lt_of_le (h.ofLocate l b hb) hg.created
    · rw [hg.byName] at hb
      exact Nat.lt_of_lt_of_le (h.ofProfile n b hb) hg.created
    · rw [hhots] at hs
      exact Nat.lt_of_lt_of_le (h.ofHot j s b hs hb) hg.created
    · rw [hg.cfg] at hc
      rw [hhots] at hs
      exact h.cold hc j s hs
    · rw [hhots] at hs
      by_cases hloc : l = locate
      · subst hloc
        rw [hbooks, Function.update_self] at heq
        exact h.not_gets htaken hs hr hb hl.symm hgets heq
      · rw [hother l hloc] at heq
        exact h.own j s b hs hr hb l hl heq

theorem step (h : Routed t names) {op : Op} (hb : t.Binds op) : Routed (t.step op) (directed names op) := by
  cases op with
  | restart => exact h.clearAll
  | message msg =>
      obtain ⟨locate, body⟩ := msg
      cases body
      case stockDirectory name => exact h.onDirectory hb
      all_goals exact h.apply (by simp)

theorem run (h : Routed t names) {ops : List Op} (hb : EachOp Binds t ops) :
    Routed (t.run ops) (ops.foldl directed names) := by
  induction ops generalizing t names with
  | nil => exact h
  | cons op ops ih => exact ih (h.step hb.1) hb.2

end Routed

/-! ### The table at the start -/

/-- A table before its first message: nothing is bound, and its profiles have books. -/
structure Fresh (t : BookTable) : Prop where
  books : ∀ l, t.books l = {}
  hotBits : ∀ l, t.hotBits l = false
  unresolved : ∀ (i : ℕ) (h : HotSymbol), t.hots[i]? = some h → h.resolved = false
  ofProfile : ∀ name b, t.byName.lookup name = some b → b < t.created
  ofHot : ∀ (i : ℕ) (h : HotSymbol) b, t.hots[i]? = some h → h.book = some b → b < t.created
  cold : t.cfg.scope = .coldOnly → ∀ (i : ℕ) (h : HotSymbol), t.hots[i]? = some h → h.book = none

namespace Fresh

variable {t : BookTable}

theorem addProfile (h : Fresh t) (p : SymbolProfile) : Fresh (t.addProfile p) := by
  have hprofile : ∀ name b, ((p.name, t.created) :: t.byName).lookup name = some b → b < t.created + 1 := by
    intro name b hb
    rw [List.lookup_cons] at hb
    split at hb
    · cases hb; exact Nat.lt_succ_self _
    · exact Nat.lt_succ_of_lt (h.ofProfile name b hb)
  unfold BookTable.addProfile
  simp only
  split_ifs with hskip hscope
  · exact h
  · exact h
  · split
    next hnone => exact ⟨h.books, h.hotBits, h.unresolved, hprofile,
        fun i s b hs hb => Nat.lt_succ_of_lt (h.ofHot i s b hs hb), h.cold⟩
    next j hj =>
      have hnot : t.cfg.scope ≠ .coldOnly := fun hc => hscope (.inr ⟨hc, by rw [hj]; exact Option.some_ne_none j⟩)
      have hback : ∀ (i : ℕ) (s : HotSymbol),
          (t.hots.modify j fun s => if s.book.isNone then { s with book := some t.created } else s)[i]? = some s →
            ∃ s₀ : HotSymbol, t.hots[i]? = some s₀ ∧ s.resolved = s₀.resolved ∧
              (s.book = s₀.book ∨ s.book = some t.created) := by
        intro i s hs
        rw [List.getElem?_modify] at hs
        obtain ⟨s₀, hs₀, rfl⟩ := Option.map_eq_some_iff.mp hs
        refine ⟨s₀, hs₀, ?_⟩
        split_ifs
        · exact ⟨rfl, .inr rfl⟩
        · exact ⟨rfl, .inl rfl⟩
        · exact ⟨rfl, .inl rfl⟩
      refine ⟨h.books, h.hotBits, fun i s hs => ?_, hprofile, fun i s b hs hb => ?_, fun hc => absurd hc hnot⟩
      · obtain ⟨s₀, hs₀, hr, -⟩ := hback i s hs
        exact hr.trans (h.unresolved i s₀ hs₀)
      · obtain ⟨s₀, hs₀, -, hbook | hbook⟩ := hback i s hs
        · exact Nat.lt_succ_of_lt (h.ofHot i s₀ b hs₀ (hbook.symm.trans hb))
        · cases hbook.symm.trans hb
          exact Nat.lt_succ_self _

theorem routed (h : Fresh t) : Routed t fun _ => none := by
  have hot : ∀ l, t.hotIndexOf l = none := fun l => by rw [hotIndexOf, h.books l]
  refine ⟨⟨fun l i => ?_, fun l i hi => ?_, fun l => ?_⟩, fun i s hs hr => ?_, fun l b hb => ?_, h.ofProfile,
    h.ofHot, h.cold, fun i s b hs hr => ?_⟩
  · rw [hot]; simp
  · rw [hot] at hi; cases hi
  · rw [hot, BookTable.isHot, h.hotBits]; rfl
  · rw [h.unresolved i s hs] at hr; cases hr
  · rw [h.books l] at hb; cases hb
  · rw [h.unresolved i s hs] at hr; cases hr

end Fresh

/-- A new table without pinned locates has bound nothing. -/
theorem fresh_new (cfg : BookTableConfig) (hpin : cfg.hotLocates = []) : Fresh (BookTable.new cfg) := by
  have hblank : Fresh (blank cfg) := by
    have hhots : ∀ (i : ℕ) (h : HotSymbol), (blank cfg).hots[i]? = some h → h.resolved = false ∧ h.book = none := by
      intro i h hi
      simp only [blank, List.getElem?_map] at hi
      obtain ⟨n, -, rfl⟩ := Option.map_eq_some_iff.mp hi
      exact ⟨rfl, rfl⟩
    refine ⟨fun _ => rfl, fun _ => rfl, fun i h hi => (hhots i h hi).1, fun _ _ hb => (nomatch hb),
      fun i h b hi hb => ?_, fun _ i h hi => (hhots i h hi).2⟩
    rw [(hhots i h hi).2] at hb
    cases hb
  have hprofiles : ∀ (l : List SymbolProfile) (t : BookTable), Fresh t → Fresh (l.foldl addProfile t) := by
    intro l
    induction l with
    | nil => exact fun _ h => h
    | cons p l ih => exact fun t h => ih _ (h.addProfile p)
  unfold BookTable.new
  simp only [hpin, List.zip_nil_right, List.foldl_nil]
  exact hprofiles cfg.profiles _ hblank

/-! ### The books of hot symbols -/

theorem hotBook_eq {t : BookTable} {i : ℕ} {h : HotSymbol} (hi : t.hots[i]? = some h) :
    t.hotBook i = match h.book with
      | some b => t.storage b
      | none => t.empty := by
  unfold hotBook
  rw [hi]
  obtain ⟨name, book, locate, resolved, trading⟩ := h
  cases book <;> rfl

/-- The book of a hot symbol is as before if its number is, and nothing was written there. -/
theorem hotBook_congr {t t' : BookTable} {i : ℕ} {h h' : HotSymbol} (hi : t.hots[i]? = some h)
    (hi' : t'.hots[i]? = some h') (hbook : h'.book = h.book) (hempty : t'.empty = t.empty)
    (hstorage : ∀ b, h.book = some b → t'.storage b = t.storage b) : t'.hotBook i = t.hotBook i := by
  rw [hotBook_eq hi, hotBook_eq hi', hbook]
  cases hb : h.book with
  | none => exact hempty
  | some b => exact hstorage b hb

/-- The book of a bound hot symbol changes only by restarts, by messages with its locate,
and by its directory entries. -/
def KeepsBooks (t : BookTable) (op : Op) : Prop :=
  ∀ l i, t.hotIndexOf l = some i →
    (t.step op).hotBook i = t.hotBook i ∨ op = .restart ∨
      ∃ msg, op = .message msg ∧
        (msg.locate = l ∨ ∃ name, msg.body = .stockDirectory name ∧ t.hotIndexByName name = some i)

theorem Routed.keepsBooks {t : BookTable} {names : ℕ → Option (List UInt8)} (h : Routed t names) (op : Op) :
    t.KeepsBooks op := by
  intro l i hi
  obtain ⟨s, hs, hloc, hr⟩ := h.locate l i hi
  cases op with
  | restart => exact .inr (.inl rfl)
  | message msg =>
      by_cases hl : msg.locate = l
      · exact .inr (.inr ⟨msg, rfl, .inl hl⟩)
      by_cases hdir : ∀ name, msg.body ≠ .stockDirectory name
      · -- a message for another locate writes to the book of that one
        left
        obtain ⟨hg, hhots, -, -, -, b', hb', hbook⟩ := ensureBook_spec t msg.locate
        have hs' : (t.ensureBook msg.locate).hots[i]? = some s := by rw [hhots]; exact hs
        have hkeep : ∀ b, s.book = some b → (t.ensureBook msg.locate).storage b = t.storage b :=
          fun b hb => hg.storage b (h.ofHot i s b hs hb)
        have hne : ∀ b, s.book = some b → b ≠ b' := by
          rintro b hb rfl
          obtain hold | ⟨-, hge, -⟩ := hbook
          · exact h.own i s b hs hr hb msg.locate (by rw [hloc]; exact hl) hold
          · have := h.ofHot i s b hs hb
            omega
        obtain he | he | ⟨trading, he⟩ | he := apply_cases t hdir
        · rw [BookTable.step, he]
        · rw [BookTable.step, he]
          exact hotBook_congr hs hs' rfl hg.empty hkeep
        · rw [BookTable.step, he]
          unfold BookTable.setTrading
          split
          · exact hotBook_congr hs hs' rfl hg.empty hkeep
          next j hj =>
            have hsome : ∃ s' : HotSymbol, ((t.ensureBook msg.locate).setHot j fun s => { s with trading := trading }).hots[i]? =
                some s' ∧ s'.book = s.book := by
              simp only [setHot, List.getElem?_modify, hs']
              refine ⟨_, rfl, ?_⟩
              split_ifs <;> rfl
            obtain ⟨s', hs'', hbook'⟩ := hsome
            exact hotBook_congr hs hs'' hbook' hg.empty hkeep
        · rw [BookTable.step, he, hb']
          refine hotBook_congr hs hs' rfl hg.empty fun b hb => ?_
          exact (Function.update_of_ne (hne b hb) ..).trans (hkeep b hb)
      · push Not at hdir
        obtain ⟨name, hname⟩ := hdir
        by_cases hi' : t.hotIndexByName name = some i
        · exact .inr (.inr ⟨msg, rfl, .inr ⟨name, hname, hi'⟩⟩)
        · -- a directory entry for another symbol
          left
          obtain ⟨locate, body⟩ := msg
          simp only at hname hl
          subst hname
          have hd := onDirectory_directs t locate name
          rw [show t.step (.message ⟨locate, .stockDirectory name⟩) = t.onDirectory locate name from rfl]
          revert hd
          generalize t.onDirectory locate name = t'
          rintro (⟨j, book, -, hj, hg, -, -, -, hhots⟩ | ⟨book, -, hg, -, -, -, hhots⟩)
          · have hji : j ≠ i := by
              rintro rfl
              obtain ⟨hlt, hp, -⟩ := List.findIdx?_eq_some_iff_getElem.mp hj
              rw [List.getElem?_eq_getElem hlt] at hs
              cases hs
              simp [hr] at hp
            refine hotBook_congr hs ?_ rfl hg.empty fun b hb => hg.storage b (h.ofHot i s b hs hb)
            rw [hhots, List.getElem?_modify_ne _ _ hji]
            exact hs
          · exact hotBook_congr hs (by rw [hhots]; exact hs) rfl hg.empty
              fun b hb => hg.storage b (h.ofHot i s b hs hb)

/-- One hot symbol, `A`. -/
def hotA : BookTableConfig := { hotSymbols := [[65]], hotBandTicks := 4, hotMapSlots := 16, coldBandTicks := 4,
                                coldMapSlots := 16 }

/-- A directory entry. -/
def directoryEntry (locate : ℕ) (name : List UInt8) : Op := .message ⟨locate, .stockDirectory name⟩

end BookTable

end TickToTrade.Dut
