import TickToTrade.Dut.BookBuilder

/-!
# The table of books

The table routes the messages of the feed to the books of their symbols, by the
locate code of the message. A few symbols are hot, those that the DUT trades; a
directory entry binds a locate to a hot symbol, or to the book that the profile of
the symbol asked for. A session restart clears the hot books at once and every other
book when its next message comes.

The program keeps the books in a deque and points to them; here a book is an index
of `storage`. The hot index of a locate is a 16-bit integer in the program, with `-1`
for none, and an optional number here. Counters that only report are left out.
-/

namespace TickToTrade.Dut

open Util

/-- `BookScope`: which symbols a table keeps books for. -/
inductive BookScope where
  | all
  | hotOnly
  | coldOnly
deriving DecidableEq, Repr

/-- `SymbolProfile`: what is known of a symbol beforehand. -/
structure SymbolProfile where
  name : List UInt8
  /-- A price to anchor the book at, if it is positive. -/
  refPrice : ℤ
  /-- The most orders seen at a time. -/
  peakOrders : ℕ

/-- `BookTableConfig`. -/
structure BookTableConfig where
  tickWire : ℤ := 100
  subDollarTick : ℤ := 1
  coldBandTicks : ℕ := 2048
  hotBandTicks : ℕ := 8192
  maxBandTicks : ℕ := 2 ^ 16
  /-- The half width that the price asks for, from the price and the tick. -/
  byPrice : ℤ → ℤ → ℤ := fun _ _ => 0
  coldMapSlots : ℕ := 1024
  hotMapSlots : ℕ := 2 ^ 16
  ownRefMin : ℕ := 0
  /-- The names of the hot symbols. -/
  hotSymbols : List (List UInt8) := []
  /-- The locates of the first hot symbols, when they are known beforehand. -/
  hotLocates : List ℕ := []
  profiles : List SymbolProfile := []
  scope : BookScope := .all

/-- `HotSymbol`. -/
structure HotSymbol where
  name : List UInt8
  /-- The symbol's book, if it has one yet. -/
  book : Option ℕ := none
  locate : ℕ := 0
  /-- Is the locate known? -/
  resolved : Bool := false
  /-- Is the symbol in continuous trading? -/
  trading : Bool := true

/-- What the table knows of a locate. -/
structure Entry where
  book : Option ℕ := none
  /-- The hot symbol that the locate is bound to. -/
  hot : Option ℕ := none

/-- `BookTable`. -/
structure BookTable where
  cfg : BookTableConfig
  /-- The books made so far, the first `created` ones. -/
  storage : ℕ → BookBuilder
  created : ℕ
  /-- The locates. -/
  books : ℕ → Entry
  /-- The locates that are bound to a hot symbol. -/
  hotBits : ℕ → Bool
  /-- The book that stands in for a missing one. -/
  empty : BookBuilder
  hots : List HotSymbol
  /-- The books made from profiles, by the symbol's name. -/
  byName : List (List UInt8 × ℕ)
  undirected : ℕ := 0
  /-- The number of restarts, a 32-bit word. -/
  epoch : ℕ := 0
  /-- The number of live orders, a 64-bit word. -/
  live : ℕ := 0

namespace BookTable

/-- The configuration of a book. -/
def configFor (cfg : BookTableConfig) (hot : Bool) : BookConfig where
  tickWire := cfg.tickWire
  subDollarTickWire := cfg.subDollarTick
  bandTicks := if hot then cfg.hotBandTicks else cfg.coldBandTicks
  maxBandTicks := cfg.maxBandTicks
  byPrice := cfg.byPrice
  maxOrders := if hot then cfg.hotMapSlots else cfg.coldMapSlots
  ownRefMin := cfg.ownRefMin

/-- The configuration of the book of a profile: room for its orders, and its price. -/
def configProfiled (cfg : BookTableConfig) (p : SymbolProfile) (hot : Bool) : BookConfig :=
  let bc := configFor cfg hot
  let want := p.peakOrders * 2
  let bc := if want > bc.maxOrders then { bc with maxOrders := Nat.nextPowerOfTwo want } else bc
  if p.refPrice > 0 then { bc with anchorPrice := p.refPrice } else bc

/-- Put a new book into the storage. -/
def emplace (t : BookTable) (bc : BookConfig) : BookTable :=
  { t with
    storage := Function.update t.storage t.created (BookBuilder.ofConfig bc)
    created := t.created + 1 }

/-- Overwrite the entry of a locate. -/
def setEntry (t : BookTable) (locate : ℕ) (e : Entry) : BookTable :=
  { t with books := Function.update t.books locate e }

/-- Make a book for a locate. -/
def create (t : BookTable) (locate : ℕ) (hot : Bool) : BookTable :=
  (t.emplace (configFor t.cfg hot)).setEntry locate { t.books locate with book := some t.created }

/-- Change a hot symbol. -/
def setHot (t : BookTable) (i : ℕ) (f : HotSymbol → HotSymbol) : BookTable :=
  { t with hots := t.hots.modify i f }

/-- Bind a locate to a hot symbol. -/
def bindHot (t : BookTable) (locate i : ℕ) : BookTable :=
  let t := t.setHot i fun h => { h with resolved := true, locate := locate }
  let t := t.setEntry locate { t.books locate with hot := some i }
  { t with hotBits := Function.update t.hotBits locate true }

/-- The hot symbol of a name. -/
def hotIndexByName (t : BookTable) (name : List UInt8) : Option ℕ :=
  t.hots.findIdx? fun h => h.name = name

/-! ### The constructor -/

/-- Bind the hot symbol `i` to a locate known beforehand. -/
def pin (t : BookTable) (i locate : ℕ) : BookTable :=
  let t := t.bindHot locate i
  let t := if (t.books locate).book.isNone then t.create locate true else t
  t.setHot i fun h => { h with book := (t.books locate).book }

/-- Make the book of a profile, unless the table has one of that name or keeps no
books for such symbols. -/
def addProfile (t : BookTable) (p : SymbolProfile) : BookTable :=
  if p.name = [] ∨ (t.byName.lookup p.name).isSome then t
  else
    let h := t.hotIndexByName p.name
    if (t.cfg.scope = .hotOnly ∧ h = none) ∨ (t.cfg.scope = .coldOnly ∧ h ≠ none) then t
    else
      let b := t.created
      let t := t.emplace (configProfiled t.cfg p h.isSome)
      let t := { t with byName := (p.name, b) :: t.byName }
      match h with
      | none => t
      | some h => t.setHot h fun s => if s.book.isNone then { s with book := some b } else s

/-- A table without any book. -/
def blank (cfg : BookTableConfig) : BookTable :=
  let empty := BookBuilder.ofConfig { tickWire := cfg.tickWire, bandTicks := 1, maxOrders := 16 }
  { cfg := cfg
    storage := fun _ => empty
    created := 0
    books := fun _ => {}
    hotBits := fun _ => false
    empty := empty
    hots := cfg.hotSymbols.map fun name => { name := name }
    byName := [] }

/-- The constructor. -/
def new (cfg : BookTableConfig) : BookTable :=
  let pinned := (List.range cfg.hotSymbols.length).zip cfg.hotLocates
  cfg.profiles.foldl addProfile (pinned.foldl (fun t p => t.pin p.1 p.2) (blank cfg))

/-! ### Messages -/

/-- The end of `onDirectory`: the locate gets a book if the table keeps cold ones. -/
def directCold (t : BookTable) (locate : ℕ) : BookTable :=
  if (t.books locate).book.isNone ∧ t.cfg.scope ≠ .hotOnly then t.create locate false else t

/-- Bind a locate to the hot symbol of a directory entry. -/
def directHot (t : BookTable) (locate i : ℕ) : BookTable :=
  let t := t.bindHot locate i
  if t.cfg.scope = .coldOnly then t
  else
    let t := if (t.books locate).book.isNone then t.create locate true else t
    t.setHot i fun h => { h with book := (t.books locate).book }

/-- A directory entry names the symbol of a locate. -/
def onDirectory (t : BookTable) (locate : ℕ) (name : List UInt8) : BookTable :=
  let e := t.books locate
  let t := if e.book.isNone then t.setEntry locate { e with book := t.byName.lookup name } else t
  match (t.books locate).hot, t.hots.findIdx? fun h => !h.resolved && h.name = name with
  | none, some i => t.directHot locate i
  | _, _ => t.directCold locate

/-- Apply a message to a book, after the clear that a restart owes it. -/
def applyToBook (t : BookTable) (i : ℕ) (body : Itch.Body) : BookTable :=
  let b := t.storage i
  let b := if b.epoch ≠ t.epoch then { b.clear with epoch := t.epoch } else b
  let before := b.liveOrders
  let b := b.apply body
  { t with
    storage := Function.update t.storage i b
    live := ((t.live + (b.liveOrders - before)) % 2 ^ 64).toNat }

/-- Make sure that a locate has a book, also when no directory entry came for it. -/
def ensureBook (t : BookTable) (locate : ℕ) : BookTable :=
  if (t.books locate).book.isNone then
    { t with undirected := t.undirected + 1 }.create locate (t.books locate).hot.isSome
  else t

/-- Does the table keep no book for the locate? -/
def skips (t : BookTable) (locate : ℕ) : Bool :=
  let e := t.books locate
  e.book.isNone && ((t.cfg.scope = .hotOnly && e.hot.isNone) || (t.cfg.scope = .coldOnly && e.hot.isSome))

/-- Set whether the hot symbol of a locate, if it has one, is in continuous trading. -/
def setTrading (t : BookTable) (locate : ℕ) (trading : Bool) : BookTable :=
  match (t.books locate).hot with
  | none => t
  | some h => t.setHot h fun s => { s with trading := trading }

/-- Apply a message; the result is the hot symbol of its locate. -/
def apply (t : BookTable) (msg : Itch.Msg) : BookTable × Option ℕ :=
  let hot := (t.books msg.locate).hot
  match msg.body with
  | .stockDirectory name =>
      let t := t.onDirectory msg.locate name
      (t, (t.books msg.locate).hot)
  | .stockDirectoryShort => (t, hot)
  | body =>
      if t.skips msg.locate then (t, hot)
      else
        let t := t.ensureBook msg.locate
        match body with
        | .stockTradingAction state => (t.setTrading msg.locate (state = .trading), hot)
        | .stockTradingActionShort => (t, hot)
        | body => (t.applyToBook ((t.books msg.locate).book.getD 0) body, hot)

/-- A session restart: the hot books are cleared now, the others when next used. -/
def clearAll (t : BookTable) : BookTable :=
  let epoch := (t.epoch + 1) % 2 ^ 32
  let storage := t.hots.foldl
    (fun storage h => match h.book with
      | none => storage
      | some i => Function.update storage i { (storage i).clear with epoch := epoch }) t.storage
  { t with
    epoch := epoch
    live := 0
    hots := t.hots.map fun h => { h with trading := true }
    storage := storage }

/-! ### Queries -/

/-- The number of hot symbols. -/
def hotCount (t : BookTable) : ℕ := t.hots.length

/-- The book of a hot symbol. -/
def hotBook (t : BookTable) (h : ℕ) : BookBuilder :=
  match t.hots[h]? with
  | some { book := some i, .. } => t.storage i
  | _ => t.empty

/-- Is a hot symbol in continuous trading? -/
def trading (t : BookTable) (h : ℕ) : Bool :=
  match t.hots[h]? with
  | some s => s.trading
  | none => true

/-- Is a locate bound to a hot symbol? -/
def isHot (t : BookTable) (locate : ℕ) : Bool := t.hotBits locate

/-- The hot symbol of a locate. -/
def hotIndexOf (t : BookTable) (locate : ℕ) : Option ℕ := (t.books locate).hot

/-! ### The number of hot symbols -/

section

variable (t : BookTable)

@[simp] theorem hotCount_emplace (bc : BookConfig) : (t.emplace bc).hotCount = t.hotCount := rfl

@[simp] theorem hotCount_setEntry (locate : ℕ) (e : Entry) : (t.setEntry locate e).hotCount = t.hotCount := rfl

@[simp] theorem hotCount_create (locate : ℕ) (hot : Bool) : (t.create locate hot).hotCount = t.hotCount := rfl

@[simp] theorem hotCount_setHot (i : ℕ) (f : HotSymbol → HotSymbol) : (t.setHot i f).hotCount = t.hotCount :=
  List.length_modify ..

@[simp] theorem hotCount_bindHot (locate i : ℕ) : (t.bindHot locate i).hotCount = t.hotCount :=
  hotCount_setHot ..

@[simp] theorem hotCount_applyToBook (i : ℕ) (body : Itch.Body) :
    (t.applyToBook i body).hotCount = t.hotCount := rfl

@[simp] theorem hotCount_directHot (locate i : ℕ) : (t.directHot locate i).hotCount = t.hotCount := by
  unfold directHot
  simp only
  split_ifs <;> simp

@[simp] theorem hotCount_directCold (locate : ℕ) : (t.directCold locate).hotCount = t.hotCount := by
  unfold directCold
  split_ifs <;> simp

@[simp] theorem hotCount_onDirectory (locate : ℕ) (name : List UInt8) :
    (t.onDirectory locate name).hotCount = t.hotCount := by
  unfold onDirectory
  simp only
  split <;> split_ifs <;> simp

@[simp] theorem hotCount_ensureBook (locate : ℕ) : (t.ensureBook locate).hotCount = t.hotCount := by
  unfold ensureBook
  split_ifs <;> rfl

@[simp] theorem hotCount_setTrading (locate : ℕ) (trading : Bool) :
    (t.setTrading locate trading).hotCount = t.hotCount := by
  unfold setTrading
  split <;> simp

/-- No message changes the number of hot symbols. -/
@[simp] theorem hotCount_apply (msg : Itch.Msg) : (t.apply msg).1.hotCount = t.hotCount := by
  unfold apply
  cases hb : msg.body
  case stockDirectory => exact hotCount_onDirectory ..
  case stockDirectoryShort => rfl
  all_goals
    simp only
    split_ifs <;> simp

@[simp] theorem hotCount_clearAll : t.clearAll.hotCount = t.hotCount := List.length_map ..

@[simp] theorem hotCount_pin (i locate : ℕ) : (t.pin i locate).hotCount = t.hotCount := by
  unfold pin
  simp only
  split_ifs <;> simp

@[simp] theorem hotCount_addProfile (p : SymbolProfile) : (t.addProfile p).hotCount = t.hotCount := by
  unfold addProfile
  simp only
  split_ifs
  · rfl
  · rfl
  · split
    · rfl
    · simp [hotCount, setHot]
      rfl

end

/-! ### Trading -/

section

variable (t : BookTable)

theorem trading_setHot_of_ne {h i : ℕ} (hne : h ≠ i) (f : HotSymbol → HotSymbol) :
    (t.setHot i f).trading h = t.trading h := by
  simp [trading, setHot, Ne.symm hne]

/-- A change of a hot symbol that leaves its trading does not matter. -/
theorem trading_setHot_of_same (h i : ℕ) (f : HotSymbol → HotSymbol) (hf : ∀ s, (f s).trading = s.trading) :
    (t.setHot i f).trading h = t.trading h := by
  unfold trading setHot
  simp only [List.getElem?_modify]
  cases t.hots[h]? with
  | none => simp
  | some s => by_cases hi : i = h <;> simp [hi, hf]

theorem trading_bindHot (locate i h : ℕ) : (t.bindHot locate i).trading h = t.trading h :=
  trading_setHot_of_same t h i (fun s => { s with resolved := true, locate := locate }) fun _ => rfl

theorem trading_setBook (h i : ℕ) (book : Option ℕ) :
    (t.setHot i fun s => { s with book := book }).trading h = t.trading h :=
  trading_setHot_of_same t h i _ fun _ => rfl

theorem trading_directHot (locate i h : ℕ) : (t.directHot locate i).trading h = t.trading h := by
  unfold directHot
  simp only
  split_ifs
  · exact trading_bindHot t locate i h
  · exact (trading_setBook ..).trans (trading_bindHot t locate i h)
  · exact (trading_setBook ..).trans (trading_bindHot t locate i h)

theorem trading_directCold (locate h : ℕ) : (t.directCold locate).trading h = t.trading h := by
  unfold directCold
  split_ifs <;> rfl

theorem trading_onDirectory (locate : ℕ) (name : List UInt8) (h : ℕ) :
    (t.onDirectory locate name).trading h = t.trading h := by
  unfold onDirectory
  simp only
  split
  · rw [trading_directHot]
    split_ifs <;> rfl
  · rw [trading_directCold]
    split_ifs <;> rfl

theorem trading_ensureBook (locate h : ℕ) : (t.ensureBook locate).trading h = t.trading h := by
  unfold ensureBook
  split_ifs <;> rfl

/-- Only a message for a hot symbol changes whether the symbol is trading. -/
theorem trading_apply_of_ne {msg : Itch.Msg} {h : ℕ} (hne : (t.apply msg).2 ≠ some h) :
    (t.apply msg).1.trading h = t.trading h := by
  revert hne
  unfold apply
  cases hb : msg.body
  case stockDirectory name => exact fun _ => trading_onDirectory ..
  case stockDirectoryShort => exact fun _ => rfl
  case stockTradingAction state =>
    simp only
    split_ifs
    · exact fun _ => rfl
    · intro hne
      have hhot : ((t.ensureBook msg.locate).books msg.locate).hot = (t.books msg.locate).hot := by
        unfold ensureBook
        split_ifs <;> simp [create, setEntry]
      unfold setTrading
      rw [hhot]
      cases hi : (t.books msg.locate).hot with
      | none => exact trading_ensureBook ..
      | some i =>
          rw [trading_setHot_of_ne _ (fun he => hne (by rw [hi, he]))]
          exact trading_ensureBook ..
  all_goals
    simp only
    split_ifs
    · exact fun _ => rfl
    · exact fun _ => trading_ensureBook ..

end

/-! ### The bound locates -/

/-- Every locate that is bound is bound to a hot symbol of the table. -/
def Bound (t : BookTable) : Prop := ∀ locate i, (t.books locate).hot = some i → i < t.hotCount

namespace Bound

variable {t t' : BookTable}

/-- The hot symbols of the locates are all that matters. -/
theorem congr (h : t.Bound) (hhot : ∀ l, (t'.books l).hot = (t.books l).hot)
    (hcount : t'.hotCount = t.hotCount) : t'.Bound := by
  intro l i hi
  rw [hcount]
  exact h l i (by rw [← hhot]; exact hi)

theorem create_hot (t : BookTable) (locate : ℕ) (hot : Bool) (l : ℕ) :
    ((t.create locate hot).books l).hot = (t.books l).hot := by
  by_cases hl : l = locate
  · subst hl; simp [create, setEntry]
  · simp [create, setEntry, emplace, hl]

theorem create (h : t.Bound) (locate : ℕ) (hot : Bool) : (t.create locate hot).Bound :=
  h.congr (create_hot t locate hot) rfl

theorem ensureBook (h : t.Bound) (locate : ℕ) : (t.ensureBook locate).Bound := by
  unfold BookTable.ensureBook
  split_ifs
  · exact Bound.create (t := { t with undirected := t.undirected + 1 }) h _ _
  · exact h

theorem setHot (h : t.Bound) (i : ℕ) (f : HotSymbol → HotSymbol) : (t.setHot i f).Bound :=
  h.congr (fun _ => rfl) (hotCount_setHot t i f)

theorem bindHot (h : t.Bound) {i : ℕ} (hi : i < t.hotCount) (locate : ℕ) : (t.bindHot locate i).Bound := by
  intro l j hj
  rw [hotCount_bindHot]
  by_cases hl : l = locate
  · subst hl
    have : some i = some j := by simpa [BookTable.bindHot, setEntry] using hj
    cases this
    exact hi
  · exact h l j (by simpa [BookTable.bindHot, setEntry, BookTable.setHot, hl] using hj)

theorem directHot (h : t.Bound) {i : ℕ} (hi : i < t.hotCount) (locate : ℕ) :
    (t.directHot locate i).Bound := by
  have hb := h.bindHot hi locate
  unfold BookTable.directHot
  simp only
  split_ifs
  · exact hb
  · exact (hb.create locate true).setHot _ _
  · exact hb.setHot _ _

theorem directCold (h : t.Bound) (locate : ℕ) : (t.directCold locate).Bound := by
  unfold BookTable.directCold
  split_ifs
  · exact h.create locate false
  · exact h

theorem onDirectory (h : t.Bound) (locate : ℕ) (name : List UInt8) : (t.onDirectory locate name).Bound := by
  unfold BookTable.onDirectory
  simp only
  generalize ht : (if (t.books locate).book.isNone = true then
    t.setEntry locate { t.books locate with book := t.byName.lookup name } else t) = u
  have hu : u.Bound := by
    rw [← ht]
    split_ifs
    · refine h.congr (fun l => ?_) rfl
      by_cases hl : l = locate
      · subst hl; simp [setEntry]
      · simp [setEntry, hl]
    · exact h
  split
  next i _ hi =>
    obtain ⟨hlt, -⟩ := List.findIdx?_eq_some_iff_getElem.mp hi
    exact hu.directHot hlt locate
  next => exact hu.directCold locate

theorem apply (h : t.Bound) (msg : Itch.Msg) : (t.apply msg).1.Bound := by
  have he := h.ensureBook msg.locate
  unfold BookTable.apply
  cases hb : msg.body
  case stockDirectory name => exact h.onDirectory _ _
  case stockDirectoryShort => exact h
  case stockTradingAction =>
    simp only
    split_ifs
    · exact h
    · unfold BookTable.setTrading
      split
      · exact he
      · exact he.setHot _ _
  all_goals
    simp only
    split_ifs
    · exact h
    · exact he.congr (fun _ => rfl) rfl

/-- The hot symbol that a message is for is one of the table. -/
theorem apply_hot (h : t.Bound) {msg : Itch.Msg} {i : ℕ} (hi : (t.apply msg).2 = some i) : i < t.hotCount := by
  unfold BookTable.apply at hi
  cases hb : msg.body <;> simp only [hb] at hi
  case stockDirectory name =>
    rw [← hotCount_onDirectory]
    exact h.onDirectory _ _ _ _ hi
  case stockDirectoryShort => exact h _ _ hi
  all_goals
    split_ifs at hi <;> exact h _ _ hi

theorem clearAll (h : t.Bound) : t.clearAll.Bound := h.congr (fun _ => rfl) (hotCount_clearAll t)

theorem pin (h : t.Bound) {i : ℕ} (hi : i < t.hotCount) (locate : ℕ) : (t.pin i locate).Bound := by
  have hb := h.bindHot hi locate
  unfold BookTable.pin
  simp only
  split_ifs
  · exact (hb.create locate true).setHot _ _
  · exact hb.setHot _ _

theorem addProfile (h : t.Bound) (p : SymbolProfile) : (t.addProfile p).Bound := by
  refine h.congr (fun _ => ?_) (hotCount_addProfile t p)
  unfold BookTable.addProfile
  simp only
  split_ifs
  · rfl
  · rfl
  · split <;> rfl

end Bound

/-- A table has the hot symbols of its configuration, and its locates are bound. -/
theorem new_spec (cfg : BookTableConfig) :
    (BookTable.new cfg).hotCount = cfg.hotSymbols.length ∧ (BookTable.new cfg).Bound := by
  have hpin : ∀ (l : List (ℕ × ℕ)) (t : BookTable), t.Bound → (∀ p ∈ l, p.1 < t.hotCount) →
      (l.foldl (fun t p => t.pin p.1 p.2) t).hotCount = t.hotCount ∧
        (l.foldl (fun t p => t.pin p.1 p.2) t).Bound := by
    intro l
    induction l with
    | nil => exact fun _ h _ => ⟨rfl, h⟩
    | cons p l ih =>
        intro t h hl
        have hp := h.pin (hl p (by simp)) p.2
        have := ih _ hp fun q hq => by rw [hotCount_pin]; exact hl q (by simp [hq])
        exact ⟨this.1.trans (hotCount_pin t p.1 p.2), this.2⟩
  have hprofile : ∀ (l : List SymbolProfile) (t : BookTable), t.Bound →
      (l.foldl addProfile t).hotCount = t.hotCount ∧ (l.foldl addProfile t).Bound := by
    intro l
    induction l with
    | nil => exact fun _ h => ⟨rfl, h⟩
    | cons p l ih =>
        intro t h
        have := ih _ (h.addProfile p)
        exact ⟨this.1.trans (hotCount_addProfile t p), this.2⟩
  have hblank : (blank cfg).hotCount = cfg.hotSymbols.length := List.length_map ..
  obtain ⟨hc, hb⟩ := hpin ((List.range cfg.hotSymbols.length).zip cfg.hotLocates) (blank cfg)
    (fun _ _ hi => nomatch hi) fun p hp => by rw [hblank]; exact List.mem_range.mp (List.of_mem_zip hp).1
  obtain ⟨hc', hb'⟩ := hprofile cfg.profiles _ hb
  exact ⟨hc'.trans (hc.trans hblank), hb'⟩

end BookTable

end TickToTrade.Dut
