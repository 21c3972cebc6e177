import TickToTrade.Dut.BandWords
import TickToTrade.Dut.BookStamps
import TickToTrade.Dut.TableBooks

/-!
# Books that are cleared late

A restart clears the books of the hot symbols; another book is cleared when a message next
reaches it, which the session stamped on it tells. `runAtOnce` is a table that clears
every book at the restart and looks at no stamps. A book of the table is the book that the
other one has, or is that book once the clear that it is owed is made (`Mirrors`).
-/

namespace TickToTrade.Dut

open Util

namespace BookBuilder

variable {b b' b'' : BookBuilder}

/-! ### Books but for their stamps -/

/-- The same book, but for its stamps. -/
def Same (b b' : BookBuilder) : Prop := ∃ epoch, Alike epoch b b'

namespace Same

theorem refl (b : BookBuilder) : Same b b := ⟨_, Alike.refl b⟩

theorem symm (h : Same b b') : Same b' b := by
  obtain ⟨epoch, version, rfl⟩ := h
  exact ⟨b.epoch, b.topVersion, rfl⟩

theorem trans (h : Same b b') (h' : Same b' b'') : Same b b'' := by
  obtain ⟨epoch, h⟩ := h
  obtain ⟨epoch', h'⟩ := h'
  exact ⟨epoch', h.trans h'⟩

theorem apply (h : Same b b') (m : Itch.Body) : Same (b.apply m) (b'.apply m) := by
  obtain ⟨epoch, h⟩ := h
  exact ⟨epoch, h.apply m⟩

theorem clear (h : Same b b') : Same b.clear b'.clear := by
  obtain ⟨epoch, h⟩ := h
  exact ⟨epoch, h.clear⟩

theorem liveOrders (h : Same b b') : b'.liveOrders = b.liveOrders := by
  obtain ⟨epoch, version, rfl⟩ := h
  rfl

theorem setEpoch (b : BookBuilder) (epoch : ℕ) : Same b { b with epoch := epoch } := ⟨epoch, b.topVersion, rfl⟩

end Same

/-- A clear would change nothing. -/
def Clean (b : BookBuilder) : Prop := Same b b.clear

theorem liveOrders_clear (b : BookBuilder) : b.clear.liveOrders = 0 := by
  unfold clear
  simp only
  split_ifs with hempty
  · exact hempty.1
  · rfl

theorem Clean.liveOrders (h : Clean b) : b.liveOrders = 0 := by rw [← Same.liveOrders h, liveOrders_clear]

/-- A book without orders, own orders, parked shares and best prices. -/
theorem clean_of_blank (hlive : b.liveOrders = 0) (hown : b.own = 0) (hparked : b.parkedShares = 0)
    (hbest : ∀ s, (b.side s).best = kNoPrice) : Clean b := by
  have hsides : (fun s => { b.side s with best := kNoPrice }) = b.side := by
    funext s
    rw [← hbest s]
  have hclear : b.clear = b.restamp ((b.topVersion + 1) % 2 ^ 32) b.epoch := by
    unfold BookBuilder.clear
    simp only
    rw [if_pos ⟨hlive, hown, hparked⟩, hsides]
    rfl
  exact ⟨_, _, hclear⟩

/-- A clear leaves nothing for another one. -/
theorem clean_clear (b : BookBuilder) : Clean b.clear := by
  refine clean_of_blank (liveOrders_clear b) ?_ ?_ fun s => ?_
  all_goals
    unfold BookBuilder.clear
    simp only
    split_ifs with hempty
  · exact hempty.2.1
  · rfl
  · exact hempty.2.2
  · rfl
  · rfl
  · rfl

/-- A new book has nothing to clear. -/
theorem clean_ofConfig (cfg : BookConfig) : Clean (ofConfig cfg) := by
  have hunplaced : Clean (unplaced cfg) := clean_of_blank rfl rfl rfl fun s => rfl
  rw [ofConfig_eq]
  split_ifs with hprice
  · have hnil : (unplaced cfg).orders.entries = [] := FlatHashMap.entries_empty ..
    rw [anchor_eq, if_neg fun h => Bool.noConfusion h.1]
    unfold anchorRebuild rebuildBand rebuildLevels
    rw [show (unplaced cfg).countAnchor.orders = (unplaced cfg).orders from rfl, hnil]
    exact clean_of_blank rfl rfl rfl fun s => rfl
  · exact hunplaced

end BookBuilder

namespace BookTable

open BookBuilder (Same Clean)

variable {t e : BookTable}

/-! ### A table that clears its books at once -/

/-- A message for a book that is owed nothing. -/
def applyAtOnceToBook (t : BookTable) (i : ℕ) (body : Itch.Body) : BookTable :=
  let b := t.storage i
  let before := b.liveOrders
  let b := b.apply body
  { t with
    storage := Function.update t.storage i b
    live := ((t.live + (b.liveOrders - before)) % 2 ^ 64).toNat }

/-- `apply` without a look at the stamps. -/
def applyAtOnce (t : BookTable) (msg : Itch.Msg) : BookTable × Option ℕ :=
  let hot := (t.books msg.locate).hot
  match msg.body with
  | .stockDirectory name =>
      let t := t.onDirectory msg.locate name
      (t, (t.books msg.locate).hot)
  | .stockDirectoryShort => (t, hot)
  | body =>
      if t.skips msg.locate then (t, hot)
      else
        let t := t.ensureBook msg.locate
        match body with
        | .stockTradingAction state => (t.setTrading msg.locate (state = .trading), hot)
        | .stockTradingActionShort => (t, hot)
        | body => (t.applyAtOnceToBook ((t.books msg.locate).book.getD 0) body, hot)

/-- A restart that clears every book. -/
def clearAtOnce (t : BookTable) : BookTable :=
  { t with
    epoch := (t.epoch + 1) % 2 ^ 32
    live := 0
    hots := t.hots.map fun h => { h with trading := true }
    storage := fun i => if i < t.created then (t.storage i).clear else t.storage i }

/-- One step of the table that clears at once. -/
def stepAtOnce (t : BookTable) : Op → BookTable
  | .message msg => (t.applyAtOnce msg).1
  | .restart => t.clearAtOnce

/-- A run of the table that clears at once. -/
def runAtOnce (t : BookTable) (ops : List Op) : BookTable := ops.foldl stepAtOnce t

/-! ### Making books -/

/-- The storage after a book may have been made. -/
def place (t : BookTable) (storage : ℕ → BookBuilder) : Option Bool → ℕ → BookBuilder
  | none => storage
  | some hot => Function.update storage t.created (BookBuilder.ofConfig (configFor t.cfg hot))

/-- The function makes a book, or none, and does not look into the books. -/
def Makes (f : BookTable → BookTable) (t : BookTable) : Prop :=
  ∃ made : Option Bool, (f t).created = t.created + made.toList.length ∧ (f t).epoch = t.epoch ∧ (f t).live = t.live ∧
    ∀ storage, f { t with storage := storage } = { f t with storage := t.place storage made }

/-- Whatever the books are, the function leads to the table `u`, with a book more or not. -/
theorem makes_of_eq {f : BookTable → BookTable} (u : BookTable) (made : Option Bool)
    (hcreated : u.created = t.created + made.toList.length) (hepoch : u.epoch = t.epoch) (hlive : u.live = t.live)
    (h : ∀ storage, f { t with storage := storage } = { u with storage := t.place storage made }) : Makes f t := by
  have hself : f t = { u with storage := t.place t.storage made } := h t.storage
  refine ⟨made, ?_, ?_, ?_, fun storage => ?_⟩
  · rw [hself]
    exact hcreated
  · rw [hself]
    exact hepoch
  · rw [hself]
    exact hlive
  · rw [h storage, hself]

theorem makes_ensureBook (t : BookTable) (locate : ℕ) : Makes (fun t => t.ensureBook locate) t := by
  by_cases hnone : (t.books locate).book.isNone
  · refine makes_of_eq ({ t with undirected := t.undirected + 1 }.create locate (t.books locate).hot.isSome)
      (some (t.books locate).hot.isSome) rfl rfl rfl fun storage => ?_
    unfold ensureBook
    rw [if_pos (show (({ t with storage := storage } : BookTable).books locate).book.isNone from hnone)]
    rfl
  · exact makes_of_eq t none rfl rfl rfl fun storage => if_neg hnone

theorem makes_directHot (t : BookTable) (locate i : ℕ) : Makes (fun t => t.directHot locate i) t := by
  by_cases hcold : t.cfg.scope = .coldOnly
  · exact makes_of_eq (t.bindHot locate i) none rfl rfl rfl fun storage => if_pos hcold
  by_cases hnone : ((t.bindHot locate i).books locate).book.isNone
  · refine makes_of_eq (((t.bindHot locate i).create locate true).setHot i
      fun h => { h with book := (((t.bindHot locate i).create locate true).books locate).book }) (some true) rfl rfl rfl
      fun storage => ?_
    unfold directHot
    simp only
    rw [if_neg (show ¬ (({ t with storage := storage } : BookTable).bindHot locate i).cfg.scope = .coldOnly from hcold),
      if_pos (show ((({ t with storage := storage } : BookTable).bindHot locate i).books locate).book.isNone from hnone)]
    rfl
  · refine makes_of_eq ((t.bindHot locate i).setHot i fun h => { h with book := ((t.bindHot locate i).books locate).book })
      none rfl rfl rfl fun storage => ?_
    unfold directHot
    simp only
    rw [if_neg (show ¬ (({ t with storage := storage } : BookTable).bindHot locate i).cfg.scope = .coldOnly from hcold),
      if_neg (show ¬ ((({ t with storage := storage } : BookTable).bindHot locate i).books locate).book.isNone from hnone)]
    rfl

theorem makes_directCold (t : BookTable) (locate : ℕ) : Makes (fun t => t.directCold locate) t := by
  by_cases hcold : (t.books locate).book.isNone ∧ t.cfg.scope ≠ .hotOnly
  · exact makes_of_eq (t.create locate false) (some false) rfl rfl rfl fun storage => if_pos hcold
  · exact makes_of_eq t none rfl rfl rfl fun storage => if_neg hcold

/-- The second half of `onDirectory`: the locate is bound to a hot symbol, or gets a book. -/
def direct (locate : ℕ) (name : List UInt8) (t : BookTable) : BookTable :=
  match (t.books locate).hot, t.hots.findIdx? fun h => !h.resolved && h.name = name with
  | none, some i => t.directHot locate i
  | _, _ => t.directCold locate

theorem makes_onDirectory (t : BookTable) (locate : ℕ) (name : List UInt8) : Makes (fun t => t.onDirectory locate name) t := by
  -- the profile's book, if the locate has none
  obtain ⟨u, hu, hcfg, hcreated, hepoch, hlive⟩ : ∃ u : BookTable, (∀ storage, (if (t.books locate).book.isNone then
      BookTable.setEntry { t with storage := storage } locate { t.books locate with book := t.byName.lookup name }
      else { t with storage := storage }) = { u with storage := storage }) ∧
      u.cfg = t.cfg ∧ u.created = t.created ∧ u.epoch = t.epoch ∧ u.live = t.live := by
    by_cases hnone : (t.books locate).book.isNone
    · refine ⟨t.setEntry locate { t.books locate with book := t.byName.lookup name }, fun storage => ?_, rfl, rfl, rfl, rfl⟩
      rw [if_pos hnone]
      rfl
    · refine ⟨t, fun storage => ?_, rfl, rfl, rfl, rfl⟩
      rw [if_neg hnone]
  have hplace : ∀ storage made, u.place storage made = t.place storage made := by
    intro storage made
    unfold place
    rw [hcfg, hcreated]
  have hunfold : ∀ storage, onDirectory { t with storage := storage } locate name = direct locate name { u with storage := storage } :=
    fun storage => congrArg (direct locate name) (hu storage)
  have hpart : ∀ {f : BookTable → BookTable}, Makes f u →
      (∀ storage, onDirectory { t with storage := storage } locate name = f { u with storage := storage }) →
      Makes (fun t => t.onDirectory locate name) t := by
    rintro f ⟨made, hc, he, hl, hs⟩ hf
    refine makes_of_eq (f u) made (hc.trans (by rw [hcreated])) (he.trans hepoch) (hl.trans hlive) fun storage => ?_
    rw [hf storage, hs storage, hplace]
  unfold direct at hunfold
  simp only at hunfold
  cases hhot : (u.books locate).hot with
  | some h =>
      simp only [hhot] at hunfold
      exact hpart (makes_directCold u locate) hunfold
  | none =>
      cases hfind : u.hots.findIdx? fun h => !h.resolved && h.name = name with
      | none =>
          simp only [hhot, hfind] at hunfold
          exact hpart (makes_directCold u locate) hunfold
      | some i =>
          simp only [hhot, hfind] at hunfold
          exact hpart (makes_directHot u locate i) hunfold

theorem makes_setTrading (t : BookTable) (locate : ℕ) (trading : Bool) : Makes (fun t => t.setTrading locate trading) t := by
  cases hhot : (t.books locate).hot with
  | none =>
      refine makes_of_eq t none rfl rfl rfl fun storage => ?_
      unfold setTrading
      simp only [hhot]
      rfl
  | some h =>
      refine makes_of_eq (t.setHot h fun s => { s with trading := trading }) none rfl rfl rfl fun storage => ?_
      unfold setTrading
      simp only [hhot]
      rfl

/-! ### Books that agree -/

/-- The book `b'` is the book `b`, or what a clear that `b` is owed makes of it. -/
def Settled (epoch : ℕ) (b b' : BookBuilder) : Prop :=
  b.epoch = epoch ∧ Same b b' ∨ b.epoch ≠ epoch ∧ Same b.clear b'

theorem Settled.clear {epoch : ℕ} {b b' : BookBuilder} (h : Settled epoch b b') : Same b.clear b'.clear := by
  obtain ⟨-, h⟩ | ⟨-, h⟩ := h
  · exact h.clear
  · exact (BookBuilder.clean_clear b).trans h.clear

/-- A book with nothing to clear. -/
theorem Settled.same {epoch : ℕ} {b b' : BookBuilder} (h : Settled epoch b b') (hclean : b.epoch = epoch ∨ Clean b) : Same b b' := by
  obtain ⟨-, h⟩ | ⟨hstale, h⟩ := h
  · exact h
  · exact (hclean.resolve_left hstale).trans h

theorem Settled.refl {epoch : ℕ} {b : BookBuilder} (hclean : Clean b) : Settled epoch b b := by
  by_cases hepoch : b.epoch = epoch
  · exact .inl ⟨hepoch, Same.refl b⟩
  · exact .inr ⟨hepoch, hclean.symm⟩

/-- The tables have the same books, locates and hot symbols, but for the clears that the first
one still owes its books. -/
structure Mirrors (t e : BookTable) : Prop where
  same : e = { t with storage := e.storage }
  books : ∀ i < t.created, Settled t.epoch (t.storage i) (e.storage i)

namespace Mirrors

theorem makes (h : Mirrors t e) {f : BookTable → BookTable} (hf : Makes f t) : Mirrors (f t) (f e) := by
  obtain ⟨made, hcreated, hepoch, -, hs⟩ := hf
  have hft : (f t).storage = t.place t.storage made := by rw [hs t.storage]
  have hfe : f e = { f t with storage := t.place e.storage made } := by
    have he := hs e.storage
    rw [← h.same] at he
    exact he
  refine ⟨by rw [hfe], fun i hi => ?_⟩
  rw [hft, hfe, hepoch]
  rw [hcreated] at hi
  cases made with
  | none => exact h.books i hi
  | some hot =>
      change Settled t.epoch (Function.update t.storage t.created _ i) (Function.update e.storage t.created _ i)
      by_cases he : i = t.created
      · rw [he, Function.update_self, Function.update_self]
        exact Settled.refl (BookBuilder.clean_ofConfig _)
      · rw [Function.update_of_ne he, Function.update_of_ne he]
        exact h.books i (by simp only [Option.toList, List.length_singleton] at hi; omega)

/-- A message for a book. -/
theorem applyToBook (h : Mirrors t e) {i : ℕ} (hi : i < t.created) (body : Itch.Body) :
    Mirrors (t.applyToBook i body) (e.applyAtOnceToBook i body) ∧
      Same ((t.applyToBook i body).storage i) ((e.applyAtOnceToBook i body).storage i) := by
  generalize hb : (if (t.storage i).epoch ≠ t.epoch then { (t.storage i).clear with epoch := t.epoch } else t.storage i) = b
  have hstorage : t.applyToBook i body = { t with
      storage := Function.update t.storage i (b.apply body)
      live := ((t.live + ((b.apply body).liveOrders - b.liveOrders)) % 2 ^ 64).toNat } := by rw [← hb]; rfl
  have hsame : Same b (e.storage i) := by
    rw [← hb]
    obtain ⟨hepoch, hs⟩ | ⟨hepoch, hs⟩ := h.books i hi
    · rw [if_neg (not_not.mpr hepoch)]
      exact hs
    · rw [if_pos hepoch]
      exact (Same.setEpoch _ _).symm.trans hs
  have hstamp : b.epoch = t.epoch := by
    rw [← hb]
    split_ifs with hne
    · rfl
    · exact not_not.mp hne
  have happly := hsame.apply body
  have hboth : Same ((t.applyToBook i body).storage i) ((e.applyAtOnceToBook i body).storage i) := by
    rw [hstorage]
    unfold applyAtOnceToBook
    simp only
    rw [Function.update_self, Function.update_self]
    exact happly
  refine ⟨⟨?_, fun j hj => ?_⟩, hboth⟩
  · rw [hstorage]
    unfold applyAtOnceToBook
    simp only
    rw [happly.liveOrders, hsame.liveOrders, h.same]
  · by_cases hji : j = i
    · subst hji
      refine .inl ⟨?_, hboth⟩
      rw [hstorage]
      simp only [Function.update_self]
      exact (BookBuilder.epoch_apply b body).trans hstamp
    · rw [hstorage]
      unfold applyAtOnceToBook
      simp only [Function.update_of_ne hji]
      exact h.books j hj

end Mirrors

end BookTable

end TickToTrade.Dut
