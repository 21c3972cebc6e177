import TickToTrade.Sim.ExchangeSession
import TickToTrade.Sim.VenueMoves

/-!
# The messages of the tape and the directory

A directory entry moves the venue of its symbol to a locate. Which venue a locate belongs to
is a matter of the entries alone (`Places`): the one that came last, if it is still there.
Before its first entry a venue is at a locate that nobody assigned, and the entry of a symbol
without a venue moves nothing, so this need not be the venue that the latest entry for the
locate names (`Settled`).

## What is proved

* `ExchangeSession.Routes.run` — any calls leave the venues and the table where the entries put them,
* `ExchangeSession.routed_iff_settled` — a message goes to the venue of the symbol that the latest
  entry for its locate names if and only if the entries have settled whose the locate is.
-/

namespace TickToTrade.Sim

/-! ### Directory entries -/

/-- Where the venues are, and which one came last to each locate. -/
structure Places where
  locate : ℕ → ℕ
  came : ℕ → Option ℕ

namespace Places

/-- Before the first entry: the venues are at the locates from one on. -/
def start (n : ℕ) : Places := ⟨fun i => i + 1, fun l => if 0 < l ∧ l ≤ n then some (l - 1) else none⟩

/-- A venue comes to a locate, unless it is there. -/
def move (p : Places) (i l : ℕ) : Places :=
  if p.locate i = l then p else ⟨Function.update p.locate i l, Function.update p.came l (some i)⟩

/-- A directory entry: its symbol comes to its locate. -/
def direct (symbols : List (List UInt8)) (p : Places) (entry : ℕ × List UInt8) : Places :=
  match symbols.findIdx? (· = entry.2) with
  | some i => p.move i entry.1
  | none => p

/-- After the entries. -/
def after (symbols : List (List UInt8)) (entries : List (ℕ × List UInt8)) : Places :=
  entries.foldl (direct symbols) (start symbols.length)

/-- The venue that came last to the locate is still there. -/
def Stays (p : Places) (l i : ℕ) : Prop := p.came l = some i ∧ p.locate i = l

instance (p : Places) (l i : ℕ) : Decidable (p.Stays l i) := inferInstanceAs (Decidable (_ ∧ _))

end Places

/-- The symbol that the latest entry for the locate names. -/
def latest (entries : List (ℕ × List UInt8)) (l : ℕ) : Option (List UInt8) :=
  (entries.reverse.find? fun entry => entry.1 = l).map Prod.snd

/-- The venue of the symbol that the latest entry for the locate names. -/
def named (symbols : List (List UInt8)) (entries : List (ℕ × List UInt8)) (l : ℕ) : Option ℕ :=
  (latest entries l).bind fun name => symbols.findIdx? (· = name)

/-- The entries have settled whose the locate is: the venue that the latest one names was
the last to come and is still there, and its number is not negative as a signed 16-bit word;
if it names none, no such venue came last and is still there. -/
def Settled (symbols : List (List UInt8)) (entries : List (ℕ × List UInt8)) (l : ℕ) : Prop :=
  match named symbols entries l with
  | some i => (Places.after symbols entries).Stays l i ∧ i < 2 ^ 15
  | none => ∀ i < 2 ^ 15, ¬ (Places.after symbols entries).Stays l i

namespace ExchangeSession

/-- The directory entry that a message is. -/
def entryOf (msg : List UInt8) : Option (ℕ × List UInt8) :=
  if msg.length < 11 then none
  else
    match (Itch.decode msg).body with
    | .stockDirectory name => some ((Itch.decode msg).locate, name)
    | _ => none

/-- What `replayMessage` does with every message: it goes out as it is. -/
def forward (s : ExchangeSession) (msg : List UInt8) : ExchangeSession :=
  { s.count fun x => { x with forwarded := inc64 x.forwarded } with out := s.out ++ [.tape msg] }

/-- The directory entries, of their length or short. -/
def IsDirectory : Itch.Body → Bool
  | .stockDirectory _ | .stockDirectoryShort => true
  | _ => false

theorem isDirectory_bodyOf {msg : List UInt8} (h : Itch.byteAt msg 0 ≠ 82) : IsDirectory (Itch.bodyOf msg) = false := by
  unfold Itch.bodyOf
  simp only
  rw [if_neg h]
  split_ifs <;> rfl

theorem replayMessage_eq (s : ExchangeSession) {msg : List UInt8} (h : 11 ≤ msg.length) :
    s.replayMessage msg = match (Itch.decode msg).body with
      | .stockDirectory name => (s.forward msg).bindDirectory name (Itch.decode msg).locate
      | .stockDirectoryShort => s.forward msg
      | body =>
          match s.venueAt (Itch.decode msg).locate with
          | some vi => (s.forward msg).mirror vi body
          | none => s.forward msg := by
  unfold replayMessage
  rw [if_neg (Nat.not_lt_of_le h)]
  rfl

/-- The directory entry of a call. -/
def Op.entry : Op → Option (ℕ × List UInt8)
  | .replayMessage msg => entryOf msg
  | _ => none

/-- The directory entries of a run. -/
def entries (ops : List Op) : List (ℕ × List UInt8) := ops.filterMap Op.entry

/-- The locates are the default ones: each venue starts at the one after its number, a 16-bit word. -/
def DefaultLocates (cfg : ExchangeConfig) : Prop := ∀ i < cfg.venueSymbols.length, i + 1 < 2 ^ 16 ∧ cfg.locateAt i = i + 1

/-! ### Numbers of venues -/

theorem int16_def (i : ℕ) : int16 i = if (i : ℤ) % 65536 < 32768 then (i : ℤ) % 65536 else (i : ℤ) % 65536 - 65536 := rfl

theorem int16_inj {i j : ℕ} (hi : i < 2 ^ 16) (hj : j < 2 ^ 16) (h : int16 i = int16 j) : i = j := by
  rw [int16_def, int16_def] at h
  split_ifs at h <;> omega

theorem int16_ne {i : ℕ} (hi : i + 1 < 2 ^ 16) : int16 i ≠ -1 := by
  rw [int16_def]
  split_ifs <;> omega

/-- A number that is not negative as a signed 16-bit word. -/
theorem int16_nonneg {i : ℕ} (hi : i < 2 ^ 16) : 0 ≤ int16 i ↔ i < 2 ^ 15 := by
  rw [int16_def]
  split_ifs <;> omega

theorem int16_eq {i : ℕ} (hi : i < 2 ^ 15) : (int16 i).toNat = i := by
  rw [int16_def]
  split_ifs <;> omega

/-! ### The session is where the entries have put it -/

/-- The venues are where they have been put, and the table names those that came last and
are still there. -/
structure Routes (symbols : List (List UInt8)) (p : Places) (s : ExchangeSession) : Prop where
  length : s.venues.length = symbols.length
  label : ∀ i v, s.venues[i]? = some v → symbols[i]? = some v.symbol ∧ v.stockLocate = p.locate i
  table : ∀ l, s.venueOfLocate l = match p.came l with
    | some i => if p.locate i = l then int16 i else -1
    | none => -1
  came_lt : ∀ l i, p.came l = some i → i < symbols.length

section

variable {symbols : List (List UInt8)} {p : Places} {s t : ExchangeSession}

/-- A venue keeps its symbol and its locate. -/
def SameLabel (v w : Venue) : Prop := w.symbol = v.symbol ∧ w.stockLocate = v.stockLocate

theorem sameLabel_everywhere : Venue.Everywhere Set.univ SameLabel where
  refl _ := ⟨rfl, rfl⟩
  trans h h' := ⟨h'.1.trans h.1, h'.2.trans h.2⟩
  sends _ _ := ⟨rfl, rfl⟩
  counts _ _ := ⟨rfl, rfl⟩
  takeMatch _ := ⟨rfl, rfl⟩
  engine _ _ := ⟨rfl, rfl⟩
  eraseLive v ref := by
    unfold Venue.eraseLive
    cases v.live.erase ref <;> exact ⟨rfl, rfl⟩
  eraseUserRef v user := by
    unfold Venue.eraseUserRef
    cases v.byUserRef.erase user <;> exact ⟨rfl, rfl⟩
  clientRefs _ _ := ⟨rfl, rfl⟩
  setLive _ _ _ := ⟨rfl, rfl⟩
  setUserRef _ _ _ _ := ⟨rfl, rfl⟩
  takeRef _ := ⟨rfl, rfl⟩
  clear _ := ⟨rfl, rfl⟩

theorem venueForUserRef_same (s : ExchangeSession) (user : ℕ) :
    (s.venueForUserRef user).2.venues = s.venues ∧ (s.venueForUserRef user).2.venueOfLocate = s.venueOfLocate := by
  unfold venueForUserRef
  simp only
  split_ifs
  · exact ⟨rfl, rfl⟩
  · cases (s.count _).venues.findIdx? fun v => v.hasUserRef user <;> exact ⟨rfl, rfl⟩

namespace Routes

theorem congr (h : Routes symbols p s) (hvenues : t.venues = s.venues) (htable : t.venueOfLocate = s.venueOfLocate) :
    Routes symbols p t :=
  ⟨by rw [hvenues]; exact h.length, fun i v => by rw [hvenues]; exact h.label i v, fun l => by rw [htable]; exact h.table l,
    h.came_lt⟩

theorem atVenue (h : Routes symbols p s) (i : ℕ) {f : Venue → Venue} (hf : ∀ v, SameLabel v (f v)) :
    Routes symbols p (s.atVenue i f) := by
  unfold ExchangeSession.atVenue
  cases hv : s.venues[i]? with
  | none => exact h
  | some v =>
      refine ⟨by simpa using h.length, fun j w hw => ?_, h.table, h.came_lt⟩
      rw [List.getElem?_set] at hw
      by_cases hj : i = j
      · rw [if_pos hj] at hw
        obtain rfl : f v = w := by
          split_ifs at hw
          exact Option.some.inj hw
        rw [(hf v).1, (hf v).2, ← hj]
        exact h.label i v hv
      · rw [if_neg hj] at hw
        exact h.label j w hw

theorem atVenues (h : Routes symbols p s) {f : Venue → Venue} (hf : ∀ v, SameLabel v (f v)) :
    Routes symbols p (s.atVenues f) := by
  unfold ExchangeSession.atVenues
  generalize List.range s.venues.length = is
  induction is generalizing s with
  | nil => exact h
  | cons i is ih => exact ih (h.atVenue i hf)

theorem dispatchOuch (h : Routes symbols p s) (m : Ouch.In) : Routes symbols p (s.dispatchOuch m) := by
  cases m with
  | enterOrder o =>
      refine atVenue ?_ _ fun v => sameLabel_everywhere.onEnterOrder v o (Set.mem_univ _)
      exact h.congr rfl rfl
  | cancelOrder x =>
      refine atVenue ?_ _ fun v => sameLabel_everywhere.onCancelOrder v x
      obtain ⟨hvenues, htable⟩ := venueForUserRef_same (s.count fun x => { x with cancels := inc64 x.cancels }) x.userRefNum
      exact h.congr hvenues htable
  | replaceOrder u =>
      refine atVenue ?_ _ fun v => sameLabel_everywhere.onReplaceOrder v u (Set.mem_univ _)
      obtain ⟨hvenues, htable⟩ := venueForUserRef_same (s.count fun x => { x with replaces := inc64 x.replaces })
        u.origUserRefNum
      exact h.congr hvenues htable

/-- The first venue with a symbol. -/
theorem findIdx?_eq (h : Routes symbols p s) (name : List UInt8) :
    (s.venues.findIdx? fun v => v.symbol = name) = symbols.findIdx? (· = name) := by
  have hsymbols : symbols = s.venues.map Venue.symbol := by
    refine List.ext_getElem? fun i => ?_
    rw [List.getElem?_map]
    cases hv : s.venues[i]? with
    | none =>
        rw [List.getElem?_eq_none_iff] at hv
        exact List.getElem?_eq_none (h.length ▸ hv)
    | some v => exact (h.label i v hv).1
  rw [hsymbols, List.findIdx?_map]
  rfl

/-- **A directory entry** moves the venue of its symbol. -/
theorem bindDirectory (h : Routes symbols p s) (hsize : symbols.length < 2 ^ 16) (name : List UInt8) (locate : ℕ) :
    Routes symbols (p.direct symbols (locate, name)) (s.bindDirectory name locate) := by
  unfold ExchangeSession.bindDirectory Places.direct
  rw [h.findIdx?_eq]
  cases hi : symbols.findIdx? (· = name) with
  | none => exact h
  | some i =>
      have hlt : i < symbols.length := (List.findIdx?_eq_some_iff_getElem.mp hi).1
      obtain ⟨v, hv⟩ : ∃ v, s.venues[i]? = some v := ⟨_, List.getElem?_eq_getElem (h.length ▸ hlt)⟩
      obtain ⟨hsymbol, hlocate⟩ := h.label i v hv
      simp only
      rw [hv]
      simp only
      rw [hlocate]
      unfold Places.move
      by_cases hthere : p.locate i = locate
      · rw [if_pos hthere, if_pos hthere]
        exact h
      rw [if_neg hthere, if_neg hthere]
      have hown : s.venueOfLocate (p.locate i) = int16 i ↔ p.came (p.locate i) = some i := by
        rw [h.table]
        have hne := int16_ne (show i + 1 < 2 ^ 16 by omega)
        cases hcame : p.came (p.locate i) with
        | none => simpa using hne.symm
        | some j =>
            have hj := h.came_lt _ _ hcame
            simp only [Option.some.injEq]
            by_cases hji : p.locate j = p.locate i
            · rw [if_pos hji]
              exact ⟨fun he => int16_inj (by omega) (by omega) he, fun he => by rw [he]⟩
            · rw [if_neg hji]
              exact iff_of_false hne.symm (by rintro rfl; exact hji rfl)
      refine ⟨by simpa using h.length, fun j w hw => ?_, fun l => ?_, fun l j hj => ?_⟩
      · rw [List.getElem?_set] at hw
        by_cases hj : i = j
        · rw [if_pos hj] at hw
          obtain rfl : v.bindLocate locate = w := by
            split_ifs at hw
            exact Option.some.inj hw
          rw [← hj]
          exact ⟨hsymbol, (Function.update_self i locate p.locate).symm⟩
        · rw [if_neg hj] at hw
          obtain ⟨hsymbol', hlocate'⟩ := h.label j w hw
          exact ⟨hsymbol', by rw [hlocate']; exact (Function.update_of_ne (Ne.symm hj) locate p.locate).symm⟩
      · -- the locate that the venue comes to, the one that it leaves, and the others
        by_cases hl : l = locate
        · subst hl
          simp only [Function.update_self, if_true]
        simp only [Function.update_of_ne hl]
        have hothers : ∀ j, j ≠ i → (if Function.update p.locate i locate j = l then int16 j else -1) =
            if p.locate j = l then int16 j else -1 := fun j hj => by rw [Function.update_of_ne hj]
        by_cases hleft : l = p.locate i
        · subst hleft
          by_cases hcame : p.came (p.locate i) = some i
          · rw [if_pos (hown.mpr hcame), Function.update_self, hcame]
            simp only [Function.update_self, if_neg (Ne.symm hl)]
          · rw [if_neg fun he => hcame (hown.mp he), h.table]
            cases hj : p.came (p.locate i) with
            | none => rfl
            | some j => exact (hothers j (by rintro rfl; exact hcame hj)).symm
        · have htable : (if s.venueOfLocate (p.locate i) = int16 i then
              Function.update s.venueOfLocate (p.locate i) (-1) else s.venueOfLocate) l = s.venueOfLocate l := by
            split_ifs
            · exact Function.update_of_ne hleft ..
            · rfl
          rw [htable, h.table]
          cases hj : p.came l with
          | none => rfl
          | some j =>
              simp only
              by_cases hji : j = i
              · subst hji
                have hhere : Function.update p.locate j locate j = locate := Function.update_self ..
                simp only [hhere, if_neg (Ne.symm hleft), if_neg (Ne.symm hl)]
              · exact (hothers j hji).symm
      · have hj : Function.update p.came locate (some i) l = some j := hj
        by_cases hl : l = locate
        · rw [hl, Function.update_self] at hj
          exact Option.some.inj hj ▸ hlt
        · rw [Function.update_of_ne hl] at hj
          exact h.came_lt l j hj

theorem mirror (h : Routes symbols p s) (i : ℕ) (body : Itch.Body) : Routes symbols p (s.mirror i body) := by
  have hof : ∀ f, mirrorOf body = some f → ∀ v, SameLabel v (f v) := by
    intro f hf v
    cases body with
    | addOrder ref side shares price =>
        cases hf
        exact sameLabel_everywhere.of_setLive (sameLabel_everywhere.mirrorAdd v ref side price shares)
    | orderExecuted ref shares n =>
        cases hf
        exact sameLabel_everywhere.mirrorExecute v ref shares
    | orderExecutedWithPrice ref shares n price =>
        cases hf
        exact sameLabel_everywhere.mirrorExecute v ref shares
    | orderCancel ref shares =>
        cases hf
        exact sameLabel_everywhere.mirrorCancel v ref shares
    | orderDelete ref =>
        cases hf
        exact sameLabel_everywhere.mirrorDelete v ref
    | orderReplace orig ref shares price =>
        cases hf
        exact sameLabel_everywhere.of_setLive (sameLabel_everywhere.mirrorReplace v orig ref shares price)
    | _ => cases hf
  unfold ExchangeSession.mirror
  cases hf : mirrorOf body with
  | none => exact h
  | some f => exact (h.atVenue i (hof f hf)).congr rfl rfl

/-- **A message of the tape**: a directory entry moves the venue of its symbol, and no other message moves one. -/
theorem replayMessage (h : Routes symbols p s) (hsize : symbols.length < 2 ^ 16) (msg : List UInt8) :
    Routes symbols ((entryOf msg).elim p (p.direct symbols)) (s.replayMessage msg) := by
  unfold entryOf
  by_cases hshort : msg.length < 11
  · rw [if_pos hshort, ExchangeSession.replayMessage, if_pos hshort]
    exact h
  · have hforward : Routes symbols p (s.forward msg) := h.congr rfl rfl
    rw [if_neg hshort, replayMessage_eq s (Nat.le_of_not_lt hshort)]
    cases (Itch.decode msg).body
    case stockDirectory name => exact hforward.bindDirectory hsize name _
    case stockDirectoryShort => exact hforward
    all_goals
      simp only
      cases s.venueAt (Itch.decode msg).locate with
      | none => exact hforward
      | some i => exact hforward.mirror i _

theorem step (h : Routes symbols p s) (hsize : symbols.length < 2 ^ 16) (op : Op) :
    Routes symbols (op.entry.elim p (p.direct symbols)) (s.step op) := by
  cases op with
  | request m => exact h.dispatchOuch m
  | injectSynthetic side tick qty => exact h.atVenue 0 fun v => sameLabel_everywhere.injectSynthetic v side tick qty
  | cancelSynthetic ref => exact h.atVenue 0 fun v => sameLabel_everywhere.cancelSynthetic v ref
  | sessionEvent code => exact h.atVenue 0 fun v => ⟨rfl, rfl⟩
  | replayMessage msg => exact h.replayMessage hsize msg
  | resetDay => exact h.atVenues sameLabel_everywhere.resetDay
  | publishDirectory => exact h.atVenues fun v => ⟨rfl, rfl⟩

theorem run (h : Routes symbols p s) (hsize : symbols.length < 2 ^ 16) (ops : List Op) :
    Routes symbols ((entries ops).foldl (Places.direct symbols) p) (s.run ops) := by
  induction ops generalizing p s with
  | nil => exact h
  | cons op ops ih =>
      have hrun := ih (h.step hsize op)
      have hentries : (entries (op :: ops)).foldl (Places.direct symbols) p =
          (entries ops).foldl (Places.direct symbols) (op.entry.elim p (p.direct symbols)) := by
        unfold entries
        cases hop : op.entry with
        | none => rw [List.filterMap_cons_none hop]; rfl
        | some e => rw [List.filterMap_cons_some hop]; rfl
      rw [hentries]
      exact hrun

end Routes

/-- The locate of every venue is the one after its number. -/
theorem table_of_default {locate : ℕ → ℕ} (n : ℕ) (h : ∀ i < n, locate i = i + 1) (l : ℕ) :
    (List.range n).foldl (fun table i => Function.update table (locate i) (int16 i)) (fun _ => -1) l =
      if 0 < l ∧ l ≤ n then int16 (l - 1) else -1 := by
  induction n with
  | zero => rw [if_neg (by omega)]; rfl
  | succ n ih =>
      rw [List.range_succ, List.foldl_append, List.foldl_cons, List.foldl_nil, h n (Nat.lt_succ_self n)]
      by_cases hl : l = n + 1
      · rw [hl, Function.update_self, if_pos (by omega), Nat.add_sub_cancel]
      · rw [Function.update_of_ne hl, ih fun i hi => h i (Nat.lt_succ_of_lt hi)]
        by_cases hin : 0 < l ∧ l ≤ n
        · rw [if_pos hin, if_pos (by omega)]
        · rw [if_neg hin, if_neg (by omega)]

/-- A new session is where nothing has been directed. -/
theorem routes_new (cfg : ExchangeConfig) (stray : ℕ) (h : DefaultLocates cfg) :
    Routes cfg.venueSymbols (Places.start cfg.venueSymbols.length) (new cfg stray) where
  length := List.length_mapIdx
  label i v hv := by
    unfold new at hv
    rw [List.getElem?_mapIdx] at hv
    cases hsymbol : cfg.venueSymbols[i]? with
    | none =>
        rw [hsymbol] at hv
        cases hv
    | some symbol =>
        rw [hsymbol] at hv
        obtain rfl := Option.some.inj hv
        exact ⟨rfl, (h i (List.getElem?_eq_some_iff.mp hsymbol).1).2⟩
  table l := by
    have htable := table_of_default cfg.venueSymbols.length (fun i hi => (h i hi).2) l
    refine Eq.trans htable ?_
    unfold Places.start
    simp only
    split_ifs with hl
    · exact (if_pos (by omega)).symm
    · rfl
  came_lt l i hi := by
    unfold Places.start at hi
    simp only at hi
    split_ifs at hi with hl
    cases hi
    omega

/-- The venue of a locate is the last to have come there, if it is still there and its number is not negative. -/
theorem Routes.venueAt_eq_some (h : Routes symbols p s) (hsize : symbols.length < 2 ^ 16) {l i : ℕ} :
    s.venueAt l = some i ↔ p.Stays l i ∧ i < 2 ^ 15 := by
  unfold ExchangeSession.venueAt Places.Stays
  rw [h.table]
  cases hcame : p.came l with
  | none =>
      constructor
      · intro hi
        cases hi
      · intro hi
        cases hi.1.1
  | some j =>
      have hj : j < 2 ^ 16 := Nat.lt_trans (h.came_lt l j hcame) hsize
      simp only [Option.some.injEq]
      by_cases hstays : p.locate j = l
      · rw [if_pos hstays]
        by_cases hnonneg : j < 2 ^ 15
        · rw [if_pos ((int16_nonneg hj).mpr hnonneg), int16_eq hnonneg, Option.some.injEq]
          constructor
          · rintro rfl
            exact ⟨⟨rfl, hstays⟩, hnonneg⟩
          · exact fun hi => hi.1.1
        · rw [if_neg fun hi => hnonneg ((int16_nonneg hj).mp hi)]
          constructor
          · intro hi
            cases hi
          · rintro ⟨⟨rfl, -⟩, hi⟩
            exact absurd hi hnonneg
      · rw [if_neg hstays, if_neg (by omega)]
        constructor
        · intro hi
          cases hi
        · rintro ⟨⟨rfl, hi⟩, -⟩
          exact absurd hi hstays

end

/-- **The tape is routed by the directory**, after any calls, if and only if the directory has settled whose the locate of the message
is: a message is mirrored into the venue of its locate, and that is the venue of the symbol that the latest entry for the locate
names. -/
theorem routed_iff_settled (cfg : ExchangeConfig) (stray : ℕ) (hdefault : DefaultLocates cfg) (ops : List Op) (msg : List UInt8)
    (hlen : 11 ≤ msg.length) (htype : Itch.byteAt msg 0 ≠ 82) :
    let s := (new cfg stray).run ops
    let l := (Itch.decode msg).locate
    (s.replayMessage msg = match s.venueAt l with
      | some i => (s.forward msg).mirror i (Itch.decode msg).body
      | none => s.forward msg) ∧
    (s.venueAt l = named cfg.venueSymbols (entries ops) l ↔ Settled cfg.venueSymbols (entries ops) l) := by
  intro s l
  have hsize : cfg.venueSymbols.length < 2 ^ 16 := by
    by_contra hmany
    exact absurd (hdefault (2 ^ 16 - 1) (by omega)).1 (by decide)
  have hroutes := (routes_new cfg stray hdefault).run hsize ops
  have hat : ∀ i, s.venueAt l = some i ↔ (Places.after cfg.venueSymbols (entries ops)).Stays l i ∧ i < 2 ^ 15 := fun i =>
    hroutes.venueAt_eq_some hsize
  constructor
  · have hbody : IsDirectory (Itch.decode msg).body = false := isDirectory_bodyOf htype
    rw [replayMessage_eq s hlen]
    cases hb : (Itch.decode msg).body
    case stockDirectory | stockDirectoryShort =>
      rw [hb] at hbody
      cases hbody
    all_goals rfl
  · unfold Settled
    cases named cfg.venueSymbols (entries ops) l with
    | some i => exact hat i
    | none =>
        simp only [Option.eq_none_iff_forall_ne_some, ne_eq, hat]
        exact ⟨fun h i hi hstays => h i ⟨hstays, hi⟩, fun h i hi => h i hi.2 hi.1⟩

/-- A directory entry of the tape for a locate below `256`. -/
def directoryMsg (locate : UInt8) (name : List UInt8) : List UInt8 :=
  [82, 0, locate] ++ List.replicate 8 0 ++ (name ++ List.replicate 8 32).take 8 ++ List.replicate 20 0

/-- A new order of the tape for a locate below `256`. -/
def addMsg (locate : UInt8) : List UInt8 :=
  [65, 0, locate] ++ List.replicate 8 0 ++ List.replicate 7 0 ++ [7, 66, 0, 0, 0, 10] ++ List.replicate 8 0 ++ [0, 0, 0, 100]

theorem routed_settled_sample :
    let s := (new {} 0).run [.replayMessage (directoryMsg 13 [65, 65, 80, 76])]
    s.venueAt 13 = some 0 ∧ s.replayMessage (addMsg 13) = (s.forward (addMsg 13)).mirror 0 (Itch.decode (addMsg 13)).body := by
  intro s
  have hdefault : DefaultLocates {} := by
    intro i hi
    obtain rfl : i = 0 := Nat.lt_one_iff.mp hi
    decide
  obtain ⟨hmirror, hsettled⟩ := routed_iff_settled {} 0 hdefault [.replayMessage (directoryMsg 13 [65, 65, 80, 76])] (addMsg 13)
    (by decide) (by decide)
  have hplaces : (Places.after [[65, 65, 80, 76]] [(13, [65, 65, 80, 76])]).Stays 13 0 := by decide
  have hvenue : s.venueAt 13 = some 0 := hsettled.mpr ⟨hplaces, by decide⟩
  refine ⟨hvenue, hmirror.trans ?_⟩
  rw [show s.venueAt (Itch.decode (addMsg 13)).locate = some 0 from hvenue]

/-- A venue starts at a locate that may be another symbol's: the only venue is that of `AAPL`, and the directory says that its first
locate is that of `ZZZ`, whose orders are mirrored into the venue. -/
theorem unlisted_mirrored :
    let s := (new {} 0).run [.replayMessage (directoryMsg 1 [90, 90, 90])]
    named [[65, 65, 80, 76]] (entries [.replayMessage (directoryMsg 1 [90, 90, 90])]) 1 = none ∧
      s.replayMessage (addMsg 1) = (s.forward (addMsg 1)).mirror 0 (Itch.decode (addMsg 1)).body := by
  intro s
  have hvenue : s.venueAt 1 = some 0 := by rfl
  refine ⟨by decide, ?_⟩
  rw [replayMessage_eq s (by decide)]
  rw [show s.venueAt (Itch.decode (addMsg 1)).locate = some 0 from hvenue]
  rfl

end ExchangeSession

end TickToTrade.Sim
