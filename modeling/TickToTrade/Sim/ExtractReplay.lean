import TickToTrade.Replay.SymbolFilter
import TickToTrade.Sim.DirectoryRouting

/-!
# Replaying the extract of a tape

The session is driven by the extract of a tape instead of the whole of it. A message that the
filter leaves out is for a locate that no entry of the symbols has named, so that the session has
no venue there, unless it is one where a venue starts before its own first entry
(`DirectedFirst`).

## What is proved

* `routes_start` — whatever the configured locates are, a new session has its venues there,
* `Places.stays_foldl` — a venue that came last to a locate and is there was directed there, or has
  not been directed at all,
* `extract_replays` — the calls with the extract in the place of the tape leave the same venues, the
  same tables and the same messages of the venues.
-/

namespace TickToTrade.Sim

open Util Replay

namespace Places

/-- Before the first entry: the venues are at the configured locates. -/
def startAt (locateAt : ℕ → ℕ) (n : ℕ) : Places :=
  ⟨locateAt, fun l => (List.range n).reverse.find? fun i => locateAt i = l⟩

variable {symbols : List (List UInt8)} {p : Places} {locateAt : ℕ → ℕ} {l i : ℕ}

/-- **Where a venue stays**: at a locate that an entry gave it, or where it started. -/
theorem stays_foldl (hnodup : symbols.Nodup) (es : List (ℕ × List UInt8))
    (h : (es.foldl (direct symbols) (startAt locateAt symbols.length)).Stays l i) :
    (∃ e ∈ es, e.1 = l ∧ symbols[i]? = some e.2) ∨ (∀ e ∈ es, symbols[i]? ≠ some e.2) ∧ locateAt i = l := by
  induction es using List.reverseRecOn generalizing l i with
  | nil => exact .inr ⟨fun e he => absurd he List.not_mem_nil, h.2⟩
  | append_singleton es e ih =>
      rw [List.foldl_append, List.foldl_cons, List.foldl_nil] at h
      generalize es.foldl (direct symbols) (startAt locateAt symbols.length) = p at h ih
      -- a venue that the entry does not name is where it was
      have hold : p.Stays l i → symbols[i]? ≠ some e.2 →
          (∃ e' ∈ es ++ [e], e'.1 = l ∧ symbols[i]? = some e'.2) ∨
            (∀ e' ∈ es ++ [e], symbols[i]? ≠ some e'.2) ∧ locateAt i = l := by
        intro hs hne
        obtain ⟨e', he', hl, hname⟩ | ⟨hnone, hl⟩ := ih hs
        · exact .inl ⟨e', List.mem_append_left _ he', hl, hname⟩
        · refine .inr ⟨fun e' he' => ?_, hl⟩
          obtain he' | he' := List.mem_append.mp he'
          · exact hnone e' he'
          · rw [List.mem_singleton.mp he']
            exact hne
      unfold direct at h
      cases hj : symbols.findIdx? (· = e.2) with
      | none =>
          rw [hj] at h
          refine hold h fun hname => ?_
          have := List.findIdx?_eq_none_iff.mp hj e.2 (List.mem_of_getElem? hname)
          simp at this
      | some j =>
          rw [hj] at h
          obtain ⟨hlt, hname, -⟩ := List.findIdx?_eq_some_iff_getElem.mp hj
          have hname : symbols[j]? = some e.2 := by rw [List.getElem?_eq_getElem hlt, of_decide_eq_true hname]
          have hother : i ≠ j → symbols[i]? ≠ some e.2 := fun hne he => by
            obtain ⟨hi, he⟩ := List.getElem?_eq_some_iff.mp he
            obtain ⟨hj, hname⟩ := List.getElem?_eq_some_iff.mp hname
            exact hne ((List.Nodup.getElem_inj_iff hnodup).mp (he.trans hname.symm))
          have hhere : i = j → l = e.1 → (∃ e' ∈ es ++ [e], e'.1 = l ∧ symbols[i]? = some e'.2) ∨
              (∀ e' ∈ es ++ [e], symbols[i]? ≠ some e'.2) ∧ locateAt i = l := fun hij hl =>
            .inl ⟨e, List.mem_append_right _ List.mem_cons_self, hl.symm, hij ▸ hname⟩
          unfold move at h
          simp only at h
          by_cases hthere : p.locate j = e.1
          · rw [if_pos hthere] at h
            by_cases hij : i = j
            · exact hhere hij (by rw [← h.2, hij, hthere])
            · exact hold h (hother hij)
          · rw [if_neg hthere] at h
            obtain ⟨hcame, hloc⟩ := h
            simp only at hcame hloc
            by_cases hij : i = j
            · refine hhere hij ?_
              rw [← hloc, hij, Function.update_self]
            · rw [Function.update_of_ne hij] at hloc
              by_cases hl : l = e.1
              · rw [hl, Function.update_self] at hcame
                exact absurd (Option.some.inj hcame).symm hij
              · rw [Function.update_of_ne hl] at hcame
                exact hold ⟨hcame, hloc⟩ (hother hij)

end Places

/-- What a venue says, of what goes out. -/
def Output.said? : Output → Option Sent
  | .tape _ => none
  | .venue m => some m

namespace ExchangeSession

/-- The table of a new session names the last of the venues that start at a locate. -/
theorem table_start {locateAt : ℕ → ℕ} (n : ℕ) (l : ℕ) :
    (List.range n).foldl (fun table i => Function.update table (locateAt i) (int16 i)) (fun _ => -1) l =
      match (Places.startAt locateAt n).came l with
      | some i => int16 i
      | none => -1 := by
  unfold Places.startAt
  induction n with
  | zero => rfl
  | succ n ih =>
      rw [List.range_succ, List.foldl_append, List.foldl_cons, List.foldl_nil, List.reverse_append]
      simp only [List.reverse_cons, List.reverse_nil, List.nil_append, List.cons_append, List.find?_cons]
      by_cases hl : l = locateAt n
      · rw [hl, Function.update_self]
        simp
      · rw [Function.update_of_ne hl, ih]
        simp [Ne.symm hl]

/-- A new session has its venues at the configured locates. -/
theorem routes_start (cfg : ExchangeConfig) (stray : ℕ) :
    Routes cfg.venueSymbols (Places.startAt cfg.locateAt cfg.venueSymbols.length) (new cfg stray) where
  length := List.length_mapIdx
  label i v hv := by
    unfold new at hv
    rw [List.getElem?_mapIdx] at hv
    cases hsymbol : cfg.venueSymbols[i]? with
    | none =>
        rw [hsymbol] at hv
        cases hv
    | some symbol =>
        rw [hsymbol] at hv
        obtain rfl := Option.some.inj hv
        exact ⟨rfl, rfl⟩
  table l := by
    refine (table_start cfg.venueSymbols.length l).trans ?_
    cases hcame : (Places.startAt cfg.locateAt cfg.venueSymbols.length).came l with
    | none => rfl
    | some i =>
        have hat := List.find?_some hcame
        exact (if_pos (of_decide_eq_true hat)).symm
  came_lt l i hi := List.mem_range.mp (List.mem_reverse.mp (List.mem_of_find?_eq_some hi))

/-! ### Two sessions that show the same market -/

/-- The venues are in the same state and have said the same, and the requests and the tape find the
same ones. -/
structure SameMarket (s t : ExchangeSession) : Prop where
  venues : t.venues = s.venues
  table : t.venueOfLocate = s.venueOfLocate
  refs : t.refVenue = s.refVenue
  said : t.out.filterMap Output.said? = s.out.filterMap Output.said?

namespace SameMarket

variable {s t : ExchangeSession}

theorem refl (s : ExchangeSession) : SameMarket s s := ⟨rfl, rfl, rfl, rfl⟩

theorem symm (h : SameMarket s t) : SameMarket t s := ⟨h.venues.symm, h.table.symm, h.refs.symm, h.said.symm⟩

theorem trans {u : ExchangeSession} (h : SameMarket s t) (h' : SameMarket t u) : SameMarket s u :=
  ⟨h'.venues.trans h.venues, h'.table.trans h.table, h'.refs.trans h.refs, h'.said.trans h.said⟩

theorem count (h : SameMarket s t) (f g : SessionStats → SessionStats) : SameMarket (s.count f) (t.count g) :=
  ⟨h.venues, h.table, h.refs, h.said⟩

theorem atVenue (h : SameMarket s t) (i : ℕ) (f : Venue → Venue) : SameMarket (s.atVenue i f) (t.atVenue i f) := by
  unfold ExchangeSession.atVenue
  rw [h.venues]
  cases s.venues[i]? with
  | none => exact h
  | some v => exact ⟨by simp only [h.venues], h.table, h.refs, by simp only [List.filterMap_append, h.said]⟩

theorem atVenues (h : SameMarket s t) (f : Venue → Venue) : SameMarket (s.atVenues f) (t.atVenues f) := by
  unfold ExchangeSession.atVenues
  rw [h.venues]
  generalize List.range s.venues.length = is
  induction is generalizing s t with
  | nil => exact h
  | cons i is ih => exact ih (h.atVenue i f)

theorem rememberUserRef (h : SameMarket s t) (user venue : ℕ) :
    SameMarket (s.rememberUserRef user venue) (t.rememberUserRef user venue) :=
  ⟨h.venues, h.table, by simp only [ExchangeSession.rememberUserRef, h.refs], h.said⟩

theorem venueForUserRef (h : SameMarket s t) (user : ℕ) :
    (t.venueForUserRef user).1 = (s.venueForUserRef user).1 ∧ SameMarket (s.venueForUserRef user).2 (t.venueForUserRef user).2 := by
  have hcount := h.count (fun x => { x with refScans := inc64 x.refScans }) fun x => { x with refScans := inc64 x.refScans }
  unfold ExchangeSession.venueForUserRef
  simp only [h.refs]
  split_ifs
  · exact ⟨rfl, h⟩
  · rw [hcount.venues]
    cases (s.count _).venues.findIdx? fun v => v.hasUserRef user with
    | none =>
        simp only
        exact ⟨trivial, hcount.count _ _⟩
    | some i =>
        simp only
        exact ⟨trivial, hcount⟩

theorem dispatchOuch (h : SameMarket s t) (m : Ouch.In) : SameMarket (s.dispatchOuch m) (t.dispatchOuch m) := by
  cases m with
  | enterOrder o =>
      have hfound : (t.count fun x => { x with enters := inc64 x.enters }).venueForSymbol o.symbol =
          (s.count fun x => { x with enters := inc64 x.enters }).venueForSymbol o.symbol := by
        unfold ExchangeSession.venueForSymbol ExchangeSession.count
        rw [h.venues]
      unfold ExchangeSession.dispatchOuch
      simp only [hfound]
      exact ((h.count _ _).rememberUserRef _ _).atVenue _ _
  | cancelOrder x =>
      obtain ⟨hfound, hsame⟩ := (h.count (fun x => { x with cancels := inc64 x.cancels })
        fun x => { x with cancels := inc64 x.cancels }).venueForUserRef x.userRefNum
      unfold ExchangeSession.dispatchOuch
      simp only [hfound]
      exact hsame.atVenue _ _
  | replaceOrder u =>
      obtain ⟨hfound, hsame⟩ := (h.count (fun x => { x with replaces := inc64 x.replaces })
        fun x => { x with replaces := inc64 x.replaces }).venueForUserRef u.origUserRefNum
      unfold ExchangeSession.dispatchOuch
      simp only [hfound]
      exact (hsame.rememberUserRef _ _).atVenue _ _

theorem forward (s : ExchangeSession) (msg : List UInt8) : SameMarket s (s.forward msg) :=
  ⟨rfl, rfl, rfl, by simp [ExchangeSession.forward, ExchangeSession.count, Output.said?]⟩

theorem forward_both (h : SameMarket s t) (msg : List UInt8) : SameMarket (s.forward msg) (t.forward msg) :=
  ⟨h.venues, h.table, h.refs, by
    simp only [ExchangeSession.forward, ExchangeSession.count, List.filterMap_append, h.said]⟩

theorem mirror (h : SameMarket s t) (i : ℕ) (body : Itch.Body) : SameMarket (s.mirror i body) (t.mirror i body) := by
  unfold ExchangeSession.mirror
  cases mirrorOf body with
  | none => exact h
  | some f => exact (h.atVenue i f).count _ _

theorem bindDirectory (h : SameMarket s t) (name : List UInt8) (locate : ℕ) :
    SameMarket (s.bindDirectory name locate) (t.bindDirectory name locate) := by
  unfold ExchangeSession.bindDirectory
  rw [h.venues]
  cases s.venues.findIdx? fun v => v.symbol = name with
  | none => exact h
  | some i =>
      simp only
      cases s.venues[i]? with
      | none => exact h
      | some v =>
          simp only [h.table]
          by_cases hthere : v.stockLocate = locate
          · rw [if_pos hthere, if_pos hthere]
            exact h
          · rw [if_neg hthere, if_neg hthere]
            exact ⟨rfl, rfl, h.refs, h.said⟩

theorem replayMessage (h : SameMarket s t) (msg : List UInt8) : SameMarket (s.replayMessage msg) (t.replayMessage msg) := by
  by_cases hshort : msg.length < 11
  · rw [ExchangeSession.replayMessage, ExchangeSession.replayMessage, if_pos hshort, if_pos hshort]
    exact h
  · have hvenue : t.venueAt (Itch.decode msg).locate = s.venueAt (Itch.decode msg).locate := by
      unfold ExchangeSession.venueAt
      rw [h.table]
    have hlen := Nat.le_of_not_lt hshort
    rw [replayMessage_eq s hlen, replayMessage_eq t hlen, hvenue]
    cases (Itch.decode msg).body
    case stockDirectory name => exact (h.forward_both msg).bindDirectory name _
    case stockDirectoryShort => exact h.forward_both msg
    all_goals
      simp only
      cases s.venueAt (Itch.decode msg).locate with
      | none => exact h.forward_both msg
      | some i => exact (h.forward_both msg).mirror i _

/-- **The same call of both.** -/
theorem step (h : SameMarket s t) (op : Op) : SameMarket (s.step op) (t.step op) := by
  cases op with
  | request m => exact h.dispatchOuch m
  | injectSynthetic side tick qty => exact h.atVenue 0 _
  | cancelSynthetic ref => exact h.atVenue 0 _
  | sessionEvent code => exact h.atVenue 0 _
  | replayMessage msg => exact h.replayMessage msg
  | resetDay => exact h.atVenues _
  | publishDirectory => exact h.atVenues _

end SameMarket

/-! ### The extract in the place of the tape -/

/-- The filter takes the messages of the tape. -/
def watch (f : SymbolFilter) : Op → SymbolFilter
  | .replayMessage msg => f.take msg
  | _ => f

/-- The filter leaves the call out. -/
def leavesOut (f : SymbolFilter) : Op → Bool
  | .replayMessage msg => f.drops msg
  | _ => false

/-- The calls with the extract in the place of the tape. -/
def extracted (symbols : List (List UInt8)) (ops : List Op) : List Op := purge watch leavesOut (SymbolFilter.new symbols) ops

/-- If the message is one for the book, and a venue starts at its locate, then one of the entries is
of the venue's symbol. -/
def Directed (cfg : ExchangeConfig) (es : List (ℕ × List UInt8)) (msg : List UInt8) : Prop :=
  (mirrorOf (Itch.decode msg).body).isSome → ∀ i < cfg.venueSymbols.length, cfg.locateAt i = (Itch.decode msg).locate →
    ∃ e ∈ es, cfg.venueSymbols[i]? = some e.2

instance (cfg : ExchangeConfig) (es : List (ℕ × List UInt8)) (msg : List UInt8) : Decidable (Directed cfg es msg) :=
  inferInstanceAs (Decidable (_ → ∀ i < cfg.venueSymbols.length, cfg.locateAt i = (Itch.decode msg).locate →
    ∃ e ∈ es, cfg.venueSymbols[i]? = some e.2))

/-- Before the tape has a message for the book at a locate where a venue starts, it has an entry of
the venue's symbol. -/
def DirectedFirst (cfg : ExchangeConfig) (ops : List Op) : Prop :=
  ∀ pre msg post, ops = pre ++ .replayMessage msg :: post → Directed cfg (entries pre) msg

theorem DirectedFirst.of_append {cfg : ExchangeConfig} {ops ops' : List Op} (h : DirectedFirst cfg (ops ++ ops')) :
    DirectedFirst cfg ops :=
  fun pre msg post heq => h pre msg (post ++ ops') (by rw [heq]; simp)

theorem bodyOf_directory {msg : List UInt8} (htype : Itch.byteAt msg 0 = 82) :
    Itch.bodyOf msg = if msg.length < 39 then .stockDirectoryShort else .stockDirectory (SymbolFilter.stockOf msg) := by
  unfold Itch.bodyOf
  simp only
  rw [if_neg (by omega), if_pos htype]
  rfl

/-- The message of the tape that a call replays. -/
def Op.tape : Op → List (List UInt8)
  | .replayMessage msg => [msg]
  | _ => []

/-- The messages of the tape, looked at one call after the other. -/
theorem directedFirst_of_split {cfg : ExchangeConfig} {ops : List Op}
    (h : ∀ k < ops.length, ∀ msg ∈ (ops.getD k .resetDay).tape, Directed cfg (entries (ops.take k)) msg) :
    DirectedFirst cfg ops := by
  intro pre msg post heq
  have hat := h pre.length (by simp [heq]) msg (by simp [heq, Op.tape])
  simpa [heq] using hat

/-- The entries of the filter are those of its symbols. -/
theorem filter_entryOf {symbols : List (List UInt8)} {msg : List UInt8} {l : ℕ} :
    SymbolFilter.entryOf symbols msg = some l ↔ ∃ name ∈ symbols, entryOf msg = some (l, name) := by
  unfold SymbolFilter.entryOf entryOf Itch.decode
  simp only
  by_cases htype : Itch.byteAt msg 0 = 82
  · rw [bodyOf_directory htype]
    by_cases hcut : msg.length < 39
    · rw [if_neg fun h => absurd h.1 (Nat.not_le_of_lt hcut), if_pos hcut]
      split_ifs <;> simp
    · rw [if_neg (show ¬ msg.length < 11 by omega), if_neg hcut]
      by_cases hmem : SymbolFilter.stockOf msg ∈ symbols
      · rw [if_pos ⟨Nat.le_of_not_lt hcut, htype, hmem⟩]
        simp [SymbolFilter.locateOf, hmem]
      · rw [if_neg fun h => hmem h.2.2]
        simp only [reduceCtorEq, Option.some.injEq, Prod.mk.injEq, false_iff]
        rintro ⟨name, hname, -, rfl⟩
        exact hmem hname
  · rw [if_neg fun h => htype h.2.1]
    have hbody := isDirectory_bodyOf htype
    cases hb : Itch.bodyOf msg
    case stockDirectory | stockDirectoryShort =>
      rw [hb] at hbody
      cases hbody
    all_goals simp

/-- A message that is no directory entry. -/
theorem replayMessage_of_not (s : ExchangeSession) {msg : List UInt8} (hlen : 11 ≤ msg.length)
    (hdir : IsDirectory (Itch.decode msg).body = false) :
    s.replayMessage msg = match s.venueAt (Itch.decode msg).locate with
      | some i => (s.forward msg).mirror i (Itch.decode msg).body
      | none => s.forward msg := by
  rw [replayMessage_eq s hlen]
  generalize (Itch.decode msg).body = body at hdir ⊢
  cases body <;> first | rfl | cases hdir

section

variable {cfg : ExchangeConfig} {symbols : List (List UInt8)} {p : Places} {s t : ExchangeSession} {f : SymbolFilter}
  {pre : List Op} {msg : List UInt8}

/-- **A message that is left out** changes nothing of the market. -/
theorem SameMarket.leftOut (hnodup : cfg.venueSymbols.Nodup) (hsize : cfg.venueSymbols.length < 2 ^ 16)
    (h : Routes cfg.venueSymbols
      ((entries pre).foldl (Places.direct cfg.venueSymbols) (Places.startAt cfg.locateAt cfg.venueSymbols.length)) s)
    (hsub : cfg.venueSymbols ⊆ f.symbols) (hmine : ∀ l, f.mine l = true ↔ ∃ e ∈ entries pre, e.1 = l ∧ e.2 ∈ f.symbols)
    (hfirst : DirectedFirst cfg (pre ++ [.replayMessage msg])) (hdrop : f.drops msg = true) :
    SameMarket s (s.replayMessage msg) := by
  by_cases hshort : msg.length < 11
  · rw [ExchangeSession.replayMessage, if_pos hshort]
    exact .refl s
  have hlen := Nat.le_of_not_lt hshort
  have hforward := SameMarket.forward s msg
  rw [(SymbolFilter.accept_eq f msg).2] at hdrop
  simp only [hlen, decide_true, Bool.true_and, Bool.not_eq_true', Bool.or_eq_false_iff, decide_eq_false_iff_not,
    Option.isSome_eq_false_iff, Option.isNone_iff_eq_none] at hdrop
  obtain ⟨⟨-, hentry⟩, hlocate⟩ := hdrop
  by_cases hdir : IsDirectory (Itch.decode msg).body = true
  · rw [replayMessage_eq s hlen]
    cases hbody : (Itch.decode msg).body
    case stockDirectory name =>
      -- the entry of a symbol that is not the filter's, and so not the session's
      have hno : name ∉ cfg.venueSymbols := fun hmem => by
        have hsome : SymbolFilter.entryOf f.symbols msg = some (Itch.decode msg).locate := by
          refine filter_entryOf.mpr ⟨name, hsub hmem, ?_⟩
          unfold entryOf
          rw [if_neg hshort, hbody]
        rw [hentry] at hsome
        cases hsome
      have hnone : ((s.forward msg).venues.findIdx? fun v => v.symbol = name) = none := by
        rw [(h.congr rfl rfl : Routes _ _ (s.forward msg)).findIdx?_eq]
        refine List.findIdx?_eq_none_iff.mpr fun x hx => ?_
        simp only [decide_eq_false_iff_not]
        rintro rfl
        exact hno hx
      have hbind : (s.forward msg).bindDirectory name (Itch.decode msg).locate = s.forward msg := by
        unfold ExchangeSession.bindDirectory
        rw [hnone]
      simp only
      rw [hbind]
      exact hforward
    case stockDirectoryShort => exact hforward
    all_goals
      rw [hbody] at hdir
      cases hdir
  · rw [replayMessage_of_not s hlen (Bool.eq_false_iff.mpr hdir)]
    cases hvenue : s.venueAt (Itch.decode msg).locate with
    | none => exact hforward
    | some i =>
        simp only
        unfold ExchangeSession.mirror
        cases hmirror : mirrorOf (Itch.decode msg).body with
        | none => exact hforward
        | some g =>
            exfalso
            have htype : Itch.byteAt msg 0 ≠ 82 := fun htype => by
              refine hdir ?_
              change IsDirectory (Itch.bodyOf msg) = true
              rw [bodyOf_directory htype]
              split_ifs <;> rfl
            have hunnamed : ¬ f.mine (Itch.decode msg).locate = true := by
              have hlocate : f.mine (SymbolFilter.locateOf msg) = false := by simpa [htype] using hlocate
              exact Bool.eq_false_iff.mp hlocate
            obtain ⟨hstays, -⟩ := (h.venueAt_eq_some hsize).mp hvenue
            have hi : i < cfg.venueSymbols.length := h.came_lt _ _ hstays.1
            obtain ⟨e, he, hl, hname⟩ | ⟨hnone, hstart⟩ := Places.stays_foldl hnodup (entries pre) hstays
            · exact hunnamed ((hmine _).mpr ⟨e, he, hl, hsub (List.mem_of_getElem? hname)⟩)
            · obtain ⟨e, he, hname⟩ := hfirst pre msg [] rfl (by rw [hmirror]; rfl) i hi hstart
              exact hnone e he hname

/-- What the filter has named after some calls. -/
theorem mine_watch (symbols : List (List UInt8)) (ops : List Op) (l : ℕ) :
    (ops.foldl watch (SymbolFilter.new symbols)).symbols = symbols ∧
      ((ops.foldl watch (SymbolFilter.new symbols)).mine l = true ↔ ∃ e ∈ entries ops, e.1 = l ∧ e.2 ∈ symbols) := by
  induction ops using List.reverseRecOn with
  | nil => exact ⟨rfl, by simp [entries, SymbolFilter.new]⟩
  | append_singleton ops op ih =>
      obtain ⟨hsymbols, hmine⟩ := ih
      have hentries : entries (ops ++ [op]) = entries ops ++ op.entry.toList := by
        unfold entries
        rw [List.filterMap_append, List.filterMap_cons]
        cases op.entry <;> rfl
      rw [List.foldl_append, List.foldl_cons, List.foldl_nil, hentries]
      generalize ops.foldl watch (SymbolFilter.new symbols) = f at hsymbols hmine ⊢
      cases op with
      | replayMessage msg =>
          refine ⟨(SymbolFilter.symbols_take f msg).trans hsymbols, ?_⟩
          change (f.take msg).mine l = true ↔ _
          rw [(SymbolFilter.accept_eq f msg).1, hsymbols]
          cases hentry : SymbolFilter.entryOf symbols msg with
          | none =>
              simp only [hmine, List.mem_append]
              refine exists_congr fun e => and_congr_left ?_
              rintro ⟨-, hname⟩
              refine (or_iff_left fun he => ?_).symm
              -- an entry of the message would be one of the filter's
              have hsome := filter_entryOf.mpr ⟨e.2, hname, Option.mem_toList.mp he⟩
              rw [hentry] at hsome
              cases hsome
          | some l' =>
              obtain ⟨name, hname, heq⟩ := filter_entryOf.mp hentry
              simp only [Op.entry, heq, Option.toList_some, List.mem_append, List.mem_singleton, or_and_right, exists_or,
                exists_eq_left]
              by_cases hl : l = l'
              · rw [hl, Function.update_self]
                simp [hname]
              · rw [Function.update_of_ne hl, hmine]
                simp [Ne.symm hl]
      | _ => exact ⟨hsymbols, by simpa [watch, Op.entry] using hmine⟩

end

/-- **Replaying the extract** in the place of the tape, with the other calls as they are, leaves the
same venues and the same messages of the venues, when the filter has the symbols of the session and
the tape does not use a locate where a venue starts before the venue's own entry. -/
theorem extract_replays (cfg : ExchangeConfig) (stray : ℕ) (hnodup : cfg.venueSymbols.Nodup)
    (hsize : cfg.venueSymbols.length < 2 ^ 16) (symbols : List (List UInt8)) (hsub : cfg.venueSymbols ⊆ symbols)
    (ops : List Op) (hfirst : DirectedFirst cfg ops) :
    SameMarket ((new cfg stray).run ops) ((new cfg stray).run (extracted symbols ops)) := by
  induction ops using List.reverseRecOn with
  | nil => exact .refl _
  | append_singleton ops op ih =>
      have hsame := ih hfirst.of_append
      have hroutes := (routes_start cfg stray).run hsize ops
      have hmine := mine_watch symbols ops
      have hrun : ∀ ops', (new cfg stray).run (ops' ++ [op]) = ((new cfg stray).run ops').step op := fun ops' => by
        simp only [run, List.foldl_append]
        rfl
      unfold extracted at hsame ⊢
      rw [purge_append, hrun]
      generalize ops.foldl watch (SymbolFilter.new symbols) = f at hmine ⊢
      have hone : purge watch leavesOut f [op] = if leavesOut f op then [] else [op] := rfl
      rw [hone]
      split_ifs with hout
      · cases op with
        | replayMessage msg =>
            rw [List.append_nil]
            have hsymbols := (hmine 0).1
            exact (SameMarket.leftOut hnodup hsize hroutes (hsymbols ▸ hsub) (fun l => hsymbols ▸ (hmine l).2) hfirst
              hout).symm.trans hsame
        | _ => cases hout
      · rw [hrun]
        exact hsame.step op

/-- The venue of `AAPL` does not see the order of another symbol, at the locate where it started. -/
theorem extract_replays_sample :
    let directory := Op.replayMessage (directoryMsg 13 [65, 65, 80, 76])
    ((new {} 0).run [directory, .replayMessage (addMsg 13)]).venues =
      ((new {} 0).run [directory, .replayMessage (addMsg 1), .replayMessage (addMsg 13)]).venues :=
  (extract_replays {} 0 (by decide) (by decide) [[65, 65, 80, 76]] (by decide)
    [.replayMessage (directoryMsg 13 [65, 65, 80, 76]), .replayMessage (addMsg 1), .replayMessage (addMsg 13)]
    (directedFirst_of_split (by decide))).venues

end ExchangeSession

end TickToTrade.Sim
