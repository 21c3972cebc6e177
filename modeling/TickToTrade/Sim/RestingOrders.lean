import TickToTrade.Sim.VenueRejects
import TickToTrade.Util.VacantSlots

/-!
# Resting orders, whoever's they are

What the table of the resting orders and the clients' list say about the orders in the
engine (`Filed`), in every run where the tape does not use the venue's order references and
these do not run out. Nothing is asked of the user references, of the references that are
cancelled or executed, or of the tape's references among each other: an order of the tape
may lose its entry to another one, and the list may have references of orders that are
gone.
-/

namespace TickToTrade.Sim.Venue

open Util

/-- The tables and the resting orders. The venue has handed out the references `own`, and
`tape` are references of orders of the tape. -/
structure Filed (own tape : Set ℕ) (v : Venue) (A : Sides ℕ) : Prop where
  liveWF : v.live.WF
  tidy : v.live.Tidy
  distinct : A.Distinct
  pos : ∀ s, ∀ o ∈ A s, 0 < o.qty
  nonzero : ∀ s, ∀ o ∈ A s, o.id ≠ 0
  ids : ∀ s, ∀ o ∈ A s, o.id ∈ own ∨ o.id ∈ tape
  /-- An entry has the handle, the side and the tick of an order. -/
  live : ∀ ref l, v.live.lookup ref = some l → ∃ o ∈ A l.side, o.id = ref ∧ l.handle = some o.key ∧ l.tick = o.price
  clients : ∀ ref l, v.live.lookup ref = some l → (l.client = true ↔ ref ∈ v.clientRefs)
  refs : ∀ ref ∈ v.clientRefs, ref ≠ 0 ∧ ref ∈ own
  nodup : v.clientRefs.Nodup
  /-- A client's order is alone under its reference. -/
  alone : ∀ ref ∈ v.clientRefs, ∀ s o s' o', o ∈ A s → o' ∈ A s' → o.id = ref → o'.id = ref → o.key = o'.key
  /-- A client's order has an entry while it rests. -/
  entered : ∀ ref ∈ v.clientRefs, ∀ s, ∀ o ∈ A s, o.id = ref → v.live.lookup ref ≠ none

/-- The tables, and the engine with them. -/
def Shelved (own tape : Set ℕ) (v : Venue) : Prop := ∃ A, Filed own tape v A ∧ v.engine.Queued A

section

variable {own tape own' tape' : Set ℕ} {v w : Venue} {A A' : Sides ℕ} {s : Side} {o : Resting ℕ} {l : LiveOrder}
  {ref q : ℕ} {tick : ℤ}

namespace Filed

/-- The tables alone matter. -/
theorem congr (h : Filed own tape v A) (hlive : w.live = v.live) (hrefs : w.clientRefs = v.clientRefs) :
    Filed own tape w A := by
  refine ⟨?_, ?_, h.distinct, h.pos, h.nonzero, h.ids, ?_, ?_, ?_, ?_, ?_, ?_⟩
  all_goals simp only [hlive, hrefs]
  · exact h.liveWF
  · exact h.tidy
  · exact h.live
  · exact h.clients
  · exact h.refs
  · exact h.nodup
  · exact h.alone
  · exact h.entered

theorem tells (h : Filed own tape v A) {msgs : List Sent} (hw : Tells v msgs w) : Filed own tape w A :=
  h.congr hw.live hw.clientRefs

theorem mono (h : Filed own tape v A) (hown : own ⊆ own') (htape : tape ⊆ tape') : Filed own' tape' v A :=
  { h with
    ids := fun s o ho => (h.ids s o ho).imp (@hown _) (@htape _)
    refs := fun ref href => ⟨(h.refs ref href).1, hown (h.refs ref href).2⟩ }

/-- What is found under a reference: its entry, or the default value under zero. -/
theorem find (h : Filed own tape v A) (hl : v.live.get? ref = some l) : ref ≠ 0 ∧ v.live.lookup ref = some l ∨ ref = 0 ∧ l = {} := by
  by_cases hzero : ref = 0
  · subst hzero
    exact .inr ⟨rfl, h.tidy.get?_vacant hl⟩
  · exact .inl ⟨hzero, by rw [FlatHashMap.lookup_eq_get? _ hzero, hl]⟩

/-- The entry of a client's order is about the one order with the reference. -/
theorem client_order (h : Filed own tape v A) (hl : v.live.lookup o.id = some l) (hclient : l.client = true) (ho : o ∈ A s) :
    l.side = s ∧ l.handle = some o.key ∧ l.tick = o.price := by
  obtain ⟨x, hx, hid, hhandle, htick⟩ := h.live _ l hl
  have hkey := h.alone o.id ((h.clients _ l hl).mp hclient) l.side x s o hx ho hid rfl
  obtain ⟨hs, rfl⟩ := h.distinct hx ho hkey
  exact ⟨hs, hhandle, htick⟩

/-! ### Orders lose shares and leave -/

theorem shrink (h : Filed own tape v A) (ho : o ∈ A s) (hq : 0 < q) : Filed own tape v (A.resized s o.key q) := by
  have hmem : ∀ s' x, x ∈ A.resized s o.key q s' → ∃ y ∈ A s', y.key = x.key ∧ y.id = x.id ∧ y.price = x.price := by
    intro s' x hx
    obtain ⟨hx, -⟩ | ⟨rfl, rfl⟩ := (Sides.mem_resized h.distinct ho).mp hx
    · exact ⟨x, hx, rfl, rfl, rfl⟩
    · exact ⟨o, ho, rfl, rfl, rfl⟩
  refine ⟨h.liveWF, h.tidy, h.distinct.resized ho, fun s' x hx => ?_, fun s' x hx => ?_, fun s' x hx => ?_,
    fun ref l hl => ?_, h.clients, h.refs, h.nodup, fun ref href s₁ x s₂ y hx hy hxid hyid => ?_, fun ref href s' x hx hid => ?_⟩
  · obtain ⟨hx, -⟩ | ⟨rfl, rfl⟩ := (Sides.mem_resized h.distinct ho).mp hx
    · exact h.pos s' x hx
    · exact hq
  · obtain ⟨y, hy, -, hid, -⟩ := hmem s' x hx
    exact hid ▸ h.nonzero s' y hy
  · obtain ⟨y, hy, -, hid, -⟩ := hmem s' x hx
    exact hid ▸ h.ids s' y hy
  · obtain ⟨x, hx, hid, hhandle, htick⟩ := h.live ref l hl
    by_cases hk : x.key = o.key
    · obtain ⟨hs, rfl⟩ := h.distinct hx ho hk
      exact ⟨_, (Sides.mem_resized h.distinct ho).mpr (.inr ⟨hs, rfl⟩), hid, hhandle, htick⟩
    · exact ⟨x, (Sides.mem_resized h.distinct ho).mpr (.inl ⟨hx, hk⟩), hid, hhandle, htick⟩
  · obtain ⟨x', hx', hxk, hxi, -⟩ := hmem s₁ x hx
    obtain ⟨y', hy', hyk, hyi, -⟩ := hmem s₂ y hy
    rw [← hxk, ← hyk]
    exact h.alone ref href s₁ x' s₂ y' hx' hy' (hxi.trans hxid) (hyi.trans hyid)
  · obtain ⟨y, hy, -, hyid, -⟩ := hmem s' x hx
    exact h.entered ref href s' y hy (hyid.trans hid)

/-- An order leaves with the entry under its reference. -/
theorem leave (h : Filed own tape v A) (ho : o ∈ A s) (hwf : w.live.WF) (htidy : w.live.Tidy)
    (hlookup : w.live.lookup = Function.update v.live.lookup o.id none)
    (hrefs : w.clientRefs = v.clientRefs ∨ w.clientRefs = dropRef v.clientRefs o.id) :
    Filed own tape w (A.without s o.key) := by
  have hmem : ∀ s' x, x ∈ A.without s o.key s' → x ∈ A s' ∧ x.key ≠ o.key := fun s' x hx =>
    (Sides.mem_without h.distinct ho).mp hx
  have hsub : ∀ r ∈ w.clientRefs, r ∈ v.clientRefs := by
    rcases hrefs with hrefs | hrefs <;> rw [hrefs]
    · exact fun r hr => hr
    · exact fun r hr => ((mem_dropRef h.nodup).mp hr).1
  have hother : ∀ r, r ≠ o.id → (r ∈ w.clientRefs ↔ r ∈ v.clientRefs) := by
    intro r hr
    rcases hrefs with hrefs | hrefs <;> rw [hrefs]
    rw [mem_dropRef h.nodup, and_iff_left hr]
  have hentry : ∀ r l, w.live.lookup r = some l → r ≠ o.id ∧ v.live.lookup r = some l := by
    intro r l hl
    rw [hlookup] at hl
    by_cases hr : r = o.id
    · rw [hr, Function.update_self] at hl
      cases hl
    · rw [Function.update_of_ne hr] at hl
      exact ⟨hr, hl⟩
  refine ⟨hwf, htidy, h.distinct.without ho, fun s' x hx => h.pos s' x (hmem s' x hx).1,
    fun s' x hx => h.nonzero s' x (hmem s' x hx).1, fun s' x hx => h.ids s' x (hmem s' x hx).1, fun r l hl => ?_,
    fun r l hl => ?_, fun r hr => h.refs r (hsub r hr), ?_, fun r hr s₁ x s₂ y hx hy =>
      h.alone r (hsub r hr) s₁ x s₂ y (hmem s₁ x hx).1 (hmem s₂ y hy).1, fun r hr s' x hx hid => ?_⟩
  · obtain ⟨hr, hl⟩ := hentry r l hl
    obtain ⟨x, hx, hid, hhandle, htick⟩ := h.live r l hl
    refine ⟨x, (Sides.mem_without h.distinct ho).mpr ⟨hx, fun hk => hr ?_⟩, hid, hhandle, htick⟩
    rw [← hid, (h.distinct hx ho hk).2]
  · obtain ⟨hr, hl⟩ := hentry r l hl
    rw [h.clients r l hl, hother r hr]
  · rcases hrefs with hrefs | hrefs <;> rw [hrefs]
    · exact h.nodup
    · exact nodup_dropRef h.nodup _
  · obtain ⟨hx, hk⟩ := hmem s' x hx
    have hne : r ≠ o.id := fun hr' => hk (h.alone r (hsub r hr) s' x s o hx ho hid hr'.symm)
    rw [hlookup, Function.update_of_ne hne]
    exact h.entered r (hsub r hr) s' x hx hid

end Filed

theorem tidy_eraseLive (h : v.live.Tidy) (ref : ℕ) : (v.eraseLive ref).live.Tidy := by
  unfold eraseLive
  cases he : v.live.erase ref with
  | none => exact h
  | some e => exact h.erase he

namespace Filed

theorem eraseLive (h : Filed own tape v A) (ho : o ∈ A s) : Filed own tape (v.eraseLive o.id) (A.without s o.key) := by
  obtain ⟨hwf, hlookup, -, hrefs⟩ := Tables.live_eraseLive h.liveWF o.id
  exact h.leave ho hwf (tidy_eraseLive h.tidy o.id) hlookup (.inl hrefs)

theorem dropClient (h : Filed own tape v A) (ho : o ∈ A s) (l : LiveOrder) :
    Filed own tape (v.dropClient o.id l) (A.without s o.key) := by
  have hlive : (v.eraseUserRef l.userRef).live = v.live := by
    unfold eraseUserRef
    cases v.byUserRef.erase l.userRef <;> rfl
  obtain ⟨hwf, hlookup, -, -⟩ := Tables.live_eraseLive (v := v.eraseUserRef l.userRef) (by rw [hlive]; exact h.liveWF) o.id
  rw [hlive] at hlookup
  exact h.leave ho hwf (tidy_eraseLive (by rw [hlive]; exact h.tidy) o.id) hlookup (.inr (clientRefs_dropClient v o.id l))

/-! ### Orders come to rest -/

/-- An order rests under a new handle, with an entry. -/
theorem rest (h : Filed own tape v A) (hown : own ⊆ own') (htape : tape ⊆ tape') (hid : o.id ≠ 0)
    (hids : o.id ∈ own' ∨ o.id ∈ tape') (hq : 0 < o.qty) (hkey : ∀ s', ∀ x ∈ A s', x.key ≠ o.key)
    (hout : o.id ∉ v.clientRefs) {user : ℕ} {client : Bool}
    (hwf : w.live = v.live.insertOrAssign o.id ⟨some o.key, s, o.price, client, user⟩)
    (hrefs : w.clientRefs = if client then v.clientRefs ++ [o.id] else v.clientRefs)
    (hclient : client = true → o.id ∈ own' ∧ ∀ s', ∀ x ∈ A s', x.id ≠ o.id) : Filed own' tape' w (A.rested s o) := by
  have hlookup : w.live.lookup = Function.update v.live.lookup o.id (some ⟨some o.key, s, o.price, client, user⟩) := by
    rw [hwf]
    exact h.liveWF.lookup_insertOrAssign hid _
  have hmem : ∀ r, r ∈ w.clientRefs ↔ r ∈ v.clientRefs ∨ client = true ∧ r = o.id := by
    intro r
    rw [hrefs]
    cases client <;> simp
  refine ⟨?_, ?_, h.distinct.rested hkey, fun s' x hx => ?_, fun s' x hx => ?_, fun s' x hx => ?_, fun r l hl => ?_,
    fun r l hl => ?_, fun r hr => ?_, ?_, fun r hr s₁ x s₂ y hx hy hxid hyid => ?_, fun r hr s' x hx hid' => ?_⟩
  · rw [hwf]
    exact h.liveWF.wf_insertOrAssign ..
  · rw [hwf]
    exact h.tidy.insertOrAssign hid _
  · obtain hx | ⟨-, rfl⟩ := Sides.mem_rested_iff.mp hx
    · exact h.pos s' x hx
    · exact hq
  · obtain hx | ⟨-, rfl⟩ := Sides.mem_rested_iff.mp hx
    · exact h.nonzero s' x hx
    · exact hid
  · obtain hx | ⟨-, rfl⟩ := Sides.mem_rested_iff.mp hx
    · exact (h.ids s' x hx).imp (@hown _) (@htape _)
    · exact hids
  · rw [hlookup] at hl
    by_cases hr : r = o.id
    · rw [hr, Function.update_self] at hl
      cases hl
      exact ⟨o, Sides.mem_rested_iff.mpr (.inr ⟨rfl, rfl⟩), hr.symm, rfl, rfl⟩
    · rw [Function.update_of_ne hr] at hl
      obtain ⟨x, hx, hrest⟩ := h.live r l hl
      exact ⟨x, Sides.mem_rested_iff.mpr (.inl hx), hrest⟩
  · rw [hlookup] at hl
    rw [hmem]
    by_cases hr : r = o.id
    · rw [hr, Function.update_self] at hl
      cases hl
      simp [hr, hout]
    · rw [Function.update_of_ne hr] at hl
      rw [h.clients r l hl]
      simp [hr]
  · obtain hr | ⟨hc, rfl⟩ := (hmem r).mp hr
    · exact ⟨(h.refs r hr).1, hown (h.refs r hr).2⟩
    · exact ⟨hid, (hclient hc).1⟩
  · rw [hrefs]
    cases client with
    | false => exact h.nodup
    | true =>
        exact List.nodup_append.mpr ⟨h.nodup, List.nodup_singleton _, fun x hx y hy => by
          rw [List.mem_singleton.mp hy]; rintro rfl; exact hout hx⟩
  · obtain hx' | ⟨-, rfl⟩ := Sides.mem_rested_iff.mp hx
    · obtain hy' | ⟨-, rfl⟩ := Sides.mem_rested_iff.mp hy
      · obtain hr | ⟨hc, rfl⟩ := (hmem r).mp hr
        · exact h.alone r hr s₁ x s₂ y hx' hy' hxid hyid
        · exact absurd hxid ((hclient hc).2 s₁ x hx')
      · obtain hr | ⟨hc, -⟩ := (hmem r).mp hr
        · exact absurd (hyid ▸ hr) hout
        · exact absurd (hxid.trans hyid.symm) ((hclient hc).2 s₁ x hx')
    · obtain hy' | ⟨-, rfl⟩ := Sides.mem_rested_iff.mp hy
      · obtain hr | ⟨hc, -⟩ := (hmem r).mp hr
        · exact absurd (hxid ▸ hr) hout
        · exact absurd (hyid.trans hxid.symm) ((hclient hc).2 s₂ y hy')
      · rfl
  · rw [hlookup]
    by_cases hne : r = o.id
    · rw [hne, Function.update_self]
      nofun
    · rw [Function.update_of_ne hne]
      obtain hr | ⟨-, hr⟩ := (hmem r).mp hr
      · obtain hx | ⟨-, rfl⟩ := Sides.mem_rested_iff.mp hx
        · exact h.entered r hr s' x hx hid'
        · exact absurd hid'.symm hne
      · exact absurd hr hne

/-! ### The engine trades -/

/-- A resting order that has traded. -/
theorem settleTrade (h : Filed own tape v A) {t : Trade} (ho : o ∈ A s) (hid : t.restingId = o.id) (hle : t.qty ≤ o.qty)
    (hfilled : t.restingFilled ↔ t.qty = o.qty) : Filed own tape (v.settleTrade t) (A.less s o t.qty) := by
  have hne := h.nonzero s o ho
  unfold Venue.settleTrade Sides.less
  rw [hid, ← FlatHashMap.lookup_eq_get? _ hne]
  by_cases he : t.qty = o.qty
  · rw [if_pos he]
    have hf := hfilled.mpr he
    cases hl : v.live.lookup o.id with
    | none =>
        -- a tape order that has lost its entry
        have hsame : v.live.lookup = Function.update v.live.lookup o.id none := by rw [← hl, Function.update_eq_self]
        exact h.leave ho h.liveWF h.tidy hsame (.inl rfl)
    | some l =>
        simp only [hf, if_true]
        split_ifs
        · exact h.dropClient ho l
        · exact h.eraseLive ho
  · rw [if_neg he]
    have hf : ¬ t.restingFilled := fun hf => he (hfilled.mp hf)
    have hshrink := h.shrink ho (q := o.qty - t.qty) (by omega)
    cases hl : v.live.lookup o.id with
    | none => exact hshrink
    | some l =>
        simp only [hf]
        exact hshrink

/-- The trades of the engine: the induction follows the trades and the orders that they
hit. -/
theorem trades (h : Filed own tape v A) {ts : List Trade} (hts : A.HitsAll s ts A') (client : Bool) (user : ℕ) :
    Filed own tape (ts.foldl (handleTrade client user) v) A' ∧
      (ts.foldl (handleTrade client user) v).engine = v.engine := by
  induction ts generalizing v A with
  | nil =>
      cases hts
      exact ⟨h, rfl⟩
  | cons t ts ih =>
      obtain ⟨A₁, ⟨o, ho, hid, -, -, hle, hfilled, rfl⟩, hts⟩ := hts
      have hone : Filed own tape (handleTrade client user v t) (A.less s o t.qty) := by
        rw [handleTrade_eq]
        exact (h.tells (tells_reportTrade client user v t)).settleTrade ho hid hle hfilled
      obtain ⟨hall, hengine⟩ := ih hone hts
      exact ⟨hall, hengine.trans (handleTrade_engine ..)⟩

/-- A reference that the venue has not handed out is no client's. -/
theorem not_listed (h : Filed own tape v A) (hown : ref ∉ own) : ref ∉ v.clientRefs := fun hmem => hown (h.refs ref hmem).2

/-- An order with a new reference of the venue's comes to rest. -/
theorem restNew (h : Filed own tape v A) (hid : o.id ≠ 0) (hown : o.id ∉ own) (htape : o.id ∉ tape) (hq : 0 < o.qty)
    (hkey : ∀ s', ∀ x ∈ A s', x.key ≠ o.key) (client : Bool) (user : ℕ) :
    Filed (insert o.id own) tape
      (if client then v.trackClient o.id (some o.key) s o.price user else v.setLive o.id ⟨some o.key, s, o.price, false, 0⟩)
      (A.rested s o) := by
  have hmem : o.id ∈ insert o.id own := Set.mem_insert ..
  have hfresh : ∀ s', ∀ x ∈ A s', x.id ≠ o.id := by
    intro s' x hx he
    rcases h.ids s' x hx with hids | hids
    · exact hown (he ▸ hids)
    · exact htape (he ▸ hids)
  have hrest : ∀ {w : Venue} {u : ℕ}, w.live = v.live.insertOrAssign o.id ⟨some o.key, s, o.price, client, u⟩ →
      w.clientRefs = (if client then v.clientRefs ++ [o.id] else v.clientRefs) →
      Filed (insert o.id own) tape w (A.rested s o) := fun hlive hrefs =>
    h.rest (Set.subset_insert ..) (Set.Subset.refl _) hid (.inl hmem) hq hkey (h.not_listed hown) hlive hrefs
      fun _ => ⟨hmem, hfresh⟩
  cases client with
  | false => exact hrest rfl rfl
  | true => exact hrest rfl rfl

end Filed

/-! ### New orders -/

theorem Shelved.mono (h : Shelved own tape v) (hown : own ⊆ own') (htape : tape ⊆ tape') : Shelved own' tape' v :=
  let ⟨A, hf, hb⟩ := h
  ⟨A, hf.mono hown htape, hb⟩

theorem Shelved.tells (h : Shelved own tape v) {msgs : List Sent} (hw : Tells v msgs w) : Shelved own tape w :=
  let ⟨A, hf, hb⟩ := h
  ⟨A, hf.tells hw, by rw [hw.engine]; exact hb⟩

/-- A new order trades and rests. -/
theorem Shelved.processOrder (h : Shelved own tape v) (hne : ref ≠ 0) (hown : ref ∉ own) (htape : ref ∉ tape) (s : Side)
    (tick : ℤ) (q : ℕ) (client : Bool) (user : ℕ) :
    Shelved (insert ref own) tape (v.processOrder ref s tick q client user) := by
  obtain ⟨A, hf, hb⟩ := h
  by_cases hout : q = 0 ∨ ¬ v.engine.InRange tick
  · have hnone : v.engine.add ref s tick q = (none, v.engine, []) := if_pos hout
    unfold Venue.processOrder
    rw [hnone]
    exact ⟨A, hf.mono (Set.subset_insert ..) (Set.Subset.refl _), hb⟩
  · obtain ⟨hq, hp⟩ := not_or.mp hout
    obtain ⟨k, b, left, ts, A₁, heq, hts, -, -, hend⟩ := hb.add ref s hq (not_not.mp hp)
    have hstart : Filed own tape { v with engine := b } A := hf.congr rfl rfl
    obtain ⟨hf₁, hengine⟩ := hstart.trades hts client user
    unfold Venue.processOrder
    rw [heq]
    simp only
    generalize ts.foldl (handleTrade client user) { v with engine := b } = w at hf₁ hengine ⊢
    obtain ⟨rfl, -, hb₁⟩ | ⟨h, rfl, hleft, hkey, hb₁, -⟩ := hend
    · exact ⟨A₁, hf₁.mono (Set.subset_insert ..) (Set.Subset.refl _), by rw [hengine]; exact hb₁⟩
    · have hsent : Filed own tape (w.emitItchAdd ref s tick (w.engine.order h).qty) A₁ := hf₁.tells (Tells.sendMd w _)
      refine ⟨_, hsent.restNew (o := ⟨h, ref, tick, left⟩) hne hown htape hleft hkey client user, ?_⟩
      cases client
      · exact hengine ▸ hb₁
      · exact hengine ▸ hb₁

theorem Shelved.processImmediate (h : Shelved own tape v) (ref : ℕ) (s : Side) (tick : ℤ) (q user : ℕ) :
    Shelved own tape (v.processImmediate ref s tick q user) := by
  obtain ⟨A, hf, hb⟩ := h
  by_cases hout : q = 0 ∨ ¬ v.engine.InRange tick
  · have hnone : v.engine.match ref s tick q = (v.engine, 0, []) := if_pos hout
    unfold Venue.processImmediate
    rw [hnone]
    exact ⟨A, hf, hb⟩
  · obtain ⟨hq, hp⟩ := not_or.mp hout
    obtain ⟨b, left, ts, A₁, heq, hb₁, hts, -, -⟩ := hb.match ref s hq (not_not.mp hp)
    have hstart : Filed own tape { v with engine := b } A := hf.congr rfl rfl
    obtain ⟨hf₁, hengine⟩ := hstart.trades hts true user
    have hall : Shelved own tape (ts.foldl (handleTrade true user) { v with engine := b }) :=
      ⟨A₁, hf₁, by rw [hengine]; exact hb₁⟩
    unfold Venue.processImmediate
    rw [heq]
    simp only
    split_ifs
    · exact hall.tells (Tells.sendOe _ _)
    · exact hall

/-! ### Orders through their entries -/

/-- The order of an entry. -/
theorem Filed.order_of_live (h : Filed own tape v A) (hb : v.engine.Queued A) (hl : v.live.lookup ref = some l) :
    ∃ o ∈ A l.side, o.id = ref ∧ l.handle = some o.key ∧ l.tick = o.price ∧ v.qtyAt l.handle = o.qty := by
  obtain ⟨o, ho, hid, hhandle, htick⟩ := h.live ref l hl
  refine ⟨o, ho, hid, hhandle, htick, ?_⟩
  rw [hhandle]
  exact hb.order_qty ho

theorem eraseLive_zero (v : Venue) : v.eraseLive 0 = v := by
  unfold eraseLive
  rw [FlatHashMap.erase_zero]

/-- Under the reserved key there is nothing to take out. -/
theorem Filed.dropClient_zero (h : Filed own tape v A) : Filed own tape (v.dropClient 0 {}) A := by
  have huser : v.eraseUserRef 0 = v := by
    unfold eraseUserRef
    rw [FlatHashMap.erase_zero]
  have hlive : (v.dropClient 0 {}).live = v.live := by
    unfold Venue.dropClient
    simp only [huser, eraseLive_zero]
  refine h.congr hlive ?_
  rw [clientRefs_dropClient, dropRef, if_neg fun hmem => (h.refs 0 hmem).1 rfl]

/-- An order that is found is cancelled, and its entry goes. -/
theorem Shelved.removeReal (h : Shelved own tape v) (hl : v.live.get? ref = some l) :
    Shelved own tape (v.removeReal ref l) := by
  obtain ⟨A, hf, hb⟩ := h
  unfold Venue.removeReal
  obtain ⟨-, hl⟩ | ⟨rfl, rfl⟩ := hf.find hl
  · obtain ⟨o, ho, rfl, hhandle, -, -⟩ := hf.order_of_live hb hl
    obtain ⟨b, heq, hb', -⟩ := hb.cancel ho
    have herase := (hf.congr rfl rfl : Filed own tape { v with engine := b } A).eraseLive ho
    have hengine := (eraseLive_same { v with engine := b } o.id).2.1
    rw [hhandle]
    simp only [engineCancel, heq]
    exact ⟨_, herase, by rw [hengine]; exact hb'⟩
  · change Shelved own tape (v.eraseLive 0)
    rw [eraseLive_zero]
    exact ⟨A, hf, hb⟩

/-- An order that is found is cancelled, and leaves the clients' tables after messages. -/
theorem Shelved.dropClient (h : Shelved own tape v) (hl : v.live.get? ref = some l) {msgs : List Sent}
    (hw : Tells (v.engineCancel l.handle).2 msgs w) : Shelved own tape (w.dropClient ref l) := by
  obtain ⟨A, hf, hb⟩ := h
  obtain ⟨-, hl⟩ | ⟨rfl, rfl⟩ := hf.find hl
  · obtain ⟨o, ho, rfl, hhandle, -, -⟩ := hf.order_of_live hb hl
    obtain ⟨b, heq, hb', -⟩ := hb.cancel ho
    rw [hhandle] at hw
    simp only [engineCancel, heq] at hw
    have hdrop := ((hf.congr rfl rfl : Filed own tape { v with engine := b } A).tells hw).dropClient ho l
    have hengine := (dropClient_same w o.id l).2.1
    exact ⟨_, hdrop, by rw [hengine, hw.engine]; exact hb'⟩
  · have hdrop := (hf.tells hw).dropClient_zero
    have hengine := (dropClient_same w 0 {}).2.1
    exact ⟨A, hdrop, by rw [hengine, hw.engine]; exact hb⟩

/-- An order that is found keeps some shares. -/
theorem Shelved.engineReduce (h : Shelved own tape v) (hl : v.live.get? ref = some l) (hq : 0 < q) :
    Shelved own tape (v.engineReduce l.handle q).2 := by
  obtain ⟨A, hf, hb⟩ := h
  obtain ⟨-, hl⟩ | ⟨rfl, rfl⟩ := hf.find hl
  · obtain ⟨o, ho, rfl, hhandle, -, -⟩ := hf.order_of_live hb hl
    rw [hhandle]
    unfold Venue.engineReduce
    by_cases hlt : q < o.qty
    · obtain ⟨b, heq, hb', -⟩ := hb.reduce ho hq hlt
      simp only [heq]
      exact ⟨_, (hf.congr rfl rfl : Filed own tape { v with engine := b } A).shrink ho hq, hb'⟩
    · simp only [hb.reduce_of_le ho (Nat.le_of_not_lt hlt)]
      exact ⟨A, hf, hb⟩
  · exact ⟨A, hf, hb⟩

/-! ### The tape trades with clients -/

theorem Shelved.fillClient (h : Shelved own tape v) (ref q : ℕ) : Shelved own tape (v.fillClient ref q) := by
  cases hl : v.live.get? ref with
  | none =>
      unfold Venue.fillClient
      rw [hl]
      exact h
  | some l =>
      by_cases hq : q = 0
      · unfold Venue.fillClient
        rw [hl]
        simp only
        rw [if_pos hq]
        exact h
      · have htells := tells_reportFill v ref q l
        rw [fillClient_eq hl hq]
        generalize v.reportFill ref q l = w at htells ⊢
        have hlw : w.live.get? ref = some l := by rw [htells.live]; exact hl
        split_ifs with hall
        · exact (h.tells htells).dropClient hlw (Tells.refl _)
        · exact (h.tells htells).engineReduce hlw (by omega)

theorem Shelved.crossLoop (h : Shelved own tape v) (s : Side) (tick : ℤ) (fuel q : ℕ) :
    Shelved own tape (Venue.crossLoop s tick fuel v q).2 := by
  induction fuel generalizing v q with
  | zero => exact h
  | succ fuel ih =>
      unfold Venue.crossLoop
      simp only
      split_ifs
      · exact h
      · exact h
      all_goals exact ih ((h.tells (Tells.count v _)).fillClient _ _) _

theorem Shelved.shadowLoop (h : Shelved own tape v) (s : Side) (tick : ℤ) (realRef fuel i q : ℕ) :
    Shelved own tape (Venue.shadowLoop s tick realRef fuel i v q) := by
  induction fuel generalizing v i q with
  | zero => exact h
  | succ fuel ih =>
      unfold Venue.shadowLoop
      simp only
      by_cases hgo : i < v.clientRefs.length ∧ q > 0
      · rw [if_pos hgo]
        cases v.live.get? (v.clientRefs.getD i 0) with
        | none => exact ih h (i + 1) q
        | some l =>
            simp only
            by_cases hskip : l.side ≠ s ∨ ¬ v.isAhead s tick realRef (v.clientRefs.getD i 0) l
            · rw [if_pos hskip]
              exact ih h (i + 1) q
            · rw [if_neg hskip]
              exact ih ((h.tells (Tells.count v _)).fillClient _ _) _ _
      · rw [if_neg hgo]
        exact h

/-! ### Copies of entries -/

/-- What `mirrorExecute` works with after the clients have traded: a copy of an entry that
is still there, or of an order that has left. -/
def Copies (v : Venue) (ref : ℕ) (l : LiveOrder) : Prop :=
  ref = 0 ∧ l = {} ∨ ref ≠ 0 ∧ (v.live.lookup ref = some l ∨
    v.live.lookup ref = none ∧ ∃ k, l.handle = some k ∧ (v.engine.order k).qty = 0)

theorem Copies.tells (h : Copies v ref l) {msgs : List Sent} (hw : Tells v msgs w) : Copies w ref l := by
  unfold Copies
  rw [hw.live, hw.engine]
  exact h

theorem Shelved.copies (h : Shelved own tape v) (hl : v.live.get? ref = some l) : Copies v ref l :=
  let ⟨_, hf, _⟩ := h
  (hf.find hl).elim (fun ⟨hne, hl⟩ => .inr ⟨hne, .inl hl⟩) .inl

/-- The entries after a client's order has left. -/
theorem lookup_dropClient (h : v.live.WF) (ref : ℕ) (l : LiveOrder) :
    (v.dropClient ref l).live.lookup = Function.update v.live.lookup ref none := by
  have hlive : (v.eraseUserRef l.userRef).live = v.live := by
    unfold eraseUserRef
    cases v.byUserRef.erase l.userRef <;> rfl
  obtain ⟨-, hlookup, -, -⟩ := Tables.live_eraseLive (v := v.eraseUserRef l.userRef) (by rw [hlive]; exact h) ref
  rw [hlive] at hlookup
  exact hlookup

theorem qty_engineCancel_of_zero {k : ℕ} (hk : (v.engine.order k).qty = 0) (h : Option ℕ) :
    ((v.engineCancel h).2.engine.order k).qty = 0 := by
  cases h with
  | none => exact hk
  | some h => exact OrderBook.qty_cancel_of_zero hk h

theorem qty_engineReduce_of_zero {k : ℕ} (hk : (v.engine.order k).qty = 0) (h : Option ℕ) (q : ℕ) :
    ((v.engineReduce h q).2.engine.order k).qty = 0 := by
  cases h with
  | none => exact hk
  | some h => exact OrderBook.qty_reduce_of_zero hk h q

/-- A client's order that trades leaves the copies good. -/
theorem Copies.fillClient (hc : Copies v ref l) (h : Shelved own tape v) (r q : ℕ) : Copies (v.fillClient r q) ref l := by
  obtain ⟨A, hf, hb⟩ := h
  cases hl : v.live.get? r with
  | none =>
      unfold Venue.fillClient
      rw [hl]
      exact hc
  | some l' =>
      by_cases hq : q = 0
      · unfold Venue.fillClient
        rw [hl]
        simp only
        rw [if_pos hq]
        exact hc
      have htells := tells_reportFill v r q l'
      rw [fillClient_eq hl hq]
      replace hc := hc.tells htells
      replace hf := hf.tells htells
      rw [← htells.live] at hl
      rw [← htells.engine] at hb
      generalize v.reportFill r q l' = w at hc hf hl hb ⊢
      obtain hzero | ⟨hne, hc⟩ := hc
      · exact .inl hzero
      refine .inr ⟨hne, ?_⟩
      split_ifs
      · rw [lookup_dropClient (by cases l'.handle <;> exact hf.liveWF), (dropClient_same ..).2.1]
        have hlive : (w.engineCancel l'.handle).2.live = w.live := by cases l'.handle <;> rfl
        rw [hlive]
        by_cases hr : ref = r
        · subst hr
          rw [Function.update_self]
          refine .inr ⟨rfl, ?_⟩
          obtain hc | ⟨-, k, hk, hzero⟩ := hc
          · obtain rfl : l = l' := by
              rw [FlatHashMap.lookup_eq_get? _ hne, hl] at hc
              exact (Option.some.inj hc).symm
            obtain ⟨o, ho, -, hhandle, -, -⟩ := hf.order_of_live hb hc
            rw [hhandle]
            exact ⟨o.key, rfl, hb.qty_cancel ho⟩
          · exact ⟨k, hk, qty_engineCancel_of_zero hzero _⟩
        · rw [Function.update_of_ne hr]
          exact hc.imp_right fun ⟨hnone, k, hk, hzero⟩ => ⟨hnone, k, hk, qty_engineCancel_of_zero hzero _⟩
      · have hlive : ∀ n, (w.engineReduce l'.handle n).2.live = w.live := fun n => by cases l'.handle <;> rfl
        rw [hlive]
        exact hc.imp_right fun ⟨hnone, k, hk, hzero⟩ => ⟨hnone, k, hk, qty_engineReduce_of_zero hzero ..⟩

theorem Copies.shadowLoop (hc : Copies v ref l) (h : Shelved own tape v) (s : Side) (tick : ℤ) (realRef fuel i q : ℕ) :
    Copies (Venue.shadowLoop s tick realRef fuel i v q) ref l := by
  induction fuel generalizing v i q with
  | zero => exact hc
  | succ fuel ih =>
      unfold Venue.shadowLoop
      simp only
      by_cases hgo : i < v.clientRefs.length ∧ q > 0
      · rw [if_pos hgo]
        cases v.live.get? (v.clientRefs.getD i 0) with
        | none => exact ih hc h (i + 1) q
        | some l =>
            simp only
            by_cases hskip : l.side ≠ s ∨ ¬ v.isAhead s tick realRef (v.clientRefs.getD i 0) l
            · rw [if_pos hskip]
              exact ih hc h (i + 1) q
            · rw [if_neg hskip]
              have hcount := fun f => Tells.count v f
              exact ih ((hc.tells (hcount _)).fillClient (h.tells (hcount _)) _ _) ((h.tells (hcount _)).fillClient _ _) _ _
      · rw [if_neg hgo]
        exact hc

/-- Shares leave a tape order, by a copy of its entry. -/
theorem Shelved.takeShares (h : Shelved own tape v) (hc : Copies v ref l) (shares : ℕ) :
    Shelved own tape (v.takeShares ref shares l) := by
  have hcount : Tells v [] (if shares > v.qtyAt l.handle then v.count fun m => { m with overReduce := inc64 m.overReduce } else v) := by
    split_ifs
    · exact Tells.count v _
    · exact Tells.refl v
  unfold Venue.takeShares
  simp only
  generalize (if shares > v.qtyAt l.handle then v.count fun m => { m with overReduce := inc64 m.overReduce } else v) = w
    at hcount ⊢
  replace hc := hc.tells hcount
  replace h := h.tells hcount
  obtain ⟨rfl, rfl⟩ | ⟨hne, hl | ⟨hnone, k, hk, hzero⟩⟩ := hc
  · -- the default entry has no order
    split_ifs
    · change Shelved own tape (w.eraseLive 0)
      rw [eraseLive_zero]
      exact h
    · exact h
  · rw [FlatHashMap.lookup_eq_get? _ hne] at hl
    split_ifs
    · exact h.removeReal hl
    · exact h.engineReduce hl (by omega)
  · have hgone : v.qtyAt l.handle = 0 := by
      rw [hk]
      change (v.engine.order k).qty = 0
      rw [← hcount.engine]
      exact hzero
    rw [if_pos (by omega)]
    have hcancel : (w.engineCancel l.handle).2 = w := by
      rw [hk]
      unfold Venue.engineCancel OrderBook.cancel
      simp only
      have hempty : (w.engine.pool k).qty = 0 := hzero
      split_ifs <;> rfl
    have herase : w.eraseLive ref = w := by
      obtain ⟨A, hf, -⟩ := h
      unfold eraseLive
      obtain ⟨he, -⟩ | ⟨l', m, -, hl', -⟩ := hf.liveWF.lookup_erase ref
      · rw [he]
      · rw [hnone] at hl'
        cases hl'
    unfold Venue.removeReal
    rw [hcancel, herase]
    exact h

end

end TickToTrade.Sim.Venue
