import TickToTrade.Sim.Desk
import TickToTrade.Sim.Venue

/-!
# The tables of a venue

What the three tables of a venue and its engine say about a desk (`Tables`), and how each
change of the tables follows the desk. Tape orders may have references in common, unless
`exact` says that they have not: then every resting order is in the table.
-/

namespace TickToTrade.Sim

open Util

namespace Venue

/-! ### The clients' list -/

theorem dropRef_perm {refs : List ℕ} {ref : ℕ} (h : ref ∈ refs) :
    ∃ pre post, refs = pre ++ ref :: post ∧ (dropRef refs ref).Perm (pre ++ post) := by
  obtain ⟨pre, post, rfl, hpre⟩ := List.eq_append_cons_of_mem h
  refine ⟨pre, post, rfl, ?_⟩
  have hidx : (pre ++ ref :: post).idxOf ref = pre.length := by
    rw [List.idxOf_append_of_notMem hpre, List.idxOf_cons_self, Nat.add_zero]
  unfold dropRef
  rw [if_pos h, hidx]
  obtain rfl | ⟨post', last, rfl⟩ := post.eq_nil_or_concat'
  · simp
  · have hset : (pre ++ ref :: (post' ++ [last])).set pre.length ((pre ++ ref :: (post' ++ [last])).getLastD 0) =
        (pre ++ last :: post') ++ [last] := by
      have hlast : (pre ++ ref :: (post' ++ [last])).getLastD 0 = last := by
        rw [← List.cons_append, ← List.append_assoc, List.getLastD_concat]
      rw [hlast, List.set_append_right _ _ (Nat.le_refl _), Nat.sub_self, List.set_cons_zero]
      simp
    rw [hset, List.dropLast_concat]
    exact (List.perm_append_left_iff pre).mpr (List.perm_append_comm : ([last] ++ post').Perm _)

theorem nodup_dropRef {refs : List ℕ} (h : refs.Nodup) (ref : ℕ) : (dropRef refs ref).Nodup := by
  by_cases hmem : ref ∈ refs
  · obtain ⟨pre, post, rfl, hperm⟩ := dropRef_perm hmem
    exact hperm.nodup_iff.mpr (List.nodup_cons.mp (List.nodup_middle.mp h)).2
  · rwa [dropRef, if_neg hmem]

theorem mem_dropRef {refs : List ℕ} (h : refs.Nodup) {ref x : ℕ} : x ∈ dropRef refs ref ↔ x ∈ refs ∧ x ≠ ref := by
  by_cases hmem : ref ∈ refs
  · obtain ⟨pre, post, rfl, hperm⟩ := dropRef_perm hmem
    have hout := (List.nodup_cons.mp (List.nodup_middle.mp h)).1
    rw [hperm.mem_iff, List.mem_append, List.mem_append, List.mem_cons]
    rw [List.mem_append] at hout
    constructor
    · intro hx
      exact ⟨hx.imp_right .inr, by rintro rfl; exact hout hx⟩
    · rintro ⟨hx | rfl | hx, hne⟩
      · exact .inl hx
      · exact absurd rfl hne
      · exact .inr hx
  · rw [dropRef, if_neg hmem]
    exact ⟨fun hx => ⟨hx, by rintro rfl; exact hmem hx⟩, fun hx => hx.1⟩

/-! ### The tables and the desk -/

/-- The tables of the venue say which orders rest and whose they are. -/
structure Tables (exact : Prop) (v : Venue) (d : Desk ℕ) : Prop where
  liveWF : v.live.WF
  usersWF : v.byUserRef.WF
  sound : d.Sound
  /-- An entry has the handle, the side and the tick of an order. -/
  live : ∀ ref l, v.live.lookup ref = some l →
    ∃ o ∈ d.orders l.side, o.id = ref ∧ l.handle = some o.key ∧ l.tick = o.price
  owner : ∀ ref u, d.owner ref = some u ↔ ∃ l, v.live.lookup ref = some l ∧ l.client ∧ l.userRef = u
  listed : exact → ∀ s, ∀ o ∈ d.orders s,
    ∃ l, v.live.lookup o.id = some l ∧ l.side = s ∧ l.handle = some o.key
  nonzero : ∀ s, ∀ o ∈ d.orders s, o.id ≠ 0
  nodup : v.clientRefs.Nodup
  clients : ∀ ref, ref ∈ v.clientRefs ↔ d.owner ref ≠ none
  users : ∀ u ref, v.byUserRef.lookup u = some ref ↔ d.owner ref = some u

namespace Tables

variable {exact : Prop} {v w : Venue} {d d' : Desk ℕ} {s : Side} {o : Resting ℕ} {l : LiveOrder} {ref u q : ℕ}

/-- The tables alone matter. -/
theorem congr (h : Tables exact v d) (hlive : w.live = v.live) (husers : w.byUserRef = v.byUserRef)
    (hrefs : w.clientRefs = v.clientRefs) (horders : d'.orders = d.orders) (howner : d'.owner = d.owner) :
    Tables exact w d' := by
  refine ⟨?_, ?_, h.sound.congr horders howner, ?_, ?_, ?_, ?_, ?_, ?_, ?_⟩
  all_goals simp only [hlive, husers, hrefs, horders, howner]
  · exact h.liveWF
  · exact h.usersWF
  · exact h.live
  · exact h.owner
  · exact h.listed
  · exact h.nonzero
  · exact h.nodup
  · exact h.clients
  · exact h.users

/-- The entry of a client's order is about the one order with the reference. -/
theorem client_order (h : Tables exact v d) (hl : v.live.lookup o.id = some l) (hclient : l.client)
    (ho : o ∈ d.orders s) : l.side = s ∧ l.handle = some o.key ∧ l.tick = o.price ∧ d.owner o.id = some l.userRef := by
  have howner : d.owner o.id = some l.userRef := (h.owner _ _).mpr ⟨l, hl, hclient, rfl⟩
  obtain ⟨x, hx, hid, hhandle, htick⟩ := h.live _ l hl
  have hkey := h.sound.alone l.side x s o hx ho hid (by rw [hid, howner]; simp)
  obtain ⟨hs, rfl⟩ := h.sound.distinct hx ho hkey
  exact ⟨hs, hhandle, htick, howner⟩

theorem owner_of_not_client (h : Tables exact v d) (hl : ∀ l, v.live.lookup ref = some l → ¬ l.client) :
    d.owner ref = none := by
  cases hu : d.owner ref with
  | none => rfl
  | some u =>
      obtain ⟨l, hl', hclient, -⟩ := (h.owner ref u).mp hu
      exact absurd hclient (hl l hl')

theorem lookup_eq_get? (h : Tables exact v d) (ho : o ∈ d.orders s) : v.live.lookup o.id = v.live.get? o.id :=
  FlatHashMap.lookup_eq_get? _ (h.nonzero s o ho)

/-- An order with a reference in the table is there under its own handle, if the table is
exact. -/
theorem eq_of_id (h : Tables exact v d) (hexact : exact) {s' : Side} {o' : Resting ℕ} (ho : o ∈ d.orders s)
    (ho' : o' ∈ d.orders s') (hid : o.id = o'.id) : s = s' ∧ o = o' := by
  obtain ⟨l, hl, rfl, hk⟩ := h.listed hexact s o ho
  obtain ⟨l', hl', rfl, hk'⟩ := h.listed hexact s' o' ho'
  rw [hid, hl'] at hl
  cases hl
  exact h.sound.distinct ho ho' (Option.some.inj (hk.symm.trans hk'))

/-! ### Orders lose shares and leave -/

theorem shrink (h : Tables exact v d) (ho : o ∈ d.orders s) (hq : 0 < q) : Tables exact v (d.shrink s o q) where
  liveWF := h.liveWF
  usersWF := h.usersWF
  sound := h.sound.shrink ho hq
  live ref l hl := by
    obtain ⟨x, hx, hid, hhandle, htick⟩ := h.live ref l hl
    by_cases hk : x.key = o.key
    · obtain ⟨hs, rfl⟩ := h.sound.distinct hx ho hk
      exact ⟨_, (Sides.mem_resized h.sound.distinct ho).mpr (.inr ⟨hs, rfl⟩), hid, hhandle, htick⟩
    · exact ⟨x, (Sides.mem_resized h.sound.distinct ho).mpr (.inl ⟨hx, hk⟩), hid, hhandle, htick⟩
  owner := h.owner
  listed he s' x hx := by
    obtain ⟨hx, -⟩ | ⟨rfl, rfl⟩ := (Sides.mem_resized h.sound.distinct ho).mp hx
    · exact h.listed he s' x hx
    · exact h.listed he s' o ho
  nonzero s' x hx := by
    obtain ⟨hx, -⟩ | ⟨rfl, rfl⟩ := (Sides.mem_resized h.sound.distinct ho).mp hx
    · exact h.nonzero s' x hx
    · exact h.nonzero s' o ho
  nodup := h.nodup
  clients := h.clients
  users := h.users

/-- The entries of an erased reference. -/
theorem live_eraseLive (h : v.live.WF) (ref : ℕ) :
    (v.eraseLive ref).live.WF ∧ (v.eraseLive ref).live.lookup = Function.update v.live.lookup ref none ∧
      (v.eraseLive ref).byUserRef = v.byUserRef ∧ (v.eraseLive ref).clientRefs = v.clientRefs := by
  unfold eraseLive
  obtain ⟨herase, hnone⟩ | ⟨l, m, herase, hl, hwf, hlookup⟩ := h.lookup_erase ref
  · rw [herase]
    exact ⟨h, by rw [← hnone, Function.update_eq_self], rfl, rfl⟩
  · rw [herase]
    exact ⟨hwf, hlookup, rfl, rfl⟩

theorem users_eraseUserRef (h : v.byUserRef.WF) (u : ℕ) :
    (v.eraseUserRef u).byUserRef.WF ∧
      (v.eraseUserRef u).byUserRef.lookup = Function.update v.byUserRef.lookup u none ∧
      (v.eraseUserRef u).live = v.live ∧ (v.eraseUserRef u).clientRefs = v.clientRefs := by
  unfold eraseUserRef
  obtain ⟨herase, hnone⟩ | ⟨l, m, herase, hl, hwf, hlookup⟩ := h.lookup_erase u
  · rw [herase]
    exact ⟨h, by rw [← hnone, Function.update_eq_self], rfl, rfl⟩
  · rw [herase]
    exact ⟨hwf, hlookup, rfl, rfl⟩

/-- What stays in the table when an order leaves with its entry. -/
theorem live_leave (h : Tables exact v d) (ho : o ∈ d.orders s) :
    ∀ ref l, Function.update v.live.lookup o.id none ref = some l →
      ∃ x ∈ (d.leave s o).orders l.side, x.id = ref ∧ l.handle = some x.key ∧ l.tick = x.price := by
  intro ref l hl
  by_cases hr : ref = o.id
  · rw [hr, Function.update_self] at hl; cases hl
  · rw [Function.update_of_ne hr] at hl
    obtain ⟨x, hx, hid, hhandle, htick⟩ := h.live ref l hl
    refine ⟨x, (Sides.mem_without h.sound.distinct ho).mpr ⟨hx, fun hk => hr ?_⟩, hid, hhandle, htick⟩
    rw [← hid, (h.sound.distinct hx ho hk).2]

theorem owner_leave (h : Tables exact v d) (s : Side) (o : Resting ℕ) :
    ∀ ref u, (d.leave s o).owner ref = some u ↔
      ∃ l, Function.update v.live.lookup o.id none ref = some l ∧ l.client ∧ l.userRef = u := by
  intro ref u
  unfold Desk.leave
  by_cases hr : ref = o.id
  · rw [hr]; simp
  · simp only [Function.update_of_ne hr]
    exact h.owner ref u

theorem listed_leave (h : Tables exact v d) (ho : o ∈ d.orders s) : exact → ∀ s', ∀ x ∈ (d.leave s o).orders s',
    ∃ l, Function.update v.live.lookup o.id none x.id = some l ∧ l.side = s' ∧ l.handle = some x.key := by
  intro he s' x hx
  obtain ⟨hx, hk⟩ := (Sides.mem_without h.sound.distinct ho).mp hx
  have hne : x.id ≠ o.id := fun hid => hk (by rw [(h.eq_of_id he hx ho hid).2])
  rw [Function.update_of_ne hne]
  exact h.listed he s' x hx

/-- An order that is no client's leaves. -/
theorem eraseLive (h : Tables exact v d) (ho : o ∈ d.orders s) (hnone : d.owner o.id = none) :
    Tables exact (v.eraseLive o.id) (d.leave s o) := by
  obtain ⟨hwf, hlookup, husers, hrefs⟩ := live_eraseLive h.liveWF o.id
  have hown : (d.leave s o).owner = d.owner := by
    unfold Desk.leave
    rw [← hnone, Function.update_eq_self]
  refine ⟨hwf, by rw [husers]; exact h.usersWF, h.sound.leave ho, ?_, ?_, ?_,
    fun s' x hx => h.nonzero s' x ((Sides.mem_without h.sound.distinct ho).mp hx).1, by rw [hrefs]; exact h.nodup, ?_, ?_⟩
  · rw [hlookup]; exact h.live_leave ho
  · rw [hlookup]; exact h.owner_leave s o
  · rw [hlookup]; exact h.listed_leave ho
  · rw [hrefs, hown]; exact h.clients
  · rw [husers, hown]; exact h.users

/-- A client's order leaves. -/
theorem dropClient (h : Tables exact v d) (ho : o ∈ d.orders s) (hl : v.live.lookup o.id = some l) (hclient : l.client) :
    Tables exact (v.dropClient o.id l) (d.leave s o) := by
  have howner : d.owner o.id = some l.userRef := (h.owner _ _).mpr ⟨l, hl, hclient, rfl⟩
  obtain ⟨husersWF, husers, hlive, hrefs⟩ := users_eraseUserRef h.usersWF l.userRef
  obtain ⟨hwf, hlookup, husers', hrefs'⟩ := live_eraseLive (v := v.eraseUserRef l.userRef) (by rw [hlive]; exact h.liveWF) o.id
  rw [hlive] at hlookup
  have hlive' : (v.dropClient o.id l).live = ((v.eraseUserRef l.userRef).eraseLive o.id).live := rfl
  have hby' : (v.dropClient o.id l).byUserRef = (v.eraseUserRef l.userRef).byUserRef := husers'
  have hrefs'' : (v.dropClient o.id l).clientRefs = dropRef v.clientRefs o.id := by
    rw [← hrefs, ← hrefs']; rfl
  have hother : ∀ ref u, Function.update d.owner o.id none ref = some u ↔ d.owner ref = some u ∧ ref ≠ o.id := by
    intro ref u
    by_cases hr : ref = o.id
    · rw [hr]; simp
    · simp [hr]
  refine ⟨by rw [hlive']; exact hwf, ?_, h.sound.leave ho, ?_, ?_, ?_,
    fun s' x hx => h.nonzero s' x ((Sides.mem_without h.sound.distinct ho).mp hx).1, ?_, fun ref => ?_, fun u ref => ?_⟩
  · rw [hby']; exact husersWF
  · rw [hlive', hlookup]; exact h.live_leave ho
  · rw [hlive', hlookup]; exact h.owner_leave s o
  · rw [hlive', hlookup]; exact h.listed_leave ho
  · rw [hrefs'']
    exact nodup_dropRef h.nodup _
  · rw [hrefs'', mem_dropRef h.nodup, h.clients]
    unfold Desk.leave
    by_cases hr : ref = o.id
    · rw [hr]; simp
    · simp [hr]
  · rw [hby', husers]
    refine Iff.trans ?_ (hother ref u).symm
    by_cases hu : u = l.userRef
    · rw [hu, Function.update_self]
      refine iff_of_false (by simp) fun ⟨hr, hne⟩ => hne (h.sound.single _ _ _ hr howner)
    · rw [Function.update_of_ne hu, h.users]
      refine ⟨fun hr => ⟨hr, ?_⟩, fun hr => hr.1⟩
      rintro rfl
      rw [howner] at hr
      exact hu (Option.some.inj hr).symm

/-! ### Orders come to rest -/

/-- What the table says of an order that comes to rest. -/
theorem live_rest (h : Tables exact v d) (s : Side) (o : Resting ℕ) (owner : Option ℕ) (hl : l.side = s)
    (hhandle : l.handle = some o.key) (htick : l.tick = o.price) :
    ∀ ref l', Function.update v.live.lookup o.id (some l) ref = some l' →
      ∃ x ∈ (d.rest s o owner).orders l'.side, x.id = ref ∧ l'.handle = some x.key ∧ l'.tick = x.price := by
  intro ref l' hl'
  rw [Desk.orders_rest]
  by_cases hr : ref = o.id
  · rw [hr, Function.update_self] at hl'
    cases hl'
    exact ⟨o, Sides.mem_rested_iff.mpr (.inr ⟨hl, rfl⟩), hr.symm, hhandle, htick⟩
  · rw [Function.update_of_ne hr] at hl'
    obtain ⟨x, hx, hrest⟩ := h.live ref l' hl'
    exact ⟨x, Sides.mem_rested_iff.mpr (.inl hx), hrest⟩

theorem listed_rest (h : Tables exact v d) (owner : Option ℕ) (hl : l.side = s) (hhandle : l.handle = some o.key)
    (hfresh : exact → ∀ s', ∀ x ∈ d.orders s', x.id ≠ o.id) :
    exact → ∀ s', ∀ x ∈ (d.rest s o owner).orders s',
      ∃ l', Function.update v.live.lookup o.id (some l) x.id = some l' ∧ l'.side = s' ∧ l'.handle = some x.key := by
  intro he s' x hx
  rw [Desk.orders_rest, Sides.mem_rested_iff] at hx
  obtain hx | ⟨rfl, rfl⟩ := hx
  · rw [Function.update_of_ne (hfresh he s' x hx)]
    exact h.listed he s' x hx
  · exact ⟨l, Function.update_self .., hl, hhandle⟩

theorem nonzero_rest (h : Tables exact v d) (s : Side) (owner : Option ℕ) (hid : o.id ≠ 0) :
    ∀ s', ∀ x ∈ (d.rest s o owner).orders s', x.id ≠ 0 := by
  intro s' x hx
  rw [Desk.orders_rest, Sides.mem_rested_iff] at hx
  obtain hx | ⟨-, rfl⟩ := hx
  · exact h.nonzero s' x hx
  · exact hid

/-- An order that is no client's comes to rest. -/
theorem setLive (h : Tables exact v d) (hid : o.id ≠ 0) (hq : 0 < o.qty) (hkey : ∀ s', ∀ x ∈ d.orders s', x.key ≠ o.key)
    (hnone : d.owner o.id = none) (hfresh : exact → ∀ s', ∀ x ∈ d.orders s', x.id ≠ o.id) :
    Tables exact (v.setLive o.id ⟨some o.key, s, o.price, false, 0⟩) (d.rest s o none) := by
  have hlookup := h.liveWF.lookup_insertOrAssign hid ⟨some o.key, s, o.price, false, 0⟩
  have hown : (d.rest s o none).owner = d.owner := by
    rw [Desk.owner_rest, ← hnone, Function.update_eq_self]
  refine ⟨h.liveWF.wf_insertOrAssign .., h.usersWF, h.sound.rest hq hkey hnone (by simp), ?_, fun ref u => ?_, ?_,
    h.nonzero_rest s none hid, h.nodup, by rw [hown]; exact h.clients, by rw [hown]; exact h.users⟩
  · unfold Venue.setLive
    rw [hlookup]
    exact h.live_rest s o none rfl rfl rfl
  · unfold Venue.setLive
    rw [hlookup, hown]
    by_cases hr : ref = o.id
    · rw [hr, hnone, Function.update_self]
      simp
    · rw [Function.update_of_ne hr]
      exact h.owner ref u
  · unfold Venue.setLive
    rw [hlookup]
    exact h.listed_rest none rfl rfl hfresh

/-- A client's order comes to rest. -/
theorem trackClient (h : Tables exact v d) (hid : o.id ≠ 0) (hu : u ≠ 0) (hq : 0 < o.qty)
    (hkey : ∀ s', ∀ x ∈ d.orders s', x.key ≠ o.key) (hfresh : ∀ s', ∀ x ∈ d.orders s', x.id ≠ o.id)
    (huser : ∀ ref, d.owner ref ≠ some u) :
    Tables exact (v.trackClient o.id (some o.key) s o.price u) (d.rest s o (some u)) := by
  have hnone : d.owner o.id = none := by
    cases hw : d.owner o.id with
    | none => rfl
    | some w =>
        obtain ⟨s', x, hx, hxo⟩ := h.sound.owned _ _ hw
        exact absurd hxo (hfresh s' x hx)
  have hlookup := h.liveWF.lookup_insertOrAssign hid ⟨some o.key, s, o.price, true, u⟩
  have husers := h.usersWF.lookup_insertOrAssign hu o.id
  have hlive : (v.trackClient o.id (some o.key) s o.price u).live =
      v.live.insertOrAssign o.id ⟨some o.key, s, o.price, true, u⟩ := rfl
  have hby : (v.trackClient o.id (some o.key) s o.price u).byUserRef = v.byUserRef.insertOrAssign u o.id := rfl
  have hrefs : (v.trackClient o.id (some o.key) s o.price u).clientRefs = v.clientRefs ++ [o.id] := rfl
  have hout : o.id ∉ v.clientRefs := fun hmem => (h.clients _).mp hmem hnone
  refine ⟨by rw [hlive]; exact h.liveWF.wf_insertOrAssign .., by rw [hby]; exact h.usersWF.wf_insertOrAssign ..,
    h.sound.rest hq hkey hnone fun w hw => ?_, ?_, fun ref w => ?_, ?_, h.nonzero_rest s _ hid, ?_, fun ref => ?_,
    fun w ref => ?_⟩
  · cases hw; exact ⟨huser, hfresh⟩
  · rw [hlive, hlookup]
    exact h.live_rest s o _ rfl rfl rfl
  · rw [hlive, hlookup, Desk.owner_rest]
    by_cases hr : ref = o.id
    · rw [hr, Function.update_self, Function.update_self]
      simp
    · rw [Function.update_of_ne hr, Function.update_of_ne hr]
      exact h.owner ref w
  · rw [hlive, hlookup]
    exact h.listed_rest _ rfl rfl fun _ => hfresh
  · rw [hrefs]
    exact List.nodup_append.mpr ⟨h.nodup, List.nodup_singleton _, fun x hx y hy => by
      rw [List.mem_singleton.mp hy]; rintro rfl; exact hout hx⟩
  · rw [hrefs, List.mem_append, List.mem_singleton, h.clients, Desk.owner_rest]
    by_cases hr : ref = o.id
    · rw [hr, Function.update_self]; simp
    · rw [Function.update_of_ne hr]; simp [hr]
  · rw [hby, husers, Desk.owner_rest]
    by_cases hw : w = u
    · rw [hw, Function.update_self]
      by_cases hr : ref = o.id
      · rw [hr, Function.update_self]; simp
      · rw [Function.update_of_ne hr]
        exact iff_of_false (fun he => hr (Option.some.inj he).symm) (huser ref)
    · rw [Function.update_of_ne hw, h.users]
      by_cases hr : ref = o.id
      · rw [hr, Function.update_self, hnone]
        exact iff_of_false (by simp) fun he => hw (Option.some.inj he).symm
      · rw [Function.update_of_ne hr]

/-- The tables after the end of a day. -/
theorem clear (h : Tables exact v d) (hnone : ∀ ref, d.owner ref = none) :
    Tables exact { v with engine := v.engine.clear, live := v.live.clear, byUserRef := v.byUserRef.clear }
      { d with orders := fun _ => [] } where
  liveWF := FlatHashMap.wf_clear _
  usersWF := FlatHashMap.wf_clear _
  sound := h.sound.does (x := .clear) ⟨hnone, rfl⟩
  live := by simp
  owner := by simp [hnone]
  listed := by simp
  nonzero := by simp
  nodup := h.nodup
  clients := h.clients
  users := by simp [hnone]

end Tables

end Venue

end TickToTrade.Sim
