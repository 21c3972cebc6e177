import Mathlib.Data.List.Perm.Subperm
import TickToTrade.Sim.ExchangeSession
import TickToTrade.Sim.VenueRejects

/-!
# Requests reach their venue

The session remembers for every new user reference the venue that its request went to, in
a ring that later references overwrite, and searches the venues for a reference that the
ring has lost. The venues' tables of user references have only references of requests that
went to them (`Gains`). So when no reference is used twice, what the ring remembers and
what the search finds is the same venue, the one that has the order (`Routed`).

The ring keeps a venue in 16 bits: with more venues the last ones' orders are looked for at
the first ones (`ring_cuts_venue`).
-/

namespace TickToTrade.Sim

open Util

namespace Venue

/-! ### What comes into the table of user references -/

/-- In the table of user references only `users` are new. -/
structure Gains (users : Set ℕ) (v w : Venue) : Prop where
  wf : v.byUserRef.WF → w.byUserRef.WF
  lookup : v.byUserRef.WF → ∀ user, w.byUserRef.lookup user ≠ none → v.byUserRef.lookup user ≠ none ∨ user ∈ users

theorem eraseLive_byUserRef (v : Venue) (ref : ℕ) : (v.eraseLive ref).byUserRef = v.byUserRef := by
  unfold eraseLive
  cases v.live.erase ref <;> rfl

namespace Gains

variable {users : Set ℕ} {v w x : Venue}

theorem of_eq (h : w.byUserRef = v.byUserRef) : Gains users v w := ⟨fun hv => h ▸ hv, fun _ _ hu => .inl (h ▸ hu)⟩

theorem trans (h : Gains users v w) (h' : Gains users w x) : Gains users v x where
  wf hv := h'.wf (h.wf hv)
  lookup hv user hu := (h'.lookup (h.wf hv) user hu).elim (h.lookup hv user) .inr

theorem eraseUserRef (v : Venue) (user : ℕ) : Gains users v (v.eraseUserRef user) where
  wf hv := (Tables.users_eraseUserRef hv user).1
  lookup hv u hu := by
    rw [(Tables.users_eraseUserRef hv user).2.1] at hu
    by_cases he : u = user
    · rw [he, Function.update_self] at hu
      exact absurd rfl hu
    · rw [Function.update_of_ne he] at hu
      exact .inl hu

theorem setUserRef (v : Venue) {user : ℕ} (hmem : user ∈ users) (ref : ℕ) :
    Gains users v { v with byUserRef := v.byUserRef.insertOrAssign user ref } where
  wf hv := hv.wf_insertOrAssign user ref
  lookup hv u hu := by
    change (v.byUserRef.insertOrAssign user ref).lookup u ≠ none at hu
    by_cases hzero : user = 0
    · rw [hzero, hv.lookup_insertOrAssign_zero] at hu
      exact .inl hu
    · rw [hv.lookup_insertOrAssign hzero] at hu
      by_cases he : u = user
      · exact .inr (he ▸ hmem)
      · rw [Function.update_of_ne he] at hu
        exact .inl hu

theorem everywhere (users : Set ℕ) : Everywhere users (Gains users) where
  refl _ := of_eq rfl
  trans := trans
  sends _ _ := of_eq rfl
  counts _ _ := of_eq rfl
  takeMatch _ := of_eq rfl
  engine _ _ := of_eq rfl
  eraseLive v ref := of_eq (eraseLive_byUserRef v ref)
  eraseUserRef := eraseUserRef
  clientRefs _ _ := of_eq rfl
  setLive _ _ _ := of_eq rfl
  setUserRef v _ hu ref := setUserRef v hu ref
  takeRef _ := of_eq rfl
  clear _ :=
    { wf := fun _ => FlatHashMap.wf_clear _
      lookup := fun _ user hu => absurd (congrFun (FlatHashMap.lookup_clear _) user) hu }

end Gains

/-- A request brings in its own new user reference only. -/
theorem gains_onRequest (v : Venue) (m : Ouch.In) : Gains {u | u ∈ (Op.request m).newUsers} v (v.onRequest m) := by
  cases m with
  | enterOrder m => exact (Gains.everywhere _).onEnterOrder v m (List.mem_singleton_self _)
  | replaceOrder m => exact (Gains.everywhere _).onReplaceOrder v m (List.mem_singleton_self _)
  | cancelOrder m => exact (Gains.everywhere _).onCancelOrder v m

/-- After requests the table of user references has only references of theirs. -/
theorem gains_requests (v : Venue) (ms : List Ouch.In) :
    Gains {u | u ∈ ms.flatMap fun m => (Op.request m).newUsers} v (v.run (ms.map .request)) := by
  induction ms generalizing v with
  | nil => exact .of_eq rfl
  | cons m ms ih =>
      have hmono : ∀ {a b : Set ℕ} {x y : Venue}, a ⊆ b → Gains a x y → Gains b x y := fun hab h =>
        ⟨h.wf, fun hx u hu => (h.lookup hx u hu).imp_right (@hab u)⟩
      refine Gains.trans (hmono ?_ (gains_onRequest v m)) (hmono ?_ (ih (v.onRequest m)))
      · exact fun u hu => List.mem_flatMap.mpr ⟨m, List.mem_cons_self, hu⟩
      · intro u hu
        obtain ⟨m', hm', hu'⟩ := List.mem_flatMap.mp hu
        exact List.mem_flatMap.mpr ⟨m', List.mem_cons_of_mem _ hm', hu'⟩

theorem hasUserRef_iff (v : Venue) {user : ℕ} (hne : user ≠ 0) :
    v.hasUserRef user = true ↔ v.byUserRef.lookup user ≠ none := by
  rw [FlatHashMap.lookup_eq_get? _ hne, hasUserRef, Option.isSome_iff_ne_none]

/-- A new venue that has handled requests has only user references of theirs. -/
theorem mem_of_hasUserRef {symbol : List UInt8} {stockLocate : ℕ} {minTick maxTick : ℤ}
    {wirePerTick firstOrderRef liveReserve stray user : ℕ} {ms : List Ouch.In} (hne : user ≠ 0)
    (h : ((new symbol stockLocate minTick maxTick wirePerTick firstOrderRef liveReserve stray).run
      (ms.map .request)).hasUserRef user = true) : ∃ m ∈ ms, user ∈ (Op.request m).newUsers := by
  have hgains := gains_requests (new symbol stockLocate minTick maxTick wirePerTick firstOrderRef liveReserve stray) ms
  obtain hold | hnew := hgains.lookup (FlatHashMap.wf_empty _) user ((hasUserRef_iff _ hne).mp h)
  · exact absurd (congrFun (FlatHashMap.lookup_empty _) user) hold
  · exact List.mem_flatMap.mp hnew

theorem length_handedOut_le (v : Venue) (ops : List Op) : (v.handedOut ops).length ≤ ops.length := by
  induction ops generalizing v with
  | nil => exact Nat.le_refl 0
  | cons op ops ih =>
      rw [handedOut, List.length_append, List.length_cons]
      have := ih (v.step op)
      split_ifs
      · rw [List.length_nil]
        omega
      · rw [List.length_singleton]
        omega

/-- Requests with new references are an orderly run. -/
theorem orderly_requests (v : Venue) {ms : List Ouch.In} (husers : ∀ m ∈ ms, ∀ u ∈ (Op.request m).users, u ≠ 0)
    (hfresh : (ms.flatMap fun m => (Op.request m).newUsers).Nodup) : Orderly v (ms.map .request) where
  users op hop := by
    obtain ⟨m, hm, rfl⟩ := List.mem_map.mp hop
    exact husers m hm
  fresh := by
    rw [List.flatMap_map]
    exact hfresh
  tape op hop ref href := by
    obtain ⟨m, -, rfl⟩ := List.mem_map.mp hop
    cases href
  synthetics pre ref post heq := by
    have hmem : Op.cancelSynthetic ref ∈ ms.map .request := by
      rw [heq]
      exact List.mem_append_right _ List.mem_cons_self
    obtain ⟨m, -, hm⟩ := List.mem_map.mp hmem
    cases hm

/-- A venue finds the clients' orders that rest under their references, as long as the
order references have not run out. -/
theorem hasUserRef_of_names {symbol : List UInt8} {stockLocate : ℕ} {minTick maxTick : ℤ}
    {wirePerTick firstOrderRef liveReserve stray user : ℕ} {ms : List Ouch.In} (hfirst : firstOrderRef < 2 ^ 64)
    (husers : ∀ m ∈ ms, ∀ u ∈ (Op.request m).users, u ≠ 0) (hfresh : (ms.flatMap fun m => (Op.request m).newUsers).Nodup)
    (hwrap : max 1 firstOrderRef + ms.length ≤ 2 ^ 64) (hne : user ≠ 0)
    (h : ((new symbol stockLocate minTick maxTick wirePerTick firstOrderRef liveReserve stray).run
      (ms.map .request)).Names user) :
    ((new symbol stockLocate minTick maxTick wirePerTick firstOrderRef liveReserve stray).run
      (ms.map .request)).hasUserRef user = true := by
  obtain ⟨hkept, hpos⟩ :=
    @kept_new False symbol stockLocate minTick maxTick wirePerTick firstOrderRef liveReserve stray hfirst
  have hnowrap : NoWrap (new symbol stockLocate minTick maxTick wirePerTick firstOrderRef liveReserve stray)
      (ms.map .request) := by
    have hlength := length_handedOut_le (new symbol stockLocate minTick maxTick wirePerTick firstOrderRef liveReserve stray)
      (ms.map .request)
    have hnext : (new symbol stockLocate minTick maxTick wirePerTick firstOrderRef liveReserve stray).nextOrderRef ≤
        max 1 firstOrderRef := by
      unfold new
      simp only
      split_ifs <;> omega
    rw [List.length_map] at hlength
    unfold NoWrap
    omega
  obtain ⟨-, d, -, hk, -⟩ := kept_run hkept hpos (orderly_requests _ husers hfresh) hnowrap nofun
  obtain ⟨ref, l, hmem, hclient, huser⟩ := h
  have howner := (hk.owner ref user).mpr ⟨l, hk.liveWF.lookup_eq_some_iff.mpr hmem, hclient, huser⟩
  rw [hasUserRef_iff _ hne, (hk.users user ref).mpr howner]
  exact Option.some_ne_none ref

end Venue

namespace ExchangeSession

variable {start : List Venue} {hist : List (Ouch.In × ℕ)} {s : ExchangeSession} {m : Ouch.In} {i user : ℕ}

/-! ### One request -/

/-- The user reference that a request is new with. -/
def newRefs (m : Ouch.In) : List ℕ := (Venue.Op.request m).newUsers

/-- The venue that a request goes to. -/
def route (s : ExchangeSession) : Ouch.In → ℕ
  | .enterOrder o => s.venueForSymbol o.symbol
  | .cancelOrder x => (s.venueForUserRef x.userRefNum).1
  | .replaceOrder u => (s.venueForUserRef u.origUserRefNum).1

/-- The venues of a list after one of them has handled a request. -/
def handleAt (venues : List Venue) (i : ℕ) (m : Ouch.In) : List Venue :=
  match venues[i]? with
  | none => venues
  | some v => venues.set i (v.onRequest m)

theorem atVenue_venues (s : ExchangeSession) (i : ℕ) (m : Ouch.In) :
    (s.atVenue i (·.onRequest m)).venues = handleAt s.venues i m := by
  unfold atVenue handleAt
  cases s.venues[i]? <;> rfl

theorem atVenue_refVenue (s : ExchangeSession) (i : ℕ) (f : Venue → Venue) :
    (s.atVenue i f).refVenue = s.refVenue := by
  unfold atVenue
  cases s.venues[i]? <;> rfl

/-- A user reference is looked up in the ring and then searched for. -/
theorem venueForUserRef_eq (s : ExchangeSession) (userRef : ℕ) :
    (s.venueForUserRef userRef).1 =
      if (s.refVenue (userRef % kRefRing)).userRef = userRef then (s.refVenue (userRef % kRefRing)).venue
      else (s.venues.findIdx? (·.hasUserRef userRef)).getD 0 := by
  unfold venueForUserRef
  split_ifs with hring
  · simp [hring]
  · simp only [hring, if_false, count]
    cases s.venues.findIdx? fun v => v.hasUserRef userRef <;> rfl

/-- The search for a user reference only counts. -/
theorem venueForUserRef_count (s : ExchangeSession) (f : SessionStats → SessionStats) (userRef : ℕ) :
    ((s.count f).venueForUserRef userRef).1 = (s.venueForUserRef userRef).1 ∧
      ((s.count f).venueForUserRef userRef).2.venues = s.venues ∧
      ((s.count f).venueForUserRef userRef).2.refVenue = s.refVenue := by
  unfold venueForUserRef
  by_cases hring : (s.refVenue (userRef % kRefRing)).userRef = userRef
  · simp [count, hring]
  · simp only [count, hring, if_false]
    cases s.venues.findIdx? fun v => v.hasUserRef userRef <;> simp

theorem dispatchOuch_cancelOrder (s : ExchangeSession) (x : Ouch.CancelOrder) :
    ∃ t : ExchangeSession, t.venues = s.venues ∧ t.refVenue = s.refVenue ∧
      s.dispatchOuch (.cancelOrder x) = t.atVenue (s.route (.cancelOrder x)) (·.onRequest (.cancelOrder x)) := by
  obtain ⟨hroute, hvenues, hring⟩ := venueForUserRef_count s (fun x => { x with cancels := inc64 x.cancels }) x.userRefNum
  refine ⟨_, hvenues, hring, ?_⟩
  have h : s.route (.cancelOrder x) = _ := hroute.symm
  rw [h]
  rfl

theorem dispatchOuch_replaceOrder (s : ExchangeSession) (u : Ouch.ReplaceOrder) :
    ∃ t : ExchangeSession, t.venues = s.venues ∧ t.refVenue = s.refVenue ∧
      s.dispatchOuch (.replaceOrder u) = (t.rememberUserRef u.userRefNum (s.route (.replaceOrder u))).atVenue
        (s.route (.replaceOrder u)) (·.onRequest (.replaceOrder u)) := by
  obtain ⟨hroute, hvenues, hring⟩ :=
    venueForUserRef_count s (fun x => { x with replaces := inc64 x.replaces }) u.origUserRefNum
  refine ⟨_, hvenues, hring, ?_⟩
  have h : s.route (.replaceOrder u) = _ := hroute.symm
  rw [h]
  rfl

/-- **What a request does**: one venue handles it. -/
theorem dispatchOuch_venues (s : ExchangeSession) (m : Ouch.In) :
    (s.dispatchOuch m).venues = handleAt s.venues (s.route m) m := by
  cases m with
  | enterOrder o => exact atVenue_venues _ _ (.enterOrder o)
  | cancelOrder x =>
      obtain ⟨t, hvenues, -, h⟩ := dispatchOuch_cancelOrder s x
      rw [h, atVenue_venues, hvenues]
  | replaceOrder u =>
      obtain ⟨t, hvenues, -, h⟩ := dispatchOuch_replaceOrder s u
      rw [h, atVenue_venues, ← hvenues]
      rfl

/-- The ring is left, or remembers the venue of the request for its new reference. -/
theorem dispatchOuch_refVenue (s : ExchangeSession) (m : Ouch.In) (j : ℕ) :
    (s.dispatchOuch m).refVenue j = s.refVenue j ∨
      ∃ u ∈ newRefs m, (s.dispatchOuch m).refVenue j = ⟨u, s.route m % 2 ^ 16⟩ := by
  have hupdate : ∀ u i : ℕ, (s.rememberUserRef u i).refVenue j = s.refVenue j ∨
      (s.rememberUserRef u i).refVenue j = ⟨u, i % 2 ^ 16⟩ := by
    intro u i
    change Function.update _ _ _ j = _ ∨ Function.update _ _ _ j = _
    by_cases hj : j = u % kRefRing
    · rw [hj, Function.update_self]
      exact .inr rfl
    · rw [Function.update_of_ne hj]
      exact .inl rfl
  cases m with
  | enterOrder o =>
      have h : (s.dispatchOuch (.enterOrder o)).refVenue =
          (s.rememberUserRef o.userRefNum (s.route (.enterOrder o))).refVenue := atVenue_refVenue ..
      rw [h]
      exact (hupdate o.userRefNum _).imp_right fun h => ⟨_, List.mem_singleton_self _, h⟩
  | cancelOrder x =>
      obtain ⟨t, -, hring, h⟩ := dispatchOuch_cancelOrder s x
      rw [h, atVenue_refVenue, hring]
      exact .inl rfl
  | replaceOrder u =>
      obtain ⟨t, -, hring, h⟩ := dispatchOuch_replaceOrder s u
      have hrem : (t.rememberUserRef u.userRefNum (s.route (.replaceOrder u))).refVenue =
          (s.rememberUserRef u.userRefNum (s.route (.replaceOrder u))).refVenue := by
        unfold rememberUserRef
        rw [hring]
      rw [h, atVenue_refVenue, hrem]
      exact (hupdate u.userRefNum _).imp_right fun h => ⟨_, List.mem_singleton_self _, h⟩

/-! ### Runs of requests -/

/-- The requests of a history that went to a venue. -/
def requestsAt (i : ℕ) (hist : List (Ouch.In × ℕ)) : List Ouch.In := (hist.filter (·.2 = i)).map Prod.fst

theorem mem_requestsAt : m ∈ requestsAt i hist ↔ (m, i) ∈ hist := by
  simp [requestsAt]

/-- The venues have handled the requests that went to them, and the ring remembers for a
reference the venue that its request went to. -/
structure Routed (start : List Venue) (hist : List (Ouch.In × ℕ)) (s : ExchangeSession) : Prop where
  venues : s.venues = start.mapIdx fun i v => v.run ((requestsAt i hist).map .request)
  ring : ∀ j, (s.refVenue j).userRef = 0 ∨
    ∃ m, (m, (s.refVenue j).venue) ∈ hist ∧ (s.refVenue j).userRef ∈ newRefs m
  ring_lt : ∀ j, (s.refVenue j).venue < 2 ^ 16

/-- The venues of a history, after one request more. -/
theorem handleAt_mapIdx (start : List Venue) (hist : List (Ouch.In × ℕ)) (r : ℕ) (m : Ouch.In) :
    handleAt (start.mapIdx fun i v => v.run ((requestsAt i hist).map .request)) r m =
      start.mapIdx fun i v => v.run ((requestsAt i (hist ++ [(m, r)])).map .request) := by
  have hmore : ∀ (i : ℕ) (v : Venue), v.run ((requestsAt i (hist ++ [(m, r)])).map .request) =
      if r = i then (v.run ((requestsAt i hist).map .request)).onRequest m
      else v.run ((requestsAt i hist).map .request) := by
    intro i v
    unfold requestsAt
    by_cases hi : r = i
    · rw [if_pos hi, List.filter_append, List.map_append, List.map_append, Venue.run_append]
      simp [hi, Venue.run, Venue.step]
    · rw [if_neg hi, List.filter_append]
      simp [hi]
  refine List.ext_getElem? fun i => ?_
  unfold handleAt
  simp only [hmore, List.getElem?_mapIdx]
  cases hr : start[r]? with
  | none =>
      have hne : ∀ v, start[i]? = some v → r ≠ i := by rintro v hv rfl; rw [hr] at hv; cases hv
      cases hv : start[i]? with
      | none => simp [hv]
      | some v => simp [hv, hne v hv]
  | some v =>
      simp only [Option.map_some, List.getElem?_set, List.length_mapIdx]
      by_cases hi : r = i
      · subst hi
        have hget := List.getElem?_eq_some_iff.mp hr
        simp [hget.1, hget.2]
      · simp [hi]

namespace Routed

/-- A request goes to a venue that the ring can remember. -/
theorem route_lt (h : Routed start hist s) (hstart : start.length ≤ 2 ^ 16) (m : Ouch.In) : s.route m < 2 ^ 16 := by
  have hlength : s.venues.length ≤ 2 ^ 16 := by rw [h.venues, List.length_mapIdx]; exact hstart
  have hfind : ∀ p : Venue → Bool, (s.venues.findIdx? p).getD 0 < 2 ^ 16 := by
    intro p
    cases hp : s.venues.findIdx? p with
    | none => exact Nat.two_pow_pos 16
    | some i => exact Nat.lt_of_lt_of_le (List.findIdx?_eq_some_iff_getElem.mp hp).1 hlength
  have huser : ∀ u, (s.venueForUserRef u).1 < 2 ^ 16 := by
    intro u
    rw [venueForUserRef_eq]
    split_ifs
    · exact h.ring_lt _
    · exact hfind _
  cases m with
  | enterOrder o => exact hfind _
  | cancelOrder x => exact huser _
  | replaceOrder u => exact huser _

/-- **A request is routed**: the history has one request more. -/
theorem dispatch (h : Routed start hist s) (hstart : start.length ≤ 2 ^ 16) (m : Ouch.In) :
    Routed start (hist ++ [(m, s.route m)]) (s.dispatchOuch m) where
  venues := by rw [dispatchOuch_venues, h.venues, handleAt_mapIdx]
  ring j := by
    obtain hj | ⟨u, hu, hj⟩ := dispatchOuch_refVenue s m j
    · rw [hj]
      obtain hzero | ⟨m', hm', hu⟩ := h.ring j
      · exact .inl hzero
      · exact .inr ⟨m', List.mem_append_left _ hm', hu⟩
    · rw [hj]
      have hlt := Nat.mod_eq_of_lt (h.route_lt hstart m)
      exact .inr ⟨m, List.mem_append_right _ (by rw [hlt]; exact List.mem_singleton_self _), hu⟩
  ring_lt j := by
    obtain hj | ⟨u, -, hj⟩ := dispatchOuch_refVenue s m j
    · rw [hj]
      exact h.ring_lt j
    · rw [hj]
      exact Nat.mod_lt _ (Nat.two_pow_pos 16)

/-- **Along a run of requests** every request is routed. The induction is on the run, from
its end. -/
theorem run (h : Routed start [] s) (hstart : start.length ≤ 2 ^ 16) (ms : List Ouch.In) :
    ∃ hist, hist.map Prod.fst = ms ∧ Routed start hist (s.run (ms.map .request)) := by
  induction ms using List.reverseRecOn with
  | nil => exact ⟨[], rfl, h⟩
  | append_singleton ms m ih =>
      obtain ⟨hist, rfl, hr⟩ := ih
      have hrun : s.run ((hist.map Prod.fst ++ [m]).map .request) = (s.run ((hist.map Prod.fst).map .request)).dispatchOuch m := by
        unfold ExchangeSession.run
        rw [List.map_append, List.foldl_append]
        rfl
      rw [hrun]
      exact ⟨hist ++ [(m, route _ m)], by rw [List.map_append]; rfl, hr.dispatch hstart m⟩

/-- A reference that is new once is the reference of requests to one venue only. -/
theorem alone (hfresh : (hist.flatMap fun e => newRefs e.1).Nodup) {m' : Ouch.In} {j : ℕ} (hm : (m, i) ∈ hist)
    (hm' : (m', j) ∈ hist) (hu : user ∈ newRefs m) (hu' : user ∈ newRefs m') : i = j := by
  by_contra hne
  have hpair := (List.nodup_flatMap.mp hfresh).2
  have hsymm : Std.Symm (Function.onFun List.Disjoint fun e : Ouch.In × ℕ => newRefs e.1) := ⟨fun _ _ h => h.symm⟩
  have hdisjoint := hpair.forall hm hm' fun he => hne (Prod.mk.inj he).2
  exact hdisjoint hu hu'

/-- **A reference is found** at the venue that has it, by the ring or by the search. -/
theorem venueForUserRef (h : Routed start hist s) (hfresh : (hist.flatMap fun e => newRefs e.1).Nodup)
    (hnew : ∀ i v, s.venues[i]? = some v → v.hasUserRef user = true → ∃ m, (m, i) ∈ hist ∧ user ∈ newRefs m)
    (hne : user ≠ 0) {v : Venue} (hv : s.venues[i]? = some v) (hhas : v.hasUserRef user = true) :
    (s.venueForUserRef user).1 = i := by
  obtain ⟨m, hm, hu⟩ := hnew i v hv hhas
  rw [venueForUserRef_eq]
  split_ifs with hring
  · obtain hzero | ⟨m', hm', hu'⟩ := h.ring (user % kRefRing)
    · exact absurd (hring.symm.trans hzero) hne
    · rw [hring] at hu'
      exact alone hfresh hm' hm hu' hu
  · cases hfind : s.venues.findIdx? (·.hasUserRef user) with
    | none =>
        have hnot := List.findIdx?_eq_none_iff.mp hfind v (List.mem_of_getElem? hv)
        exact absurd hhas (by simp [hnot])
    | some j =>
        obtain ⟨hlt, hj, -⟩ := List.findIdx?_eq_some_iff_getElem.mp hfind
        obtain ⟨m', hm', hu'⟩ := hnew j _ (List.getElem?_eq_getElem hlt) hj
        exact alone hfresh hm' hm hu' hu

end Routed

/-! ### The venue that has the order -/

theorem routed_new (cfg : ExchangeConfig) (stray : ℕ) : Routed (new cfg stray).venues [] (new cfg stray) where
  venues := by
    refine List.ext_getElem? fun i => ?_
    rw [List.getElem?_mapIdx]
    cases (new cfg stray).venues[i]? <;> rfl
  ring _ := .inl rfl
  ring_lt _ := Nat.two_pow_pos 16

/-- The venues of a new session. -/
theorem getElem?_new (cfg : ExchangeConfig) (stray : ℕ) {v : Venue} (h : (new cfg stray).venues[i]? = some v) :
    ∃ symbol, v = Venue.new symbol (cfg.locateAt i) cfg.minTick cfg.maxTick cfg.wirePerTick (cfg.refAt i)
      cfg.liveReserve stray := by
  unfold new at h
  rw [List.getElem?_mapIdx] at h
  cases hsymbol : cfg.venueSymbols[i]? with
  | none =>
      rw [hsymbol] at h
      cases h
  | some symbol =>
      rw [hsymbol] at h
      exact ⟨symbol, (Option.some.inj h).symm⟩

/-- A request about an order is handled at the venue `i`, which is `v`. -/
structure HandledAt (s : ExchangeSession) (i : ℕ) (v : Venue) (user : ℕ) : Prop where
  cancel : ∀ x : Ouch.CancelOrder, x.userRefNum = user →
    (s.dispatchOuch (.cancelOrder x)).venues = s.venues.set i (v.onCancelOrder x)
  replace : ∀ u : Ouch.ReplaceOrder, u.origUserRefNum = user →
    (s.dispatchOuch (.replaceOrder u)).venues = s.venues.set i (v.onReplaceOrder u)

theorem handledAt_of_venueForUserRef {v : Venue} (hv : s.venues[i]? = some v) (hat : (s.venueForUserRef user).1 = i) :
    HandledAt s i v user where
  cancel x hx := by
    subst hx
    rw [dispatchOuch_venues]
    unfold handleAt
    rw [route, hat, hv]
    rfl
  replace u hu := by
    subst hu
    rw [dispatchOuch_venues]
    unfold handleAt
    rw [route, hat, hv]
    rfl

/-- **Requests reach their venue**: a cancellation or a replacement of a client's live order
is handled by the venue that has it, whatever the requests were before, as long as no user
reference is zero or new twice and the ring can remember every venue. -/
theorem requests_routed (cfg : ExchangeConfig) (stray : ℕ) (hvenues : cfg.venueSymbols.length ≤ 2 ^ 16)
    (ms : List Ouch.In) (husers : ∀ m ∈ ms, ∀ u ∈ (Venue.Op.request m).users, u ≠ 0) (hfresh : (ms.flatMap newRefs).Nodup)
    (i : ℕ) (v : Venue) (user : ℕ) (hne : user ≠ 0) (hv : ((new cfg stray).run (ms.map .request)).venues[i]? = some v)
    (hlive : v.hasUserRef user = true ∨ max 1 (cfg.refAt i) + ms.length ≤ 2 ^ 64 ∧ v.Names user) :
    HandledAt ((new cfg stray).run (ms.map .request)) i v user := by
  have hstart : (new cfg stray).venues.length ≤ 2 ^ 16 := by
    unfold new
    rw [List.length_mapIdx]
    exact hvenues
  obtain ⟨hist, rfl, h⟩ := (routed_new cfg stray).run hstart ms
  rw [List.flatMap_map] at hfresh
  -- every venue is a new one that has handled its requests
  have hstarted : ∀ j w, ((new cfg stray).run ((hist.map Prod.fst).map .request)).venues[j]? = some w →
      ∃ symbol, w = (Venue.new symbol (cfg.locateAt j) cfg.minTick cfg.maxTick cfg.wirePerTick (cfg.refAt j)
        cfg.liveReserve stray).run ((requestsAt j hist).map .request) := by
    intro j w hw
    rw [h.venues, List.getElem?_mapIdx] at hw
    obtain ⟨v₀, hv₀, rfl⟩ := Option.map_eq_some_iff.mp hw
    obtain ⟨symbol, rfl⟩ := getElem?_new cfg stray hv₀
    exact ⟨symbol, rfl⟩
  refine handledAt_of_venueForUserRef hv (h.venueForUserRef hfresh (fun j w hw hhas => ?_) hne hv ?_)
  · obtain ⟨symbol, rfl⟩ := hstarted j w hw
    obtain ⟨m, hm, hu⟩ := Venue.mem_of_hasUserRef hne hhas
    exact ⟨m, mem_requestsAt.mp hm, hu⟩
  · obtain hhas | ⟨hwrap, hnames⟩ := hlive
    · exact hhas
    obtain ⟨symbol, rfl⟩ := hstarted i v hv
    have hsub : (requestsAt i hist).Sublist (hist.map Prod.fst) := List.filter_sublist.map _
    refine Venue.hasUserRef_of_names (Nat.mod_lt _ (Nat.two_pow_pos 64)) (fun m hm => husers m (hsub.subset hm)) ?_ ?_ hne hnames
    · rw [← List.flatMap_map] at hfresh
      exact hfresh.sublist (hsub.flatMap _)
    · have := hsub.length_le
      omega

/-- An order of the second venue, whose place in the ring the first venue's one takes. -/
def evictingRequests : List Ouch.In :=
  [.enterOrder ⟨1, .buy, 40, [66], 5000, .day⟩, .enterOrder ⟨4097, .buy, 40, [65], 5000, .day⟩]

theorem requests_routed_sample :
    ∃ v, ((new { symbols := [[65], [66]] } 0).run (evictingRequests.map .request)).venues[1]? = some v ∧
      HandledAt ((new { symbols := [[65], [66]] } 0).run (evictingRequests.map .request)) 1 v 1 := by
  have hsome : (((new { symbols := [[65], [66]] } 0).run (evictingRequests.map .request)).venues[1]?.map
      (·.hasUserRef 1)) = some true := by decide +kernel
  obtain ⟨v, hv, hhas⟩ := Option.map_eq_some_iff.mp hsome
  exact ⟨v, hv, requests_routed _ 0 (by decide) evictingRequests (by decide) (by decide) 1 v 1 (by decide) hv (.inl hhas)⟩

/-- `n` venues for one symbol, and one for another. -/
def wideConfig (n : ℕ) : ExchangeConfig := { symbols := List.replicate n [65] ++ [[66]] }

/-- An order for the last symbol. -/
def lastRequest : Ouch.In := .enterOrder ⟨1, .buy, 40, [66], 5000, .day⟩

/-- The last venue, with the order. -/
def lastVenue (n : ℕ) : Venue :=
  (Venue.new [66] ((wideConfig n).locateAt n) 1 100000 100 ((wideConfig n).refAt n) (2 ^ 12) 0).onRequest lastRequest

/-- The session that has sent the order there. -/
def wideSession (n : ℕ) : ExchangeSession := (new (wideConfig n) 0).run ([lastRequest].map .request)

theorem getElem?_wide (n : ℕ) {i : ℕ} (hi : i ≤ n) :
    (new (wideConfig n) 0).venues[i]? = some (Venue.new (if i = n then [66] else [65]) ((wideConfig n).locateAt i) 1 100000
      100 ((wideConfig n).refAt i) (2 ^ 12) 0) := by
  have hsymbols : (wideConfig n).venueSymbols = List.replicate n [65] ++ [[66]] :=
    if_neg (List.append_ne_nil_of_right_ne_nil _ (List.cons_ne_nil _ _))
  unfold new
  rw [List.getElem?_mapIdx, hsymbols]
  split_ifs with heq
  · subst heq
    simp [wideConfig]
  · have hlt : i < n := by omega
    simp [wideConfig, List.getElem?_append_left, hlt]

theorem venueForSymbol_wide (n : ℕ) : (new (wideConfig n) 0).venueForSymbol [66] = n := by
  have hlast := List.getElem?_eq_some_iff.mp (getElem?_wide n (Nat.le_refl n))
  have hfind : (new (wideConfig n) 0).venues.findIdx? (fun v => v.symbol = [66]) = some n := by
    refine List.findIdx?_eq_some_iff_getElem.mpr ⟨hlast.1, ?_, fun j hj => ?_⟩
    · rw [hlast.2]
      simp [Venue.new]
    · rw [(List.getElem?_eq_some_iff.mp (getElem?_wide n (Nat.le_of_lt hj))).2]
      simp [Venue.new, Nat.ne_of_lt hj]
  unfold venueForSymbol
  rw [hfind]
  rfl

/-- The ring keeps 16 bits of the last venue's place. -/
theorem wideSession_last (n : ℕ) :
    (wideSession n).venues[n]? = some (lastVenue n) ∧ (wideSession n).refVenue 1 = ⟨1, n % 2 ^ 16⟩ := by
  have hroute : (new (wideConfig n) 0).route lastRequest = n := venueForSymbol_wide n
  have hnew := getElem?_wide n (Nat.le_refl n)
  rw [if_pos rfl] at hnew
  constructor
  · change ((new (wideConfig n) 0).dispatchOuch lastRequest).venues[n]? = _
    rw [dispatchOuch_venues, hroute]
    unfold handleAt
    rw [hnew]
    exact List.getElem?_set_self (List.getElem?_eq_some_iff.mp hnew).1
  · have hring : (wideSession n).refVenue = Function.update (fun _ => ({} : RefVenue)) 1
        ⟨1, (new (wideConfig n) 0).route lastRequest % 2 ^ 16⟩ := atVenue_refVenue ..
    rw [hring, Function.update_self, hroute]

/-- With more venues than the ring can tell apart, a request about the last one's order
goes to another. -/
theorem not_handledAt_wide {n : ℕ} (hn : 2 ^ 16 ≤ n) (hhas : (lastVenue n).hasUserRef 1 = true)
    (hgone : ((lastVenue n).onCancelOrder ⟨1, 0⟩).hasUserRef 1 = false) : ¬ HandledAt (wideSession n) n (lastVenue n) 1 := by
  intro h
  obtain ⟨hlast, hring⟩ := wideSession_last n
  have hroute : (wideSession n).route (.cancelOrder ⟨1, 0⟩) = n % 2 ^ 16 := by
    change ((wideSession n).venueForUserRef 1).1 = _
    rw [venueForUserRef_eq]
    change (if ((wideSession n).refVenue 1).userRef = 1 then ((wideSession n).refVenue 1).venue else _) = _
    rw [hring, if_pos rfl]
  have hne : n % 2 ^ 16 ≠ n := by omega
  have hcancel := congrArg (·[n]?) (h.cancel ⟨1, 0⟩ rfl)
  simp only [dispatchOuch_venues, hroute] at hcancel
  rw [List.getElem?_set_self (List.getElem?_eq_some_iff.mp hlast).1] at hcancel
  have hkeep : (handleAt (wideSession n).venues (n % 2 ^ 16) (.cancelOrder ⟨1, 0⟩))[n]? = some (lastVenue n) := by
    unfold handleAt
    cases (wideSession n).venues[n % 2 ^ 16]? with
    | none => exact hlast
    | some v => exact (List.getElem?_set_ne hne).trans hlast
  rw [hkeep] at hcancel
  rw [← Option.some.inj hcancel, hhas] at hgone
  cases hgone

/-- 65537 venues are one more than the ring can tell apart: the order of the last one is
looked for at the first one. -/
theorem ring_cuts_venue :
    (∀ m ∈ [lastRequest], ∀ u ∈ (Venue.Op.request m).users, u ≠ 0) ∧ ([lastRequest].flatMap newRefs).Nodup ∧
      ((new (wideConfig (2 ^ 16)) 0).run ([lastRequest].map .request)).venues[2 ^ 16]? = some (lastVenue (2 ^ 16)) ∧
      (lastVenue (2 ^ 16)).hasUserRef 1 = true ∧ (lastVenue (2 ^ 16)).Names 1 ∧
      ¬ HandledAt ((new (wideConfig (2 ^ 16)) 0).run ([lastRequest].map .request)) (2 ^ 16) (lastVenue (2 ^ 16)) 1 := by
  have hhas : (lastVenue (2 ^ 16)).hasUserRef 1 = true := by decide +kernel
  have hentry : ∃ e ∈ (lastVenue (2 ^ 16)).live.entries, e.2.client = true ∧ e.2.userRef = 1 := by decide +kernel
  obtain ⟨⟨ref, l⟩, hmem, hclient, huser⟩ := hentry
  exact ⟨by decide, by decide, (wideSession_last (2 ^ 16)).1, hhas, ⟨ref, l, hmem, hclient, huser⟩,
    not_handledAt_wide (Nat.le_refl _) hhas (by decide +kernel)⟩

end ExchangeSession

end TickToTrade.Sim
