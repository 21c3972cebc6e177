import TickToTrade.Sim.TablesAgree
import TickToTrade.Sim.VenueMoves

/-!
# Requests for orders that are gone

A request that names no live client order of the venue is refused and changes nothing.
What carries it is that the two tables agree on whose an order is (`Traced`): entries leave
them in every call (`Erases`), and come in only for a reference that is new.

The user reference zero is the key that the tables reserve for their free slots: a lookup
of it answers with one.
-/

namespace TickToTrade.Sim.Venue

open Util

/-- Both tables are in order. -/
def Keyed (v : Venue) : Prop := v.live.WF ∧ v.byUserRef.WF

/-- Entries only leave the tables, and no reference is taken. -/
structure Erases (v w : Venue) : Prop where
  keyed : v.Keyed → w.Keyed
  live : v.Keyed → ∀ ref l, w.live.lookup ref = some l → v.live.lookup ref = some l
  users : v.Keyed → ∀ user ref, w.byUserRef.lookup user = some ref → v.byUserRef.lookup user = some ref
  nextOrderRef : w.nextOrderRef = v.nextOrderRef

namespace Erases

variable {v w x : Venue}

theorem of_eq (hlive : w.live = v.live) (husers : w.byUserRef = v.byUserRef) (href : w.nextOrderRef = v.nextOrderRef) :
    Erases v w :=
  ⟨fun h => by rw [Keyed, hlive, husers]; exact h, fun _ _ _ hl => hlive ▸ hl, fun _ _ _ hr => husers ▸ hr, href⟩

theorem refl (v : Venue) : Erases v v := of_eq rfl rfl rfl

theorem of_tells {msgs : List Sent} (h : Tells v msgs w) : Erases v w := of_eq h.live h.byUserRef h.steady.nextOrderRef

theorem trans (h : Erases v w) (h' : Erases w x) : Erases v x where
  keyed hv := h'.keyed (h.keyed hv)
  live hv ref l hl := h.live hv ref l (h'.live (h.keyed hv) ref l hl)
  users hv user ref hr := h.users hv user ref (h'.users (h.keyed hv) user ref hr)
  nextOrderRef := h'.nextOrderRef.trans h.nextOrderRef

theorem eraseLive (v : Venue) (ref : ℕ) : Erases v (v.eraseLive ref) where
  keyed hv := by
    obtain ⟨hwf, -, husers, -⟩ := Tables.live_eraseLive hv.1 ref
    exact ⟨hwf, by rw [husers]; exact hv.2⟩
  live hv r l hl := by
    obtain ⟨-, hlookup, -⟩ := Tables.live_eraseLive hv.1 ref
    rw [hlookup] at hl
    by_cases hr : r = ref
    · rw [hr, Function.update_self] at hl
      cases hl
    · rwa [Function.update_of_ne hr] at hl
  users hv user r hr := by
    obtain ⟨-, -, husers, -⟩ := Tables.live_eraseLive hv.1 ref
    rwa [husers] at hr
  nextOrderRef := (eraseLive_same v ref).2.2.nextOrderRef

theorem eraseUserRef (v : Venue) (user : ℕ) : Erases v (v.eraseUserRef user) where
  keyed hv := by
    obtain ⟨hwf, -, hlive, -⟩ := Tables.users_eraseUserRef hv.2 user
    exact ⟨by rw [hlive]; exact hv.1, hwf⟩
  live hv r l hl := by
    obtain ⟨-, -, hlive, -⟩ := Tables.users_eraseUserRef hv.2 user
    rwa [hlive] at hl
  users hv u r hr := by
    obtain ⟨-, hlookup, -⟩ := Tables.users_eraseUserRef hv.2 user
    rw [hlookup] at hr
    by_cases hu : u = user
    · rw [hu, Function.update_self] at hr
      cases hr
    · rwa [Function.update_of_ne hu] at hr
  nextOrderRef := (eraseUserRef_same v user).2.2.nextOrderRef

/-- Nothing but a new order puts entries into the tables. -/
theorem stepwise : Stepwise Erases where
  refl := refl
  trans := trans
  sends _ _ := of_eq rfl rfl rfl
  counts _ _ := of_eq rfl rfl rfl
  takeMatch _ := of_eq rfl rfl rfl
  engine _ _ := of_eq rfl rfl rfl
  eraseLive := eraseLive
  eraseUserRef := eraseUserRef
  clientRefs _ _ := of_eq rfl rfl rfl

theorem resetDay (v : Venue) : Erases v v.resetDay := by
  refine (stepwise.closeClients v.clientRefs.length v).trans ?_
  unfold Venue.resetDay
  generalize Venue.closeClients v.clientRefs.length v = w
  refine ⟨fun _ => ⟨FlatHashMap.wf_clear _, FlatHashMap.wf_clear _⟩, fun _ ref l hl => ?_, fun _ user ref hr => ?_, rfl⟩
  · rw [FlatHashMap.lookup_clear] at hl
    cases hl
  · rw [FlatHashMap.lookup_clear] at hr
    cases hr

end Erases

/-! ### Whose order it is -/

/-- The tables agree on whose an order is, and the venue has handed out the references
`handed`, from `first` on. -/
structure Traced (first : ℕ) (handed : List ℕ) (v : Venue) : Prop where
  keyed : v.Keyed
  users : ∀ user ref, v.byUserRef.lookup user = some ref →
    ref ≠ 0 ∧ ref ∈ handed ∧ ∀ l, v.live.lookup ref = some l → l.client = true ∧ l.userRef = user
  next : v.nextOrderRef = (first + handed.length) % 2 ^ 64
  handed_lt : ∀ ref ∈ handed, ref < first + handed.length

section

variable {first ref : ℕ} {handed : List ℕ} {v w : Venue}

theorem Traced.erases (h : Traced first handed v) (he : Erases v w) : Traced first handed w where
  keyed := he.keyed h.keyed
  users user ref hr := by
    obtain ⟨hne, hmem, hclient⟩ := h.users user ref (he.users h.keyed user ref hr)
    exact ⟨hne, hmem, fun l hl => hclient l (he.live h.keyed ref l hl)⟩
  next := he.nextOrderRef.trans h.next
  handed_lt := h.handed_lt

/-- The next reference is taken. -/
theorem Traced.takeRef (h : Traced first handed v) (hwrap : first + handed.length < 2 ^ 64) :
    Traced first (handed ++ [v.nextOrderRef]) v.takeRef.2 where
  keyed := h.keyed
  users user ref hr := by
    obtain ⟨hne, hmem, hclient⟩ := h.users user ref hr
    exact ⟨hne, List.mem_append_left _ hmem, hclient⟩
  next := by
    have hnext := h.next
    rw [Nat.mod_eq_of_lt hwrap] at hnext
    rw [List.length_append, List.length_singleton, ← Nat.add_assoc, ← hnext]
    rfl
  handed_lt ref hmem := by
    have hnext := h.next
    rw [Nat.mod_eq_of_lt hwrap] at hnext
    rw [List.length_append, List.length_singleton]
    obtain hmem | hmem := List.mem_append.mp hmem
    · have := h.handed_lt ref hmem
      omega
    · rw [List.mem_singleton.mp hmem]
      omega

/-- An order that is no client's comes in. -/
theorem Traced.setLive (h : Traced first handed v) {l : LiveOrder}
    (hnew : ∀ user, v.byUserRef.lookup user ≠ some ref) : Traced first handed (v.setLive ref l) where
  keyed := ⟨h.keyed.1.wf_insertOrAssign ref l, h.keyed.2⟩
  users user r hr := by
    obtain ⟨hne, hmem, hclient⟩ := h.users user r hr
    refine ⟨hne, hmem, fun l' hl => hclient l' ?_⟩
    have hl : (v.live.insertOrAssign ref l).lookup r = some l' := hl
    by_cases hzero : ref = 0
    · rwa [hzero, h.keyed.1.lookup_insertOrAssign_zero] at hl
    · rwa [h.keyed.1.lookup_insertOrAssign hzero, Function.update_of_ne (by rintro rfl; exact hnew user hr)] at hl
  next := h.next
  handed_lt := h.handed_lt

/-- A client's order comes in. -/
theorem Traced.trackClient (h : Traced first handed v) (hne : ref ≠ 0) (hmem : ref ∈ handed)
    (hnew : ∀ user, v.byUserRef.lookup user ≠ some ref) (k : Option ℕ) (s : Side) (tick : ℤ) (user : ℕ) :
    Traced first handed (v.trackClient ref k s tick user) where
  keyed := ⟨h.keyed.1.wf_insertOrAssign ref _, h.keyed.2.wf_insertOrAssign user ref⟩
  users u r hr := by
    have hlive : (v.trackClient ref k s tick user).live.lookup =
        Function.update v.live.lookup ref (some ⟨k, s, tick, true, user⟩) := h.keyed.1.lookup_insertOrAssign hne _
    rw [hlive]
    have hr : (v.byUserRef.insertOrAssign user ref).lookup u = some r := hr
    have hold : v.byUserRef.lookup u = some r → r ≠ 0 ∧ r ∈ handed ∧ ∀ l,
        Function.update v.live.lookup ref (some ⟨k, s, tick, true, user⟩) r = some l → l.client = true ∧ l.userRef = u := by
      intro hu
      rw [Function.update_of_ne (by rintro rfl; exact hnew u hu)]
      exact h.users u r hu
    by_cases hzero : user = 0
    · rw [hzero, h.keyed.2.lookup_insertOrAssign_zero] at hr
      exact hold hr
    · rw [h.keyed.2.lookup_insertOrAssign hzero] at hr
      by_cases hu : u = user
      · rw [hu, Function.update_self] at hr
        obtain rfl : ref = r := Option.some.inj hr
        refine ⟨hne, hmem, fun l hl => ?_⟩
        rw [Function.update_self] at hl
        obtain rfl := Option.some.inj hl
        exact ⟨rfl, hu.symm⟩
      · rw [Function.update_of_ne hu] at hr
        exact hold hr
  next := h.next
  handed_lt := h.handed_lt

/-- A new order trades and rests. -/
theorem Traced.processOrder (h : Traced first handed v) (hne : ref ≠ 0) (hmem : ref ∈ handed)
    (hnew : ∀ user, v.byUserRef.lookup user ≠ some ref) (s : Side) (tick : ℤ) (q : ℕ) (client : Bool) (user : ℕ) :
    Traced first handed (v.processOrder ref s tick q client user) := by
  have htrades : Erases v ((v.engine.add ref s tick q).2.2.foldl (handleTrade client user)
      { v with engine := (v.engine.add ref s tick q).2.1 }) :=
    Erases.stepwise.trans (Erases.stepwise.engine v _) (Erases.stepwise.trades ..)
  have ht := h.erases htrades
  have hnew' := fun u hu => hnew u (htrades.users h.keyed u ref hu)
  unfold Venue.processOrder
  simp only
  generalize (v.engine.add ref s tick q).2.2.foldl (handleTrade client user)
    { v with engine := (v.engine.add ref s tick q).2.1 } = w at ht hnew' ⊢
  cases (v.engine.add ref s tick q).1 with
  | none => exact ht
  | some k =>
      have hadd : Erases w (w.emitItchAdd ref s tick (w.engine.order k).qty) := .of_tells (Tells.sendMd w _)
      have hnew'' := fun u hu => hnew' u (hadd.users ht.keyed u ref hu)
      cases client
      · exact (ht.erases hadd).setLive hnew''
      · exact (ht.erases hadd).trackClient hne hmem hnew'' ..

/-- The new order of a replacement trades and rests. -/
theorem Traced.arriveReplaced (h : Traced first handed v) (hne : ref ≠ 0) (hmem : ref ∈ handed)
    (hnew : ∀ user, v.byUserRef.lookup user ≠ some ref) (origRef : ℕ) (s : Side) (tick : ℤ) (q user : ℕ) :
    Traced first handed (v.arriveReplaced origRef ref s tick q user) := by
  have hdelete : Erases v (v.emitItchDelete origRef) := .of_tells (Tells.sendMd v _)
  have hrest : Erases v (emitItchReplace { v with engine := (v.engine.add ref s tick q).2.1 } origRef ref q tick) :=
    (Erases.stepwise.engine v _).trans (.of_tells (Tells.sendMd _ _))
  unfold Venue.arriveReplaced
  split_ifs
  · exact (h.erases hdelete).processOrder hne hmem (fun u hu => hnew u (hdelete.users h.keyed u ref hu)) ..
  · simp only
    cases (v.engine.add ref s tick q).1 with
    | none => exact h.erases hrest
    | some k => exact (h.erases hrest).trackClient hne hmem (fun u hu => hnew u (hrest.users h.keyed u ref hu)) ..

/-- The next reference is in no table. -/
theorem Traced.unused (h : Traced first handed v) (hfirst : 0 < first) (hwrap : first + handed.length < 2 ^ 64) :
    v.nextOrderRef ≠ 0 ∧ ∀ user, v.byUserRef.lookup user ≠ some v.nextOrderRef := by
  have hnext := h.next
  rw [Nat.mod_eq_of_lt hwrap] at hnext
  refine ⟨by omega, fun user hr => ?_⟩
  have := h.handed_lt _ (h.users user _ hr).2.1
  omega

/-- The next reference is taken, and can be used for an order. -/
theorem Traced.taken (h : Traced first handed v) (hfirst : 0 < first) (hwrap : first + handed.length < 2 ^ 64)
    (he : Erases v.takeRef.2 w) :
    Traced first (handed ++ [v.nextOrderRef]) w ∧ v.nextOrderRef ≠ 0 ∧ v.nextOrderRef ∈ handed ++ [v.nextOrderRef] ∧
      ∀ user, w.byUserRef.lookup user ≠ some v.nextOrderRef := by
  obtain ⟨hne, hnew⟩ := h.unused hfirst hwrap
  have ht := h.takeRef hwrap
  exact ⟨ht.erases he, hne, List.mem_append_right _ List.mem_cons_self, fun u hu => hnew u (he.users ht.keyed u _ hu)⟩

/-- The tables still agree after a call, which has taken the next reference or not. -/
def Moves (first : ℕ) (handed : List ℕ) (v w : Venue) : Prop :=
  w.nextOrderRef = v.nextOrderRef ∧ Traced first handed w ∨
    w.nextOrderRef = inc64 v.nextOrderRef ∧
      (first + handed.length < 2 ^ 64 → Traced first (handed ++ [v.nextOrderRef]) w)

theorem Traced.moves_of_erases (h : Traced first handed v) (he : Erases v w) : Moves first handed v w :=
  .inl ⟨he.nextOrderRef, h.erases he⟩

/-! ### Calls -/

theorem Traced.onEnterOrder (h : Traced first handed v) (hfirst : 0 < first) (m : Ouch.EnterOrder) :
    Moves first handed v (v.onEnterOrder m) := by
  have hreject : ∀ r, Moves first handed v (v.emitRejected m.userRefNum r) := fun r =>
    h.moves_of_erases (.of_tells (Tells.sendOe v _))
  have haccept : ∀ st, Erases v.takeRef.2 (v.takeRef.2.emitAccepted m v.nextOrderRef st) := fun st =>
    .of_tells (Tells.sendOe _ _)
  unfold Venue.onEnterOrder
  simp only
  cases parseSide m.side with
  | none => exact hreject _
  | some s =>
      simp only
      by_cases hq : m.quantity = 0
      · rw [if_pos hq]
        exact hreject _
      rw [if_neg hq]
      by_cases hsymbol : m.symbol ≠ v.symbol
      · rw [if_pos hsymbol]
        exact hreject _
      rw [if_neg hsymbol]
      cases v.validPrice m.price with
      | none => exact hreject _
      | some tick =>
          simp only
          by_cases hioc : m.timeInForce = .ioc
          · rw [if_pos hioc]
            exact .inr ⟨nextOrderRef_processImmediate .., fun hwrap =>
              (h.takeRef hwrap).erases ((haccept .dead).trans (Erases.stepwise.processImmediate ..))⟩
          · rw [if_neg hioc]
            refine .inr ⟨nextOrderRef_processOrder .., fun hwrap => ?_⟩
            obtain ⟨ht, hne, hmem, hnew⟩ := h.taken hfirst hwrap (haccept .live)
            exact ht.processOrder hne hmem hnew ..

theorem Traced.onCancelOrder (h : Traced first handed v) (m : Ouch.CancelOrder) :
    Moves first handed v (v.onCancelOrder m) := by
  have hreject : Moves first handed v (v.emitCancelReject m.userRefNum) :=
    h.moves_of_erases (.of_tells (Tells.sendOe v _))
  unfold Venue.onCancelOrder
  simp only
  cases v.byUserRef.get? m.userRefNum with
  | none => exact hreject
  | some ref =>
      simp only
      cases v.live.get? ref with
      | none => exact hreject
      | some l =>
          simp only
          by_cases hle : m.quantity ≥ v.qtyAt l.handle
          · rw [if_pos hle]
            exact hreject
          rw [if_neg hle]
          by_cases hzero : m.quantity = 0
          · rw [if_pos hzero]
            refine h.moves_of_erases (Erases.trans ?_ (Erases.stepwise.dropClient _ ref l))
            exact (Erases.stepwise.engineCancel v l.handle).trans (.of_eq rfl rfl rfl)
          · rw [if_neg hzero]
            exact h.moves_of_erases ((Erases.stepwise.engineReduce v l.handle m.quantity).trans (.of_eq rfl rfl rfl))

theorem Traced.onReplaceOrder (h : Traced first handed v) (hfirst : 0 < first) (m : Ouch.ReplaceOrder) :
    Moves first handed v (v.onReplaceOrder m) := by
  have hreject : ∀ r, Moves first handed v (v.emitRejected m.userRefNum r) := fun r =>
    h.moves_of_erases (.of_tells (Tells.sendOe v _))
  unfold Venue.onReplaceOrder
  simp only
  cases v.byUserRef.get? m.origUserRefNum with
  | none => exact hreject _
  | some origRef =>
      simp only
      cases v.live.get? origRef with
      | none => exact hreject _
      | some l =>
          simp only
          by_cases hq : m.quantity = 0
          · rw [if_pos hq]
            exact hreject _
          rw [if_neg hq]
          cases v.validPrice m.price with
          | none => exact hreject _
          | some tick =>
              simp only
              have he : Erases v ((v.engineCancel l.handle).2.dropClient origRef l) :=
                Erases.stepwise.trans (Erases.stepwise.engineCancel ..) (Erases.stepwise.dropClient ..)
              have href := he.nextOrderRef
              generalize (v.engineCancel l.handle).2.dropClient origRef l = w at he href ⊢
              have hreplaced : Erases w.takeRef.2 (w.takeRef.2.emitReplaced m w.nextOrderRef l.side) :=
                .of_tells (Tells.sendOe _ _)
              refine .inr ⟨?_, fun hwrap => ?_⟩
              · rw [← href]
                exact nextOrderRef_arriveReplaced (w.takeRef.2.emitReplaced m w.nextOrderRef l.side) ..
              · rw [← href]
                obtain ⟨ht, hne, hmem, hnew⟩ := (h.erases he).taken hfirst hwrap hreplaced
                exact ht.arriveReplaced hne hmem hnew origRef l.side tick m.quantity m.userRefNum

/-- A new order of the tape. -/
theorem Traced.tapeAdd (h : Traced first handed v) (hnew : ref ∉ handed)
    (hadd : ∃ x, Erases v x ∧ (w = x ∨ ∃ l, w = x.setLive ref l)) : Traced first handed w := by
  obtain ⟨x, hx, rfl | ⟨l, rfl⟩⟩ := hadd
  · exact h.erases hx
  · exact (h.erases hx).setLive fun u hu => hnew ((h.erases hx).users u ref hu).2.1

/-- **Every call keeps the tables in agreement**, if the tape adds no order of the venue's. -/
theorem Traced.moves (h : Traced first handed v) (hfirst : 0 < first) (op : Op) (htape : ∀ ref ∈ op.tapeNew, ref ∉ handed) :
    Moves first handed v (v.step op) := by
  cases op with
  | request m =>
      cases m with
      | enterOrder m => exact h.onEnterOrder hfirst m
      | replaceOrder m => exact h.onReplaceOrder hfirst m
      | cancelOrder m => exact h.onCancelOrder m
  | injectSynthetic s tick q =>
      refine .inr ⟨nextOrderRef_injectSynthetic .., fun hwrap => ?_⟩
      obtain ⟨ht, hne, hmem, hnew⟩ := h.taken hfirst hwrap (.refl _)
      exact ht.processOrder hne hmem hnew ..
  | cancelSynthetic ref => exact h.moves_of_erases (Erases.stepwise.cancelSynthetic v ref)
  | mirrorAdd ref s wire q =>
      have ht := h.tapeAdd (htape ref List.mem_cons_self) (Erases.stepwise.mirrorAdd v ref s wire q)
      exact .inl ⟨ht.next.trans h.next.symm, ht⟩
  | mirrorExecute ref shares => exact h.moves_of_erases (Erases.stepwise.mirrorExecute v ref shares)
  | mirrorCancel ref shares => exact h.moves_of_erases (Erases.stepwise.mirrorCancel v ref shares)
  | mirrorDelete ref => exact h.moves_of_erases (Erases.stepwise.mirrorDelete v ref)
  | mirrorReplace orig ref shares wire =>
      have ht := h.tapeAdd (htape ref (List.mem_singleton_self ref)) (Erases.stepwise.mirrorReplace v orig ref shares wire)
      exact .inl ⟨ht.next.trans h.next.symm, ht⟩
  | resetDay => exact h.moves_of_erases (.resetDay v)

/-! ### Runs -/

/-- The tape adds no order under a reference that the venue has handed out. -/
def TapeApart (v : Venue) (ops : List Op) : Prop :=
  ∀ pre op post, ops = pre ++ op :: post → ∀ ref ∈ op.tapeNew, ref ∉ v.handedOut pre

theorem TapeApart.of_append {ops ops' : List Op} (h : TapeApart v (ops ++ ops')) : TapeApart v ops :=
  fun pre op post heq => h pre op (post ++ ops') (by rw [heq]; simp)

/-- The orders of the tape, looked at one call after the other. -/
theorem tapeApart_of_split {ops : List Op}
    (h : ∀ i < ops.length, ∀ ref ∈ (ops.getD i .resetDay).tapeNew, ref ∉ v.handedOut (ops.take i)) : TapeApart v ops := by
  intro pre op post heq ref href
  have hat := h pre.length (by simp [heq]) ref (by simpa [heq] using href)
  simpa [heq] using hat

/-- **Along a run the tables stay in agreement.** -/
theorem traced_run (h : Traced v.nextOrderRef [] v) (hpos : 0 < v.nextOrderRef) {ops : List Op} (htape : TapeApart v ops)
    (hwrap : NoWrap v ops) : Traced v.nextOrderRef (v.handedOut ops) (v.run ops) := by
  induction ops using List.reverseRecOn with
  | nil => exact h
  | append_singleton ops op ih =>
      have ht := ih htape.of_append hwrap.of_append
      have hmoves := ht.moves hpos op (htape ops op [] rfl)
      rw [run_append, handedOut_append, handedOut_one]
      change Traced v.nextOrderRef _ ((v.run ops).step op)
      obtain ⟨href, ht'⟩ | ⟨href, ht'⟩ := hmoves
      · rw [if_pos href, List.append_nil]
        exact ht'
      · have hne : ((v.run ops).step op).nextOrderRef ≠ (v.run ops).nextOrderRef := by
          rw [href]
          exact inc64_ne _
        rw [if_neg hne]
        refine ht' ?_
        rw [NoWrap, handedOut_append, handedOut_one, if_neg hne, List.length_append, List.length_singleton] at hwrap
        omega

/-- A new venue. -/
theorem traced_new (symbol : List UInt8) (stockLocate : ℕ) (minTick maxTick : ℤ)
    {wirePerTick firstOrderRef liveReserve stray : ℕ} (hfirst : firstOrderRef < 2 ^ 64) :
    let v := new symbol stockLocate minTick maxTick wirePerTick firstOrderRef liveReserve stray
    Traced v.nextOrderRef [] v ∧ 0 < v.nextOrderRef := by
  have hnext : 0 < (if firstOrderRef = 0 then 1 else firstOrderRef) ∧
      (if firstOrderRef = 0 then 1 else firstOrderRef) < 2 ^ 64 := by split_ifs <;> omega
  refine ⟨⟨⟨FlatHashMap.wf_empty _, FlatHashMap.wf_empty _⟩, by simp [new], ?_, by simp⟩, hnext.1⟩
  rw [List.length_nil, Nat.add_zero]
  exact (Nat.mod_eq_of_lt hnext.2).symm

/-! ### Refusals -/

/-- The user reference names a live client order. -/
def Names (v : Venue) (user : ℕ) : Prop := ∃ ref l, (ref, l) ∈ v.live.entries ∧ l.client = true ∧ l.userRef = user

/-- Requests about the user reference are refused: the answer is all that they change. -/
structure Refuses (v : Venue) (user : ℕ) : Prop where
  cancel : ∀ m : Ouch.CancelOrder, m.userRefNum = user → v.onCancelOrder m = v.emitCancelReject user
  replace : ∀ m : Ouch.ReplaceOrder, m.origUserRefNum = user → ∃ r, v.onReplaceOrder m = v.emitRejected m.userRefNum r

/-- Tables in agreement find no order for a reference that names none. -/
theorem Traced.refuses (h : Traced first handed v) {user : ℕ} (hne : user ≠ 0) (hnot : ¬ v.Names user) :
    v.Refuses user := by
  have hfind : ∀ ref, v.byUserRef.get? user = some ref → v.live.get? ref = none := by
    intro ref href
    rw [← FlatHashMap.lookup_eq_get? _ hne] at href
    obtain ⟨hzero, -, hclient⟩ := h.users user ref href
    rw [← FlatHashMap.lookup_eq_get? _ hzero]
    refine Option.eq_none_iff_forall_ne_some.mpr fun l hl => hnot ?_
    exact ⟨ref, l, h.keyed.1.lookup_eq_some_iff.mp hl, hclient l hl⟩
  refine ⟨fun m hm => ?_, fun m hm => ⟨.replaceNotAllowed, ?_⟩⟩
  · unfold Venue.onCancelOrder
    simp only
    rw [hm]
    cases href : v.byUserRef.get? user with
    | none => rfl
    | some ref =>
        simp only
        rw [hfind ref href]
  · unfold Venue.onReplaceOrder
    simp only
    rw [hm]
    cases href : v.byUserRef.get? user with
    | none => rfl
    | some ref =>
        simp only
        rw [hfind ref href]

end

/-- **A request for an order that is gone is refused** and changes nothing, whatever the
calls before it were: the user reference is not zero, the tape has added no order of the
venue's and the references have not run out. -/
theorem unknown_refused (symbol : List UInt8) (stockLocate : ℕ) (minTick maxTick : ℤ)
    (wirePerTick firstOrderRef liveReserve stray : ℕ) (hfirst : firstOrderRef < 2 ^ 64) (ops : List Op)
    (htape : TapeApart (new symbol stockLocate minTick maxTick wirePerTick firstOrderRef liveReserve stray) ops)
    (hwrap : NoWrap (new symbol stockLocate minTick maxTick wirePerTick firstOrderRef liveReserve stray) ops)
    (user : ℕ) (hne : user ≠ 0)
    (hnot : ¬ ((new symbol stockLocate minTick maxTick wirePerTick firstOrderRef liveReserve stray).run ops).Names user) :
    ((new symbol stockLocate minTick maxTick wirePerTick firstOrderRef liveReserve stray).run ops).Refuses user := by
  obtain ⟨hnew, hpos⟩ := traced_new symbol stockLocate minTick maxTick hfirst
  exact (traced_run hnew hpos htape hwrap).refuses hne hnot

/-- The second client's order of the sample was replaced. -/
theorem unknown_refused_sample : (sampleVenue.run sampleOps).Refuses 2 := by
  have hnone : ∀ e ∈ (sampleVenue.run sampleOps).live.entries, e.2.client = true → e.2.userRef ≠ 2 := by decide +kernel
  exact unknown_refused [65] 1 1 100000 100 (2 ^ 62) 16 0 (by decide) sampleOps
    (tapeApart_of_split (by decide +kernel)) sampleOps_orderly.2.2 2 (by decide)
    fun ⟨ref, l, hmem, hclient, huser⟩ => hnone (ref, l) hmem hclient huser

/-- A replacement of the order under the user reference zero, which nobody has entered,
takes a reference for a new order. -/
theorem zero_not_refused : ¬ sampleVenue.Names 0 ∧ ¬ sampleVenue.Refuses 0 := by
  have hnone : ∀ e ∈ sampleVenue.live.entries, e.2.client ≠ true := by decide +kernel
  refine ⟨fun ⟨ref, l, hmem, hclient, _⟩ => hnone (ref, l) hmem hclient, fun h => ?_⟩
  obtain ⟨r, hr⟩ := h.replace ⟨0, 7, 10, 4900⟩ rfl
  have htaken : (sampleVenue.onReplaceOrder ⟨0, 7, 10, 4900⟩).nextOrderRef = sampleVenue.nextOrderRef + 1 := by
    decide +kernel
  rw [hr] at htaken
  exact absurd htaken (Nat.ne_of_lt (Nat.lt_succ_self _))

end TickToTrade.Sim.Venue
