import TickToTrade.Sim.RestingOrders

/-!
# Resting orders along a run

Every call keeps the tables in agreement with the engine (`Shelved.step`), so that a run
does (`shelved_run`): as long as the references that the venue takes are new and the tape's
new orders have neither the reference zero nor one of the venue's.
-/

namespace TickToTrade.Sim.Venue

open Util

section

variable {own tape own' tape' : Set ℕ} {v w : Venue} {A : Sides ℕ} {l : LiveOrder} {ref q : ℕ} {tick : ℤ}

/-! ### Requests -/

theorem Shelved.takeRef (h : Shelved own tape v) : Shelved own tape v.takeRef.2 :=
  let ⟨A, hf, hb⟩ := h
  ⟨A, hf.congr rfl rfl, hb⟩

/-- The references that a call takes are new. -/
def Fresh (own tape : Set ℕ) (v w : Venue) : Prop :=
  w.nextOrderRef ≠ v.nextOrderRef → v.nextOrderRef ≠ 0 ∧ v.nextOrderRef ∉ own ∧ v.nextOrderRef ∉ tape

/-- The references that the venue has handed out after a call. -/
def handed (own : Set ℕ) (v w : Venue) : Set ℕ := own ∪ {ref | w.nextOrderRef ≠ v.nextOrderRef ∧ ref = v.nextOrderRef}

theorem subset_handed (own : Set ℕ) (v w : Venue) : own ⊆ handed own v w := Set.subset_union_left

theorem insert_subset_handed (own : Set ℕ) (h : w.nextOrderRef ≠ v.nextOrderRef) :
    insert v.nextOrderRef own ⊆ handed own v w :=
  Set.insert_subset_iff.mpr ⟨Set.mem_union_right _ ⟨h, rfl⟩, subset_handed own v w⟩

theorem Shelved.onEnterOrder (h : Shelved own tape v) (m : Ouch.EnterOrder) (hfresh : Fresh own tape v (v.onEnterOrder m)) :
    Shelved (handed own v (v.onEnterOrder m)) tape (v.onEnterOrder m) := by
  have hreject : ∀ {x : Venue} (r : Ouch.RejectReason),
      Shelved (handed own v x) tape (v.emitRejected m.userRefNum r) := fun r =>
    (h.tells (Tells.sendOe v _)).mono (subset_handed ..) (Set.Subset.refl _)
  revert hfresh
  unfold Venue.onEnterOrder
  simp only
  cases parseSide m.side with
  | none => exact fun _ => hreject _
  | some s =>
      simp only
      by_cases hq : m.quantity = 0
      · rw [if_pos hq]
        exact fun _ => hreject _
      rw [if_neg hq]
      by_cases hsymbol : m.symbol ≠ v.symbol
      · rw [if_pos hsymbol]
        exact fun _ => hreject _
      rw [if_neg hsymbol]
      cases v.validPrice m.price with
      | none => exact fun _ => hreject _
      | some tick =>
          simp only
          have haccept : ∀ st, Shelved own tape (v.takeRef.2.emitAccepted m v.nextOrderRef st) := fun st =>
            h.takeRef.tells (Tells.sendOe _ _)
          by_cases hioc : m.timeInForce = .ioc
          · rw [if_pos hioc]
            exact fun _ => ((haccept .dead).processImmediate ..).mono (subset_handed ..) (Set.Subset.refl _)
          · rw [if_neg hioc]
            intro hfresh
            have hnext := nextOrderRef_processOrder (v.takeRef.2.emitAccepted m v.nextOrderRef .live) v.nextOrderRef s tick
              m.quantity true m.userRefNum
            have hne := fun he => inc64_ne v.nextOrderRef (hnext.symm.trans he)
            obtain ⟨hzero, hown, htape⟩ := hfresh hne
            exact ((haccept .live).processOrder hzero hown htape ..).mono (insert_subset_handed own hne) (Set.Subset.refl _)

theorem Shelved.onCancelOrder (h : Shelved own tape v) (m : Ouch.CancelOrder) : Shelved own tape (v.onCancelOrder m) := by
  have hreject : Shelved own tape (v.emitCancelReject m.userRefNum) := h.tells (Tells.sendOe v _)
  unfold Venue.onCancelOrder
  simp only
  cases v.byUserRef.get? m.userRefNum with
  | none => exact hreject
  | some ref =>
      simp only
      cases hl : v.live.get? ref with
      | none => exact hreject
      | some l =>
          simp only
          by_cases hge : m.quantity ≥ v.qtyAt l.handle
          · rw [if_pos hge]
            exact hreject
          rw [if_neg hge]
          by_cases hzero : m.quantity = 0
          · rw [if_pos hzero]
            exact h.dropClient hl ((Tells.sendMd _ _).trans (Tells.sendOe _ _))
          · rw [if_neg hzero]
            exact (h.engineReduce hl (Nat.pos_of_ne_zero hzero)).tells ((Tells.sendMd _ _).trans (Tells.sendOe _ _))

/-- The new order of a replacement trades and rests. -/
theorem Shelved.arriveReplaced (h : Shelved own tape v) (hne : ref ≠ 0) (hown : ref ∉ own) (htape : ref ∉ tape)
    (origRef : ℕ) (s : Side) (tick : ℤ) (q user : ℕ) :
    Shelved (insert ref own) tape (v.arriveReplaced origRef ref s tick q user) := by
  unfold Venue.arriveReplaced
  cases hmarket : v.isMarketable s tick with
  | true => exact (h.tells (Tells.sendMd v _)).processOrder hne hown htape ..
  | false =>
      have hquiet := add_quiet (q := q) hmarket ref
      obtain ⟨A, hf, hb⟩ := h
      rw [if_neg (by decide)]
      by_cases hout : q = 0 ∨ ¬ v.engine.InRange tick
      · have hnone : v.engine.add ref s tick q = (none, v.engine, []) := if_pos hout
        rw [hnone]
        exact ⟨A, (hf.tells (Tells.sendMd v _)).mono (Set.subset_insert ..) (Set.Subset.refl _), hb⟩
      · obtain ⟨hq, hp⟩ := not_or.mp hout
        obtain ⟨k, b, left, ts, A₁, heq, hts, -, -, hend⟩ := hb.add ref s hq (not_not.mp hp)
        rw [heq] at hquiet ⊢
        obtain rfl : ts = [] := hquiet
        cases hts
        have hsent : Filed own tape (emitItchReplace { v with engine := b } origRef ref q tick) A :=
          (hf.congr rfl rfl : Filed own tape { v with engine := b } A).tells (Tells.sendMd _ _)
        obtain ⟨rfl, -, hb₁⟩ | ⟨k, rfl, hleft, hkey, hb₁, -⟩ := hend
        · exact ⟨A, hsent.mono (Set.subset_insert ..) (Set.Subset.refl _), hb₁⟩
        · exact ⟨_, hsent.restNew (o := ⟨k, ref, tick, left⟩) hne hown htape hleft hkey true user, hb₁⟩

theorem Shelved.onReplaceOrder (h : Shelved own tape v) (m : Ouch.ReplaceOrder)
    (hfresh : Fresh own tape v (v.onReplaceOrder m)) :
    Shelved (handed own v (v.onReplaceOrder m)) tape (v.onReplaceOrder m) := by
  have hreject : ∀ {x : Venue} (r : Ouch.RejectReason),
      Shelved (handed own v x) tape (v.emitRejected m.userRefNum r) := fun r =>
    (h.tells (Tells.sendOe v _)).mono (subset_handed ..) (Set.Subset.refl _)
  revert hfresh
  unfold Venue.onReplaceOrder
  simp only
  cases v.byUserRef.get? m.origUserRefNum with
  | none => exact fun _ => hreject _
  | some origRef =>
      simp only
      cases hl : v.live.get? origRef with
      | none => exact fun _ => hreject _
      | some l =>
          simp only
          by_cases hq : m.quantity = 0
          · rw [if_pos hq]
            exact fun _ => hreject _
          rw [if_neg hq]
          cases v.validPrice m.price with
          | none => exact fun _ => hreject _
          | some tick =>
              have hgone := h.dropClient hl (Tells.refl _)
              have href : ((v.engineCancel l.handle).2.dropClient origRef l).nextOrderRef = v.nextOrderRef :=
                (Erases.stepwise.trans (Erases.stepwise.engineCancel ..) (Erases.stepwise.dropClient ..)).nextOrderRef
              simp only
              generalize (v.engineCancel l.handle).2.dropClient origRef l = w at hgone href ⊢
              have hreplaced : Shelved own tape (w.takeRef.2.emitReplaced m w.nextOrderRef l.side) :=
                hgone.takeRef.tells (Tells.sendOe _ _)
              have harrive : ∀ x, x = Venue.arriveReplaced (w.takeRef.2.emitReplaced m w.nextOrderRef l.side) origRef
                  w.nextOrderRef l.side tick m.quantity m.userRefNum → Fresh own tape v x → Shelved (handed own v x) tape x := by
                intro x hx hfresh
                have hnext : x.nextOrderRef = inc64 v.nextOrderRef := by
                  rw [hx, ← href]
                  exact nextOrderRef_arriveReplaced ..
                have hne : x.nextOrderRef ≠ v.nextOrderRef := by
                  rw [hnext]
                  exact inc64_ne _
                obtain ⟨hzero, hown, htape⟩ := hfresh hne
                rw [← href] at hzero hown htape
                have hall := hreplaced.arriveReplaced hzero hown htape origRef l.side tick m.quantity m.userRefNum
                rw [← hx, href] at hall
                exact hall.mono (insert_subset_handed own hne) (Set.Subset.refl _)
              exact harrive _ rfl

/-! ### Synthetic orders and the tape -/

theorem Shelved.injectSynthetic (h : Shelved own tape v) (s : Side) (tick : ℤ) (q : ℕ)
    (hfresh : Fresh own tape v (v.injectSynthetic s tick q).2) :
    Shelved (handed own v (v.injectSynthetic s tick q).2) tape (v.injectSynthetic s tick q).2 := by
  have hne : (v.injectSynthetic s tick q).2.nextOrderRef ≠ v.nextOrderRef := by
    rw [nextOrderRef_injectSynthetic]
    exact inc64_ne _
  obtain ⟨hzero, hown, htape⟩ := hfresh hne
  exact (h.takeRef.processOrder hzero hown htape s tick q false 0).mono (insert_subset_handed own hne) (Set.Subset.refl _)

/-- Any order can be cancelled as a synthetic one. -/
theorem Shelved.cancelSynthetic (h : Shelved own tape v) (ref : ℕ) : Shelved own tape (v.cancelSynthetic ref) := by
  obtain ⟨A, hf, hb⟩ := h
  unfold Venue.cancelSynthetic
  obtain ⟨herase, -⟩ | ⟨l, m, herase, hl, hwf, hlookup⟩ := hf.liveWF.lookup_erase ref
  · rw [herase]
    exact ⟨A, hf, hb⟩
  · rw [herase]
    simp only
    obtain ⟨o, ho, rfl, hhandle, -, -⟩ := hf.order_of_live hb hl
    obtain ⟨b, heq, hb', -⟩ := hb.cancel ho
    simp only [hhandle, Venue.engineCancel, heq]
    exact ⟨_, hf.leave ho hwf (hf.tidy.erase herase) hlookup (.inl rfl), hb'⟩

/-- A new order of the tape trades with clients and rests. -/
theorem Shelved.mirrorAdd (h : Shelved own tape v) (hne : ref ≠ 0) (hown : ref ∉ own) (s : Side) (wire q : ℕ) :
    Shelved own (insert ref tape) (v.mirrorAdd ref s wire q) := by
  have hmono : ∀ {x : Venue}, Shelved own tape x → Shelved own (insert ref tape) x := fun hx =>
    hx.mono (Set.Subset.refl _) (Set.subset_insert ..)
  unfold Venue.mirrorAdd
  simp only
  replace h := h.tells (Tells.count v fun m => { m with adds := inc64 m.adds })
  generalize (v.count fun m => { m with adds := inc64 m.adds }) = w at h ⊢
  cases w.validPrice wire with
  | none => exact hmono (h.tells (Tells.count w _))
  | some tick =>
      simp only
      have hcross : Shelved own tape (if w.clientRefs ≠ [] then w.crossClients s tick q else (q, w)).2 := by
        split_ifs
        · exact h.crossLoop ..
        · exact h
      generalize (if w.clientRefs ≠ [] then w.crossClients s tick q else (q, w)) = x at hcross ⊢
      obtain ⟨rem, x⟩ := x
      simp only at hcross ⊢
      by_cases hrem : rem = 0
      · rw [if_pos hrem]
        exact hmono hcross
      rw [if_neg hrem]
      obtain ⟨A, hf, hb⟩ := hcross
      by_cases hp : x.engine.InRange tick
      · obtain ⟨k, b, heq, hkey, hb', -⟩ := hb.place ref s hrem hp
        rw [heq]
        have hstart : Filed own tape { x with engine := b } A := hf.congr rfl rfl
        have hlive : (setLive { x with engine := b } ref ⟨some k, s, tick, false, 0⟩).live =
            x.live.insertOrAssign ref ⟨some k, s, tick, false, 0⟩ := rfl
        exact ⟨_, hstart.rest (o := ⟨k, ref, tick, rem⟩) (Set.Subset.refl _) (Set.subset_insert ..) hne
          (.inr (Set.mem_insert ..)) (Nat.pos_of_ne_zero hrem) hkey (hf.not_listed hown) hlive rfl nofun, hb'⟩
      · have hnone : x.engine.place ref s tick rem = (none, x.engine) := if_pos (.inr hp)
        rw [hnone]
        exact hmono ⟨A, hf, hb⟩

theorem Shelved.mirrorExecute (h : Shelved own tape v) (ref shares : ℕ) : Shelved own tape (v.mirrorExecute ref shares) := by
  unfold Venue.mirrorExecute
  simp only
  replace h := h.tells (Tells.count v fun m => { m with executes := inc64 m.executes })
  generalize (v.count fun m => { m with executes := inc64 m.executes }) = w at h ⊢
  cases hl : w.live.get? ref with
  | none => exact h.tells (Tells.count w _)
  | some l =>
      simp only
      split_ifs
      · exact (h.shadowLoop ..).takeShares ((h.copies hl).shadowLoop h ..) shares
      · exact h.takeShares (h.copies hl) shares

theorem Shelved.mirrorCancel (h : Shelved own tape v) (ref shares : ℕ) : Shelved own tape (v.mirrorCancel ref shares) := by
  unfold Venue.mirrorCancel
  simp only
  replace h := h.tells (Tells.count v fun m => { m with cancels := inc64 m.cancels })
  generalize (v.count fun m => { m with cancels := inc64 m.cancels }) = w at h ⊢
  cases hl : w.live.get? ref with
  | none => exact h.tells (Tells.count w _)
  | some l => exact h.takeShares (h.copies hl) shares

theorem Shelved.mirrorDelete (h : Shelved own tape v) (ref : ℕ) : Shelved own tape (v.mirrorDelete ref) := by
  unfold Venue.mirrorDelete
  simp only
  replace h := h.tells (Tells.count v fun m => { m with deletes := inc64 m.deletes })
  generalize (v.count fun m => { m with deletes := inc64 m.deletes }) = w at h ⊢
  cases hl : w.live.get? ref with
  | none => exact h.tells (Tells.count w _)
  | some l => exact h.removeReal hl

theorem Shelved.mirrorReplace (h : Shelved own tape v) (hne : ref ≠ 0) (hown : ref ∉ own) (orig shares wire : ℕ) :
    Shelved own (insert ref tape) (v.mirrorReplace orig ref shares wire) := by
  unfold Venue.mirrorReplace
  simp only
  replace h := h.tells (Tells.count v fun m => { m with replaces := inc64 m.replaces })
  generalize (v.count fun m => { m with replaces := inc64 m.replaces }) = w at h ⊢
  cases hl : w.live.get? orig with
  | none => exact (h.tells (Tells.count w _)).mono (Set.Subset.refl _) (Set.subset_insert ..)
  | some l => exact ((h.removeReal hl).tells (Tells.count _ _)).mirrorAdd hne hown ..

/-! ### The end of a day -/

/-- A reference whose order is gone leaves the clients' list. -/
theorem Filed.dropLast (h : Filed own tape v A) (hlast : v.clientRefs.getLast? = some ref) (hnone : v.live.get? ref = none) :
    Filed own tape { v with clientRefs := v.clientRefs.dropLast } A := by
  have hsplit : v.clientRefs = v.clientRefs.dropLast ++ [ref] := by
    rw [List.dropLast_append_getLast? ref hlast]
  have hne := (h.refs ref (List.mem_of_getLast? hlast)).1
  have hmem : ∀ r, r ≠ ref → (r ∈ v.clientRefs ↔ r ∈ v.clientRefs.dropLast) := by
    intro r hr
    conv_lhs => rw [hsplit]
    simp [hr]
  have hsub : ∀ r ∈ v.clientRefs.dropLast, r ∈ v.clientRefs := fun r hr => List.mem_of_mem_dropLast hr
  refine { h with
    clients := fun r l hl => ?_
    refs := fun r hr => h.refs r (hsub r hr)
    nodup := h.nodup.sublist (List.dropLast_sublist _)
    alone := fun r hr => h.alone r (hsub r hr)
    entered := fun r hr => h.entered r (hsub r hr) }
  rw [h.clients r l hl]
  refine hmem r ?_
  rintro rfl
  rw [FlatHashMap.lookup_eq_get? _ hne, hnone] at hl
  cases hl

theorem Shelved.closeClients (h : Shelved own tape v) (fuel : ℕ) : Shelved own tape (Venue.closeClients fuel v) := by
  induction fuel generalizing v with
  | zero => exact h
  | succ fuel ih =>
      unfold Venue.closeClients
      cases hlast : v.clientRefs.getLast? with
      | none => exact h
      | some ref =>
          simp only
          cases hl : v.live.get? ref with
          | none =>
              obtain ⟨A, hf, hb⟩ := h
              exact ih ⟨A, hf.dropLast hlast hl, hb⟩
          | some l => exact ih (h.dropClient hl ((Tells.sendMd _ _).trans (Tells.sendOe _ _)))

theorem Shelved.resetDay (h : Shelved own tape v) : Shelved own tape v.resetDay := by
  obtain ⟨A, hf, -⟩ := h.closeClients v.clientRefs.length
  unfold Venue.resetDay
  simp only
  generalize Venue.closeClients v.clientRefs.length v = w at hf
  refine ⟨fun _ => [], ?_, OrderBook.queued_new ..⟩
  exact
    { hf with
      liveWF := FlatHashMap.wf_clear _
      tidy := FlatHashMap.tidy_clear _
      distinct := by simp [Sides.Distinct]
      pos := by simp
      nonzero := by simp
      ids := by simp
      live := by simp
      clients := by simp
      alone := by simp
      entered := by simp }

/-! ### Runs -/

/-- **Every call keeps the tables in agreement with the engine**, if the references that it
takes are new and the tape's new order has neither the reference zero nor one of the
venue's. -/
theorem Shelved.step (h : Shelved own tape v) (op : Op) (hfresh : Fresh own tape v (v.step op))
    (htape : ∀ ref ∈ op.tapeNew, ref ≠ 0 ∧ ref ∉ own) :
    Shelved (handed own v (v.step op)) (tape ∪ {ref | ref ∈ op.tapeNew}) (v.step op) := by
  have hsame : ∀ {x : Venue}, Shelved own tape x → Shelved (handed own v x) (tape ∪ {ref | ref ∈ op.tapeNew}) x :=
    fun hx => hx.mono (subset_handed ..) Set.subset_union_left
  have hadds : ∀ {x : Venue} {ref : ℕ}, ref ∈ op.tapeNew → Shelved own (insert ref tape) x →
      Shelved (handed own v x) (tape ∪ {ref | ref ∈ op.tapeNew}) x := fun hmem hx =>
    hx.mono (subset_handed ..) (Set.insert_subset_iff.mpr ⟨Set.mem_union_right _ hmem, Set.subset_union_left⟩)
  cases op with
  | request m =>
      cases m with
      | enterOrder m => exact (h.onEnterOrder m hfresh).mono (Set.Subset.refl _) Set.subset_union_left
      | replaceOrder m => exact (h.onReplaceOrder m hfresh).mono (Set.Subset.refl _) Set.subset_union_left
      | cancelOrder m => exact hsame (h.onCancelOrder m)
  | injectSynthetic s tick q =>
      exact (h.injectSynthetic s tick q hfresh).mono (Set.Subset.refl _) Set.subset_union_left
  | cancelSynthetic ref => exact hsame (h.cancelSynthetic ref)
  | mirrorAdd ref s wire q =>
      have hmem : ref ∈ (Op.mirrorAdd ref s wire q).tapeNew := List.mem_cons_self
      obtain ⟨hne, hown⟩ := htape ref hmem
      exact hadds hmem (h.mirrorAdd hne hown s wire q)
  | mirrorExecute ref shares => exact hsame (h.mirrorExecute ref shares)
  | mirrorCancel ref shares => exact hsame (h.mirrorCancel ref shares)
  | mirrorDelete ref => exact hsame (h.mirrorDelete ref)
  | mirrorReplace orig ref shares wire =>
      have hmem : ref ∈ (Op.mirrorReplace orig ref shares wire).tapeNew := List.mem_cons_self
      obtain ⟨hne, hown⟩ := htape ref hmem
      exact hadds hmem (h.mirrorReplace hne hown orig shares wire)
  | resetDay => exact hsame h.resetDay

/-- The tape's new orders have neither the reference zero nor one that the venue hands
out. -/
def TapeForeign (v : Venue) (ops : List Op) : Prop := ∀ op ∈ ops, ∀ ref ∈ op.tapeNew, ref ≠ 0 ∧ ref ∉ v.handedOut ops

instance (v : Venue) (ops : List Op) : Decidable (TapeForeign v ops) :=
  inferInstanceAs (Decidable (∀ op ∈ ops, ∀ ref ∈ op.tapeNew, ref ≠ 0 ∧ ref ∉ v.handedOut ops))

theorem TapeForeign.of_append {ops ops' : List Op} (h : TapeForeign v (ops ++ ops')) : TapeForeign v ops := by
  intro op hop ref href
  obtain ⟨hne, hout⟩ := h op (List.mem_append_left _ hop) ref href
  rw [handedOut_append] at hout
  exact ⟨hne, fun hmem => hout (List.mem_append_left _ hmem)⟩

theorem TapeForeign.apart {ops : List Op} (h : TapeForeign v ops) : TapeApart v ops := by
  rintro pre op post rfl ref href hmem
  have hout := (h op (by simp) ref href).2
  rw [handedOut_append] at hout
  exact hout (List.mem_append_left _ hmem)

/-- **Along a run the tables stay in agreement with the engine.** The induction is on the
run, from its end. -/
theorem shelved_run (h : Shelved ∅ ∅ v) (ht : Traced v.nextOrderRef [] v) (hpos : 0 < v.nextOrderRef) {ops : List Op}
    (htape : TapeForeign v ops) (hwrap : NoWrap v ops) :
    Shelved {ref | ref ∈ v.handedOut ops} {ref | ∃ op ∈ ops, ref ∈ op.tapeNew} (v.run ops) := by
  induction ops using List.reverseRecOn with
  | nil => exact h.mono (Set.empty_subset _) (Set.empty_subset _)
  | append_singleton ops op ih =>
      have hs := ih htape.of_append hwrap.of_append
      have htraced := traced_run ht hpos htape.of_append.apart hwrap.of_append
      have hmem : op ∈ ops ++ [op] := List.mem_append_right _ List.mem_cons_self
      have hfresh : Fresh {ref | ref ∈ v.handedOut ops} {ref | ∃ op ∈ ops, ref ∈ op.tapeNew} (v.run ops)
          ((v.run ops).step op) := by
        intro hne
        have hone : (v.run ops).handedOut [op] = [(v.run ops).nextOrderRef] := by rw [handedOut_one, if_neg hne]
        have hlt : v.nextOrderRef + (v.handedOut ops).length < 2 ^ 64 := by
          rw [NoWrap, handedOut_append, hone, List.length_append, List.length_singleton] at hwrap
          omega
        have hnext := htraced.next
        rw [Nat.mod_eq_of_lt hlt] at hnext
        refine ⟨(htraced.unused hpos hlt).1, fun hown => ?_, ?_⟩
        · have := htraced.handed_lt _ hown
          omega
        · rintro ⟨op', hop', hnew⟩
          have hout := (htape op' (List.mem_append_left _ hop') _ hnew).2
          rw [handedOut_append, hone] at hout
          exact hout (List.mem_append_right _ List.mem_cons_self)
      have hstep := hs.step op hfresh fun ref href => by
        obtain ⟨hne, hout⟩ := htape op hmem ref href
        rw [handedOut_append] at hout
        exact ⟨hne, fun hown => hout (List.mem_append_left _ hown)⟩
      rw [run_append]
      refine hstep.mono (Set.union_subset ?_ ?_) (Set.union_subset ?_ ?_)
      · intro ref href
        change ref ∈ v.handedOut (ops ++ [op])
        rw [handedOut_append]
        exact List.mem_append_left _ href
      · rintro ref ⟨hne, rfl⟩
        change (v.run ops).nextOrderRef ∈ v.handedOut (ops ++ [op])
        rw [handedOut_append, handedOut_one, if_neg hne]
        exact List.mem_append_right _ List.mem_cons_self
      · rintro ref ⟨op', hop', hnew⟩
        exact ⟨op', List.mem_append_left _ hop', hnew⟩
      · exact fun ref href => ⟨op, hmem, href⟩

/-- A new venue. -/
theorem shelved_new (symbol : List UInt8) (stockLocate : ℕ) (minTick maxTick : ℤ)
    (wirePerTick firstOrderRef liveReserve stray : ℕ) :
    Shelved ∅ ∅ (new symbol stockLocate minTick maxTick wirePerTick firstOrderRef liveReserve stray) :=
  ⟨fun _ => [], ⟨FlatHashMap.wf_empty _, FlatHashMap.tidy_empty _, by simp [Sides.Distinct], by simp, by simp, by simp,
    by simp [new], by simp [new], by simp [new], List.nodup_nil, by simp [new], by simp [new]⟩,
    OrderBook.queued_new ..⟩

end

end TickToTrade.Sim.Venue
