import TickToTrade.Sim.VenueRequests

/-!
# Runs of a venue

What a call needs of the state before it (`Ready`) and what comes of it (`Outcome`), for
every call. A run is orderly when its clients and its tape keep to the references that
they were given (`Orderly`); along an orderly run every call is ready, so that the tables
follow the desk (`Kept`).
-/

namespace TickToTrade.Sim

open Util

namespace Venue

namespace Op

/-- The user references that a request names. -/
def users : Op → List ℕ
  | request (.enterOrder m) => [m.userRefNum]
  | request (.replaceOrder m) => [m.origUserRefNum, m.userRefNum]
  | request (.cancelOrder m) => [m.userRefNum]
  | _ => []

/-- The user reference of a new order. -/
def newUsers : Op → List ℕ
  | request (.enterOrder m) => [m.userRefNum]
  | request (.replaceOrder m) => [m.userRefNum]
  | _ => []

/-- The order references that the tape names. -/
def tapeRefs : Op → List ℕ
  | mirrorAdd ref .. => [ref]
  | mirrorExecute ref _ => [ref]
  | mirrorCancel ref _ => [ref]
  | mirrorDelete ref => [ref]
  | mirrorReplace origRef newRef .. => [origRef, newRef]
  | _ => []

/-- The order reference of a synthetic order that a call cancels. -/
def cancelled : Op → List ℕ
  | cancelSynthetic ref => [ref]
  | _ => []

/-- The order reference of a new order of the tape. -/
def tapeNew : Op → List ℕ
  | mirrorAdd ref .. => [ref]
  | mirrorReplace _ newRef .. => [newRef]
  | _ => []

theorem tapeNew_subset (op : Op) : op.tapeNew ⊆ op.tapeRefs := by
  unfold tapeNew tapeRefs
  split <;> simp

end Op

/-! ### Calls -/

section

variable {exact : Prop} {v w : Venue} {d d' : Desk ℕ} {op : Op}

/-- What a call needs of the state before it. -/
structure Ready (exact : Prop) (v : Venue) (d : Desk ℕ) (op : Op) : Prop where
  unused : (v.step op).nextOrderRef ≠ v.nextOrderRef → Unused v d
  users : ∀ u ∈ op.users, u ≠ 0
  idle : ∀ u ∈ op.newUsers, d.Idle u
  tape : ∀ ref ∈ op.tapeRefs, ref ≠ 0 ∧ d.owner ref = none
  unique : exact → ∀ ref ∈ op.tapeNew, ∀ s, ∀ o ∈ d.orders s, o.id ≠ ref
  synthetic : ∀ ref, op = .cancelSynthetic ref → d.owner ref = none

/-- Which orders a call accepts and which come to rest. -/
inductive Outcome (v : Venue) (op : Op) (w : Venue) (accepted : List (ℕ × ℕ)) (arrivals : List (ℕ × Option ℕ)) : Prop
  /-- No reference is taken. -/
  | usual (href : w.nextOrderRef = v.nextOrderRef) (hacc : accepted = [])
      (harr : ∀ a ∈ arrivals, a.1 ∈ op.tapeNew ∧ a.2 = none)
  | injects (href : w.nextOrderRef = inc64 v.nextOrderRef) (hop : ∃ s tick q, op = .injectSynthetic s tick q)
      (hacc : accepted = []) (harr : ∀ a ∈ arrivals, a = (v.nextOrderRef, none))
  | accepts (user : ℕ) (href : w.nextOrderRef = inc64 v.nextOrderRef) (huser : op.newUsers = [user])
      (hacc : accepted = [(user, v.nextOrderRef)]) (harr : ∀ a ∈ arrivals, a = (v.nextOrderRef, some user))

/-- The orders that leave for the new order of a call: at most the one that is replaced. -/
def Gone (d : Desk ℕ) (op : Op) (gone : List (ℕ × ℕ)) : Prop :=
  gone = [] ∨ ∃ m q, op = .request (.replaceOrder m) ∧ d.Holds m.origUserRefNum q ∧ gone = [(m.origUserRefNum, q)]

/-- What comes of a call. -/
def Effect (exact : Prop) (v : Venue) (d : Desk ℕ) (op : Op) (w : Venue) (d' : Desk ℕ) : Prop :=
  ∃ xs, Follows exact { v with nextOrderRef := w.nextOrderRef } d xs w d' ∧
    Outcome v op w (Desk.acceptances xs) (Desk.arrivals xs) ∧ Gone d op (Desk.departures xs) ∧
    (∀ u, u ∉ op.newUsers → d'.incoming u = d.incoming u) ∧ (v.Fair → d'.incoming = d.incoming)

theorem Calms.effect (h : Calms exact v d w d') (op : Op) : Effect exact v d op w d' := by
  obtain ⟨xs, hf, hxs, hin⟩ := h
  refine ⟨xs, by rw [hf.steady.nextOrderRef]; exact hf,
    .usual hf.steady.nextOrderRef (Desk.acceptances_calm hxs) (by simp [Desk.arrivals_calm hxs]),
    .inl (Desk.departures_of_acceptances (Desk.acceptances_calm hxs)), fun u _ => ?_, fun _ => hin⟩
  rw [hin]

theorem Lands.effect {ref : ℕ} (h : Lands exact v d ref none w d') (hop : ref ∈ op.tapeNew) :
    Effect exact v d op w d' := by
  obtain ⟨xs, hf, hacc, harr, hin⟩ := h
  refine ⟨xs, by rw [hf.steady.nextOrderRef]; exact hf, .usual hf.steady.nextOrderRef hacc fun a ha => ?_,
    .inl (Desk.departures_of_acceptances hacc), fun u _ => ?_, fun _ => hin⟩
  · rw [harr a ha]
    exact ⟨hop, rfl⟩
  · rw [hin]
    rfl

theorem Answers.effect {user : ℕ} {gone : List (ℕ × ℕ)} (h : Answers exact v d user gone w d')
    (hop : op.newUsers = [user]) (hidle : d.Idle user) (hgone : Gone d op gone) : Effect exact v d op w d' := by
  obtain ⟨xs, hf, ⟨href, hxs, hin⟩ | ⟨href, hacc, rfl, harr, hother, hfair⟩⟩ := h
  · refine ⟨xs, hf, .usual href (Desk.acceptances_calm hxs) (by simp [Desk.arrivals_calm hxs]),
      .inl (Desk.departures_of_acceptances (Desk.acceptances_calm hxs)), fun u _ => ?_, fun _ => hin⟩
    rw [hin]
  · refine ⟨xs, hf, .accepts user href hop hacc harr, hgone, fun u hu => hother u ?_, fun hf => funext fun u => ?_⟩
    · rintro rfl
      exact hu (by simp [hop])
    · by_cases hu : u = user
      · rw [hu, hfair hf, hidle.2]
      · exact hother u hu

/-- **Every call that is ready has an effect.** -/
theorem step_effect (hs : Stands exact v d) (h : Ready exact v d op) :
    ∃ d', Effect exact v d op (v.step op) d' := by
  cases op with
  | request m =>
      cases m with
      | enterOrder m =>
          have hidle := h.idle m.userRefNum List.mem_cons_self
          obtain ⟨d', ha⟩ := onEnterOrder_answers hs m h.unused (h.users _ List.mem_cons_self) hidle
          exact ⟨d', ha.effect rfl hidle (.inl rfl)⟩
      | replaceOrder m =>
          have hidle := h.idle m.userRefNum List.mem_cons_self
          obtain ⟨q, hheld⟩ := hs.sound.holds m.origUserRefNum
          obtain ⟨d', ha⟩ := onReplaceOrder_answers hs m h.unused (h.users _ List.mem_cons_self)
            (h.users _ (List.mem_cons_of_mem _ List.mem_cons_self)) hidle hheld
          exact ⟨d', ha.effect rfl hidle (.inr ⟨m, q, rfl, hheld, rfl⟩)⟩
      | cancelOrder m =>
          obtain ⟨d', hc⟩ := onCancelOrder_calms hs m (h.users _ List.mem_cons_self)
          exact ⟨d', hc.effect _⟩
  | injectSynthetic s tick q =>
      have href := nextOrderRef_injectSynthetic v s tick q
      obtain ⟨d', xs, hf, hacc, harr, hin⟩ := injectSynthetic_lands hs
        (h.unused (by rw [step, href]; exact inc64_ne _)) s tick q
      refine ⟨d', xs, ?_, .injects href ⟨s, tick, q, rfl⟩ hacc harr, .inl (Desk.departures_of_acceptances hacc),
        fun u _ => ?_, fun _ => hin⟩
      · rw [step, href]
        exact hf
      · rw [hin]
        rfl
  | cancelSynthetic ref =>
      obtain ⟨d', hc⟩ := cancelSynthetic_calms hs (h.synthetic ref rfl)
      exact ⟨d', hc.effect _⟩
  | mirrorAdd ref s wire q =>
      obtain ⟨hne, hnone⟩ := h.tape ref List.mem_cons_self
      obtain ⟨d', hl⟩ := mirrorAdd_lands hs hne hnone (fun he => h.unique he ref List.mem_cons_self) s wire q
      exact ⟨d', hl.effect List.mem_cons_self⟩
  | mirrorExecute ref shares =>
      obtain ⟨hne, hnone⟩ := h.tape ref List.mem_cons_self
      obtain ⟨d', hc⟩ := mirrorExecute_calms hs hne hnone shares
      exact ⟨d', hc.effect _⟩
  | mirrorCancel ref shares =>
      obtain ⟨hne, hnone⟩ := h.tape ref List.mem_cons_self
      obtain ⟨d', hc⟩ := mirrorCancel_calms hs hne hnone shares
      exact ⟨d', hc.effect _⟩
  | mirrorDelete ref =>
      obtain ⟨hne, hnone⟩ := h.tape ref List.mem_cons_self
      obtain ⟨d', hc⟩ := mirrorDelete_calms hs hne hnone
      exact ⟨d', hc.effect _⟩
  | mirrorReplace orig ref shares wire =>
      obtain ⟨horig, horigNone⟩ := h.tape orig List.mem_cons_self
      obtain ⟨hne, hnone⟩ := h.tape ref (List.mem_cons_of_mem _ List.mem_cons_self)
      obtain ⟨d', hl⟩ := mirrorReplace_lands hs horig horigNone hne hnone
        (fun he => h.unique he ref List.mem_cons_self) shares wire
      exact ⟨d', hl.effect List.mem_cons_self⟩
  | resetDay =>
      obtain ⟨d', hc⟩ := resetDay_calms hs
      exact ⟨d', hc.effect _⟩

end

/-! ### Orderly runs -/

theorem run_append (v : Venue) (ops ops' : List Op) : v.run (ops ++ ops') = (v.run ops).run ops' := List.foldl_append ..

/-- The order references that the venue hands out in a run. -/
def handedOut (v : Venue) : List Op → List ℕ
  | [] => []
  | op :: ops =>
      (if (v.step op).nextOrderRef = v.nextOrderRef then [] else [v.nextOrderRef]) ++ handedOut (v.step op) ops

/-- The reference that a call returns. -/
def returned (v : Venue) : Op → List ℕ
  | .injectSynthetic s tick q => [(v.injectSynthetic s tick q).1]
  | _ => []

/-- The references that the calls of a run return. -/
def synthetics (v : Venue) : List Op → List ℕ
  | [] => []
  | op :: ops => v.returned op ++ synthetics (v.step op) ops

theorem handedOut_append (v : Venue) (ops ops' : List Op) :
    v.handedOut (ops ++ ops') = v.handedOut ops ++ (v.run ops).handedOut ops' := by
  induction ops generalizing v with
  | nil => rfl
  | cons op ops ih => rw [List.cons_append, handedOut, handedOut, ih, List.append_assoc]; rfl

theorem synthetics_append (v : Venue) (ops ops' : List Op) :
    v.synthetics (ops ++ ops') = v.synthetics ops ++ (v.run ops).synthetics ops' := by
  induction ops generalizing v with
  | nil => rfl
  | cons op ops ih => rw [List.cons_append, synthetics, synthetics, ih, List.append_assoc]; rfl

/-- The clients use a new user reference for each order, never zero, the tape uses order
references other than zero and other than the venue's, and synthetic orders are cancelled
by the references that were returned for them. -/
structure Orderly (v : Venue) (ops : List Op) : Prop where
  users : ∀ op ∈ ops, ∀ u ∈ op.users, u ≠ 0
  fresh : (ops.flatMap Op.newUsers).Nodup
  tape : ∀ op ∈ ops, ∀ ref ∈ op.tapeRefs, ref ≠ 0 ∧ ref ∉ v.handedOut ops
  synthetics : ∀ pre ref post, ops = pre ++ .cancelSynthetic ref :: post → ref ∈ v.synthetics pre

/-- The synthetic orders of a run, looked at one call after the other. -/
theorem synthetics_of_split {v : Venue} {ops : List Op}
    (h : ∀ i < ops.length, ∀ ref ∈ (ops.getD i .resetDay).cancelled, ref ∈ v.synthetics (ops.take i)) (pre : List Op)
    (ref : ℕ) (post : List Op) (heq : ops = pre ++ .cancelSynthetic ref :: post) : ref ∈ v.synthetics pre := by
  have hat := h pre.length (by simp [heq]) ref (by simp [heq, Op.cancelled])
  simpa [heq] using hat

/-- The counter of order references does not wrap: none is handed out a second time. -/
def NoWrap (v : Venue) (ops : List Op) : Prop := v.nextOrderRef + (v.handedOut ops).length ≤ 2 ^ 64

/-- No order reference is used for two orders of the tape. -/
def TapeUnique (ops : List Op) : Prop := (ops.flatMap Op.tapeNew).Nodup

instance (ops : List Op) : Decidable (TapeUnique ops) := inferInstanceAs (Decidable (ops.flatMap Op.tapeNew).Nodup)

instance (v : Venue) (ops : List Op) : Decidable (NoWrap v ops) :=
  inferInstanceAs (Decidable (v.nextOrderRef + (v.handedOut ops).length ≤ 2 ^ 64))

theorem Orderly.of_append {v : Venue} {ops ops' : List Op} (h : Orderly v (ops ++ ops')) : Orderly v ops where
  users op hop := h.users op (List.mem_append_left _ hop)
  fresh := by
    have := h.fresh
    rw [List.flatMap_append] at this
    exact this.of_append_left
  tape op hop ref href := by
    obtain ⟨hne, hout⟩ := h.tape op (List.mem_append_left _ hop) ref href
    rw [handedOut_append] at hout
    exact ⟨hne, fun hmem => hout (List.mem_append_left _ hmem)⟩
  synthetics pre ref post heq := h.synthetics pre ref (post ++ ops') (by rw [heq]; simp)

theorem NoWrap.of_append {v : Venue} {ops ops' : List Op} (h : NoWrap v (ops ++ ops')) : NoWrap v ops := by
  rw [NoWrap, handedOut_append, List.length_append] at h
  rw [NoWrap]
  omega

/-! ### What an orderly run keeps -/

/-- What holds along an orderly run: `own` are the references that the venue has handed
out, `syn` those of synthetic orders, `tape` those of the tape's orders, and `known` are
the user references of the new orders. -/
structure Kept (exact : Prop) (first : ℕ) (own syn tape known : List ℕ) (v : Venue) (d : Desk ℕ) : Prop
    extends Stands exact v d where
  still : d.Still
  next : v.nextOrderRef = (first + own.length) % 2 ^ 64
  own_lt : ∀ ref ∈ own, ref < first + own.length
  syn_subset : syn ⊆ own
  ids : ∀ s, ∀ o ∈ d.orders s, o.id ∈ own ∨ o.id ∈ tape
  /-- An accepted order has a reference of its own, and is its client's while it rests. -/
  accepted : ∀ u ref, (u, ref) ∈ Desk.answered v.oe → ref ∈ own ∧ ref ∉ syn ∧ u ∈ known ∧ d.Owned ref u
  owners : ∀ ref u, d.owner ref = some u → (u, ref) ∈ Desk.answered v.oe
  incoming : ∀ u, d.incoming u ≠ 0 → u ∈ known

section

variable {exact : Prop} {first : ℕ} {own syn tape known : List ℕ} {v w : Venue} {d d' : Desk ℕ} {op : Op}

/-- The references that a call hands out. -/
theorem handedOut_one (v : Venue) (op : Op) :
    v.handedOut [op] = if (v.step op).nextOrderRef = v.nextOrderRef then [] else [v.nextOrderRef] :=
  List.append_nil _

/-- A call in an orderly run is ready. -/
theorem Kept.ready (h : Kept exact first own syn tape known v d) (hfirst : 0 < first)
    (hwrap : first + own.length + (v.handedOut [op]).length ≤ 2 ^ 64) (hnew : v.nextOrderRef ∈ v.handedOut [op] → v.nextOrderRef ∉ tape)
    (husers : ∀ u ∈ op.users, u ≠ 0) (hfresh : ∀ u ∈ op.newUsers, u ∉ known)
    (htape : ∀ ref ∈ op.tapeRefs, ref ≠ 0 ∧ ref ∉ own) (hunique : exact → ∀ ref ∈ op.tapeNew, ref ∉ tape)
    (hsyn : ∀ ref, op = .cancelSynthetic ref → ref ∈ syn) : Ready exact v d op where
  unused hne := by
    rw [handedOut_one, if_neg hne] at hwrap hnew
    have hnext := h.next
    have hlt : first + own.length < 2 ^ 64 := by simp only [List.length_singleton] at hwrap; omega
    rw [Nat.mod_eq_of_lt hlt] at hnext
    refine ⟨by omega, fun s o ho hid => ?_⟩
    obtain hown | htape := h.ids s o ho
    · have := h.own_lt _ hown
      omega
    · exact hnew List.mem_cons_self (hid ▸ htape)
  users := husers
  idle u hu := by
    refine ⟨fun ref hr => hfresh u hu (h.accepted u ref (h.owners ref u hr)).2.2.1, ?_⟩
    by_contra hne
    exact hfresh u hu (h.incoming u hne)
  tape ref href := by
    refine ⟨(htape ref href).1, ?_⟩
    cases hu : d.owner ref with
    | none => rfl
    | some u => exact absurd (h.accepted u ref (h.owners ref u hu)).1 (htape ref href).2
  unique he ref href s o ho hid := by
    obtain hown | htape' := h.ids s o ho
    · exact (htape ref (op.tapeNew_subset href)).2 (hid ▸ hown)
    · exact hunique he ref href (hid ▸ htape')
  synthetic ref hop := by
    cases hu : d.owner ref with
    | none => rfl
    | some u => exact absurd (hsyn ref hop) (h.accepted u ref (h.owners ref u hu)).2.1

/-- What a call hands out and returns, by its outcome. -/
theorem Outcome.handedOut {acc : List (ℕ × ℕ)} {arr : List (ℕ × Option ℕ)} (h : Outcome v op (v.step op) acc arr) :
    v.handedOut [op] = [] ∧ v.returned op = [] ∧ (v.step op).nextOrderRef = v.nextOrderRef ∧ acc = [] ∧
        (∀ a ∈ arr, a.1 ∈ op.tapeNew ∧ a.2 = none) ∨
      v.handedOut [op] = [v.nextOrderRef] ∧ (v.step op).nextOrderRef = inc64 v.nextOrderRef ∧
        (v.returned op = [v.nextOrderRef] ∧ acc = [] ∧ (∀ a ∈ arr, a = (v.nextOrderRef, none)) ∨
          ∃ user, v.returned op = [] ∧ op.newUsers = [user] ∧ acc = [(user, v.nextOrderRef)] ∧
            ∀ a ∈ arr, a = (v.nextOrderRef, some user)) := by
  rw [handedOut_one]
  cases h with
  | usual href hacc harr =>
      refine .inl ⟨if_pos href, ?_, href, hacc, harr⟩
      cases op with
      | injectSynthetic s tick q =>
          rw [step, nextOrderRef_injectSynthetic] at href
          exact absurd href (inc64_ne _)
      | _ => rfl
  | injects href hop hacc harr =>
      obtain ⟨s, tick, q, rfl⟩ := hop
      exact .inr ⟨if_neg (by rw [href]; exact inc64_ne _), href, .inl ⟨rfl, hacc, harr⟩⟩
  | accepts user href huser hacc harr =>
      refine .inr ⟨if_neg (by rw [href]; exact inc64_ne _), href, .inr ⟨user, ?_, huser, hacc, harr⟩⟩
      cases op <;> first | rfl | cases huser

/-- The answers of a call accept what its deeds accept. -/
theorem answered_step {xs : List (Deed ℕ)} {n : ℕ} (hf : Follows exact { v with nextOrderRef := n } d xs w d') :
    Desk.answered w.oe = Desk.answered v.oe ++ Desk.acceptances xs := by
  have hoe : w.oe = v.oe ++ xs.flatMap (Deed.oe v.wirePerTick) := hf.oe
  rw [hoe, Desk.answered, List.filterMap_append, ← Desk.answered_oe v.wirePerTick xs]
  rfl

/-- **An orderly call keeps it.** -/
theorem Kept.effect (h : Kept exact first own syn tape known v d) (hready : Ready exact v d op)
    (he : Effect exact v d op (v.step op) d') (hwrap : first + own.length + (v.handedOut [op]).length ≤ 2 ^ 64)
    (htape : ∀ ref ∈ op.tapeNew, ref ∉ own) :
    Kept exact first (own ++ v.handedOut [op]) (syn ++ v.returned op) (tape ++ op.tapeNew) (known ++ op.newUsers)
      (v.step op) d' := by
  obtain ⟨xs, hf, hout, -, hin, -⟩ := he
  have hanswered := answered_step hf
  have hunused := hready.unused
  have hnext := h.next
  have hincoming : ∀ u, d'.incoming u ≠ 0 → u ∈ known ++ op.newUsers := by
    intro u hu
    by_cases hmem : u ∈ op.newUsers
    · exact List.mem_append_right _ hmem
    · rw [hin u hmem] at hu
      exact List.mem_append_left _ (h.incoming u hu)
  have hold : ∀ u ref, (u, ref) ∈ Desk.answered v.oe → (∀ c, (ref, c) ∈ Desk.arrivals xs → c = some u) → d'.Owned ref u :=
    fun u ref hu harr => hf.does.owned h.sound (h.accepted u ref hu).2.2.2 harr
  obtain ⟨hhand, hret, href, hacc, harr⟩ | ⟨hhand, href, hcase⟩ := hout.handedOut
  · rw [hhand, hret, List.append_nil, List.append_nil]
    rw [hacc, List.append_nil] at hanswered
    refine ⟨hf.stands, hf.does.still h.still, href.trans hnext, h.own_lt, h.syn_subset, fun s o ho => ?_,
      fun u ref hu => ?_, fun ref u hu => ?_, hincoming⟩
    · obtain ⟨o₀, ho₀, hid⟩ | ⟨c, hc⟩ := hf.does.mem h.sound ho
      · rw [← hid]
        exact (h.ids s o₀ ho₀).imp_right (List.mem_append_left _)
      · exact .inr (List.mem_append_right _ (harr _ hc).1)
    · rw [hanswered] at hu
      obtain ⟨hown, hsyn, hknown, -⟩ := h.accepted u ref hu
      refine ⟨hown, hsyn, List.mem_append_left _ hknown, hold u ref hu fun c hc => ?_⟩
      exact absurd hown (htape ref (harr _ hc).1)
    · rw [hanswered]
      obtain hu | hc := hf.does.owner_eq hu
      · exact h.owners ref u hu
      · cases (harr _ hc).2
  · rw [hhand, List.length_singleton] at hwrap
    have hlt : first + own.length < 2 ^ 64 := by omega
    have hnextEq : v.nextOrderRef = first + own.length := by rw [hnext, Nat.mod_eq_of_lt hlt]
    have hfreshOwn : v.nextOrderRef ∉ own := fun hmem => by
      have := h.own_lt _ hmem
      omega
    have hnext' : (v.step op).nextOrderRef = (first + (own ++ [v.nextOrderRef]).length) % 2 ^ 64 := by
      rw [href, hnextEq, inc64, List.length_append, List.length_singleton, Nat.add_assoc]
    have hown_lt : ∀ ref ∈ own ++ [v.nextOrderRef], ref < first + (own ++ [v.nextOrderRef]).length := by
      intro ref hmem
      rw [List.length_append, List.length_singleton]
      obtain hmem | hmem := List.mem_append.mp hmem
      · have := h.own_lt ref hmem
        omega
      · rw [List.mem_singleton.mp hmem]
        omega
    have hunused := (hunused (by rw [href]; exact inc64_ne _)).2
    rw [hhand]
    obtain ⟨hret, hacc, harr⟩ | ⟨user, hret, huser, hacc, harr⟩ := hcase
    · rw [hret]
      rw [hacc, List.append_nil] at hanswered
      refine ⟨hf.stands, hf.does.still h.still, hnext', hown_lt, ?_, fun s o ho => ?_, fun u ref hu => ?_,
        fun ref u hu => ?_, hincoming⟩
      · exact List.append_subset.mpr ⟨fun r hr => List.mem_append_left _ (h.syn_subset hr), List.subset_append_right ..⟩
      · obtain ⟨o₀, ho₀, hid⟩ | ⟨c, hc⟩ := hf.does.mem h.sound ho
        · rw [← hid]
          exact (h.ids s o₀ ho₀).imp (List.mem_append_left _) (List.mem_append_left _)
        · have := (Prod.mk.inj (harr _ hc)).1
          exact .inl (List.mem_append_right _ (by simp [this]))
      · rw [hanswered] at hu
        obtain ⟨hown, hsyn, hknown, -⟩ := h.accepted u ref hu
        have hne : ref ≠ v.nextOrderRef := by rintro rfl; exact hfreshOwn hown
        refine ⟨List.mem_append_left _ hown, ?_, List.mem_append_left _ hknown, hold u ref hu fun c hc => ?_⟩
        · simp [hsyn, hne]
        · exact absurd (Prod.mk.inj (harr _ hc)).1 hne
      · rw [hanswered]
        obtain hu | hc := hf.does.owner_eq hu
        · exact h.owners ref u hu
        · cases (Prod.mk.inj (harr _ hc)).2
    · rw [hret, List.append_nil]
      rw [hacc] at hanswered
      refine ⟨hf.stands, hf.does.still h.still, hnext', hown_lt, fun r hr => List.mem_append_left _ (h.syn_subset hr),
        fun s o ho => ?_, fun u ref hu => ?_, fun ref u hu => ?_, hincoming⟩
      · obtain ⟨o₀, ho₀, hid⟩ | ⟨c, hc⟩ := hf.does.mem h.sound ho
        · rw [← hid]
          exact (h.ids s o₀ ho₀).imp (List.mem_append_left _) (List.mem_append_left _)
        · have := (Prod.mk.inj (harr _ hc)).1
          exact .inl (List.mem_append_right _ (by simp [this]))
      · rw [hanswered, List.mem_append, List.mem_singleton] at hu
        obtain hu | hu := hu
        · obtain ⟨hown, hsyn, hknown, -⟩ := h.accepted u ref hu
          have hne : ref ≠ v.nextOrderRef := by rintro rfl; exact hfreshOwn hown
          refine ⟨List.mem_append_left _ hown, hsyn, List.mem_append_left _ hknown, hold u ref hu fun c hc => ?_⟩
          exact absurd (Prod.mk.inj (harr _ hc)).1 hne
        · obtain ⟨rfl, rfl⟩ := Prod.mk.inj hu
          refine ⟨List.mem_append_right _ List.mem_cons_self, fun hmem => hfreshOwn (h.syn_subset hmem),
            List.mem_append_right _ (by simp [huser]), ?_⟩
          exact hf.does.owned h.sound (fun s o ho hid => absurd hid (hunused s o ho)) fun c hc =>
            (Prod.mk.inj (harr _ hc)).2
      · rw [hanswered]
        obtain hu | hc := hf.does.owner_eq hu
        · exact List.mem_append_left _ (h.owners ref u hu)
        · obtain ⟨rfl, he⟩ := Prod.mk.inj (harr _ hc)
          cases he
          exact List.mem_append_right _ List.mem_cons_self

end

end Venue

end TickToTrade.Sim
