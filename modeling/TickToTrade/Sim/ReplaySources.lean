import TickToTrade.Sim.MarketReplay

/-!
# One replay for all sources

A replay sees no more of its source than the messages that come (`Tape`). Two sources that
go the same way give the same replay, turn by turn (`Simulates`); the three sources of a
file go the way of the tape of its messages (`Shows`), so that the replay of a file is the
replay of that tape (`open_follows`).
-/

namespace TickToTrade.Sim

open Replay

/-- All that a source has to show: its messages, and those still to come. -/
structure Tape where
  all : List (List UInt8)
  todo : List (List UInt8)

instance : TapeSource Tape where
  fetch t := (t.todo.head?, { t with todo := t.todo.tail })
  restart t := (true, { t with todo := t.all })

/-- Everything but how much of a file is read into memory. -/
def ReplayState.withLimit (m : ℕ) (s : ReplayState) : ReplayState := { s with cfg := { s.cfg with preloadMaxMb := m } }

/-! ### Sources that go the same way -/

/-- Related sources give the same message and are related again. -/
structure Simulates {σ τ : Type} [TapeSource σ] [TapeSource τ] (R : σ → τ → Prop) : Prop where
  fetch : ∀ {s t}, R s t → (TapeSource.fetch t).1 = (TapeSource.fetch s).1 ∧ R (TapeSource.fetch s).2 (TapeSource.fetch t).2
  restart : ∀ {s t}, R s t → (TapeSource.restart t).1 = (TapeSource.restart s).1 ∧
    R (TapeSource.restart s).2 (TapeSource.restart t).2

section Simulation

variable {σ τ : Type} [TapeSource σ] [TapeSource τ] {R : σ → τ → Prop} {m : ℕ}

/-- The second replay is the first one but for the source and the limit of the memory. -/
structure Follows (R : σ → τ → Prop) (m : ℕ) (r : MarketReplay σ) (q : MarketReplay τ) : Prop where
  state : q.toReplayState = r.toReplayState.withLimit m
  source : R r.source q.source

/-- Two turns end the same way. -/
inductive TurnFollows (R : σ → τ → Prop) (m : ℕ) : Turn σ → Turn τ → Prop
  | again (now batch : ℕ) {r : MarketReplay σ} {q : MarketReplay τ} (h : Follows R m r q) :
      TurnFollows R m (.again now batch r) (.again now batch q)
  | done (more : Bool) {r : MarketReplay σ} {q : MarketReplay τ} (h : Follows R m r q) :
      TurnFollows R m (.done more r) (.done more q)

namespace ReplayState

variable (s : ReplayState)

theorem withLimit_anchor (now ts : ℕ) : (s.withLimit m).anchor now ts = (s.anchor now ts).withLimit m := by
  unfold anchor
  rw [apply_ite (withLimit m)]
  rfl

theorem withLimit_startMeter (now : ℕ) : (s.withLimit m).startMeter now = (s.startMeter now).withLimit m := by
  unfold startMeter
  rw [apply_ite (withLimit m)]
  rfl

/-- What the pacing gives, under another limit. -/
def limitPaced (m : ℕ) (x : Bool × ℕ × ReplayState) : Bool × ℕ × ReplayState := (x.1, x.2.1, x.2.2.withLimit m)

theorem withLimit_pace (mono now batch ts : ℕ) :
    (s.withLimit m).pace mono now batch ts = limitPaced m (s.pace mono now batch ts) := by
  unfold pace
  rw [withLimit_startMeter]
  simp only [apply_ite (limitPaced m)]
  rfl

end ReplayState

variable {r : MarketReplay σ} {q : MarketReplay τ}

omit [TapeSource σ] [TapeSource τ] in
theorem Follows.modify {f : ReplayState → ReplayState} (h : Follows R m r q)
    (hf : ∀ s : ReplayState, f (s.withLimit m) = (f s).withLimit m) : Follows R m (r.modify f) (q.modify f) :=
  ⟨by rw [MarketReplay.modify, h.state]; exact hf _, h.source⟩

theorem Follows.restart (hR : Simulates R) (h : Follows R m r q) :
    q.restart.1 = r.restart.1 ∧ Follows R m r.restart.2 q.restart.2 :=
  ⟨(hR.restart h.source).1, ⟨by simp only [MarketReplay.restart, h.state]; rfl, (hR.restart h.source).2⟩⟩

theorem Follows.fetch (hR : Simulates R) (h : Follows R m r q) :
    q.fetch.1 = r.fetch.1 ∧ Follows R m r.fetch.2 q.fetch.2 := by
  obtain ⟨heq, hrel⟩ := hR.fetch h.source
  unfold MarketReplay.fetch
  cases hr : TapeSource.fetch r.source with
  | mk msg s =>
      cases hq : TapeSource.fetch q.source with
      | mk msg' t =>
          rw [hr, hq] at heq hrel
          cases heq
          cases msg with
          | none => exact ⟨rfl, h.state, hrel⟩
          | some msg => exact ⟨rfl, by simp only [h.state]; rfl, hrel⟩

theorem Follows.endOfLoop (hR : Simulates R) (h : Follows R m r q) : Follows R m r.endOfLoop q.endOfLoop := by
  have hday : Follows R m (r.modify (·.endDay)) (q.modify (·.endDay)) := h.modify fun _ => rfl
  obtain ⟨hok, hrestart⟩ := hday.restart hR
  have hloops : (q.modify (·.endDay)).cfg.loops = (r.modify (·.endDay)).cfg.loops := by rw [hday.state]; rfl
  have hloop : (q.modify (·.endDay)).loop = (r.modify (·.endDay)).loop := by rw [hday.state]; rfl
  unfold MarketReplay.endOfLoop
  simp only [hloops, hloop, hok]
  split_ifs
  · exact hday.modify fun _ => rfl
  · exact hrestart
  · exact hrestart.modify fun _ => rfl

theorem Follows.nextLoop (hR : Simulates R) (h : Follows R m r q) (now batch : ℕ) :
    TurnFollows R m (r.nextLoop now batch) (q.nextLoop now batch) := by
  have hend := h.endOfLoop hR
  have hfin : q.endOfLoop.finished = r.endOfLoop.finished := by rw [hend.state]; rfl
  unfold MarketReplay.nextLoop
  simp only [hfin]
  split_ifs
  · exact .done false hend
  · exact .again now batch hend

omit [TapeSource σ] [TapeSource τ] in
theorem Follows.deliver (h : Follows R m r q) (now batch ts : ℕ) :
    TurnFollows R m (r.deliver now batch ts) (q.deliver now batch ts) := by
  have hsend : Follows R m (r.modify (·.send ts)) (q.modify (·.send ts)) := h.modify fun _ => rfl
  have hmax : (q.modify (·.send ts)).cfg.maxBatch = (r.modify (·.send ts)).cfg.maxBatch := by rw [hsend.state]; rfl
  unfold MarketReplay.deliver
  simp only [hmax]
  split_ifs
  · exact .done true (hsend.modify fun _ => rfl)
  · exact .again now (batch + 1) hsend

omit [TapeSource σ] [TapeSource τ] in
theorem Follows.release (h : Follows R m r q) (mono now batch ts : ℕ) :
    TurnFollows R m (r.release mono now batch ts) (q.release mono now batch ts) := by
  have hanchor : Follows R m (r.modify (·.anchor now ts)) (q.modify (·.anchor now ts)) := h.modify fun s => s.withLimit_anchor now ts
  have hpace := (r.modify (·.anchor now ts)).withLimit_pace (m := m) mono now batch ts
  rw [← hanchor.state] at hpace
  unfold MarketReplay.release
  simp only [hpace]
  obtain ⟨wait, now, s⟩ := (r.modify (·.anchor now ts)).pace mono now batch ts
  have hpaced : Follows R m ((r.modify (·.anchor now ts)).modify fun _ => s)
      ((q.modify (·.anchor now ts)).modify fun _ => s.withLimit m) := ⟨rfl, hanchor.source⟩
  cases wait with
  | true => exact .done true (hpaced.modify fun _ => rfl)
  | false => exact hpaced.deliver now batch ts

theorem Follows.consider (hR : Simulates R) (h : Follows R m r q) (mono now batch : ℕ) :
    TurnFollows R m (r.consider mono now batch) (q.consider mono now batch) := by
  have hcur : q.cur = r.cur := by rw [h.state]; rfl
  have hstop : q.cfg.stopAtNs = r.cfg.stopAtNs := by rw [h.state]; rfl
  have hdrop : Follows R m (r.modify (·.hold false)) (q.modify (·.hold false)) := h.modify fun _ => rfl
  unfold MarketReplay.consider
  simp only [hcur, hstop]
  split_ifs
  · exact .again now batch hdrop
  · exact hdrop.nextLoop hR now batch
  · exact h.release mono now batch _

theorem Follows.turn (hR : Simulates R) (h : Follows R m r q) (mono now batch : ℕ) :
    TurnFollows R m (r.turn mono now batch) (q.turn mono now batch) := by
  have hheld : q.held = r.held := by rw [h.state]; rfl
  obtain ⟨hok, hfetch⟩ := h.fetch hR
  unfold MarketReplay.turn
  rw [hheld]
  split_ifs
  · cases hr : r.fetch with
    | mk ok r' =>
        cases hq : q.fetch with
        | mk ok' q' =>
            rw [hr, hq] at hok hfetch
            cases hok
            cases ok with
            | false => exact hfetch.nextLoop hR now batch
            | true =>
                have hhold : Follows R m (r'.modify (·.hold true)) (q'.modify (·.hold true)) := hfetch.modify fun _ => rfl
                exact hhold.consider hR mono now batch
  · exact h.consider hR mono now batch

theorem Follows.pumpLoop (hR : Simulates R) (h : Follows R m r q) (mono : ℕ → ℕ) (fuel i now batch : ℕ) :
    (q.pumpLoop mono fuel i now batch).1 = (r.pumpLoop mono fuel i now batch).1 ∧
      Follows R m (r.pumpLoop mono fuel i now batch).2 (q.pumpLoop mono fuel i now batch).2 := by
  induction fuel generalizing i now batch r q with
  | zero => exact ⟨rfl, h⟩
  | succ fuel ih =>
      have hturn := h.turn hR (mono i) now batch
      unfold MarketReplay.pumpLoop
      revert hturn
      generalize r.turn (mono i) now batch = x, q.turn (mono i) now batch = y
      rintro (⟨now, batch, h⟩ | ⟨more, h⟩)
      · exact ih h (i + 1) now batch
      · exact ⟨rfl, h⟩

theorem Follows.pump (hR : Simulates R) (h : Follows R m r q) (fuel now : ℕ) (mono : ℕ → ℕ) :
    (q.pump fuel now mono).1 = (r.pump fuel now mono).1 ∧ Follows R m (r.pump fuel now mono).2 (q.pump fuel now mono).2 := by
  have hfin : q.finished = r.finished := by rw [h.state]; rfl
  unfold MarketReplay.pump
  rw [hfin]
  split_ifs
  · exact ⟨rfl, h⟩
  · exact h.pumpLoop hR mono fuel 0 now 0

/-- **Two replays of sources that go the same way** stay the same, whatever is called. -/
theorem Follows.pumps (hR : Simulates R) (h : Follows R m r q) (calls : List PumpCall) :
    Follows R m (r.pumps calls) (q.pumps calls) := by
  induction calls generalizing r q with
  | nil => exact h
  | cons c calls ih =>
      obtain ⟨hanswer, hnext⟩ := h.pump hR c.fuel c.now c.mono
      unfold MarketReplay.pumps
      cases hr : r.pump c.fuel c.now c.mono with
      | mk answer r' =>
          cases hq : q.pump c.fuel c.now c.mono with
          | mk answer' q' =>
              rw [hr, hq] at hanswer hnext
              cases hanswer
              cases answer with
              | none => exact hnext
              | some more => exact ih hnext

end Simulation

/-! ### The sources of a file -/

/-- The source has the messages of the tape, and the same of them to come. -/
def Shows (t : Tape) : ReplaySource → Prop
  | .preloaded store rest =>
      (∀ msg ∈ t.all ++ t.todo, msg.length < 2 ^ 16) ∧ store = t.all.flatMap stored ∧ rest = t.todo.flatMap stored
  | .mapped view rest => messagesOf view = t.all ∧ messagesOf rest = t.todo
  | .streamed reader => ∃ file : Gz, reader.Reads file ∧ messagesOf file.data = t.all ∧ messagesOf reader.rest = t.todo

/-- A stored message is read back. -/
theorem fetchStore_stored {msg : List UInt8} (h : msg.length < 2 ^ 16) (rest : List UInt8) :
    ReplaySource.fetchStore (stored msg ++ rest) = (some msg, rest) := by
  have hlen : lengthOf (UInt8.ofNat (msg.length / 256)) (UInt8.ofNat (msg.length % 256)) = msg.length := by
    simp only [lengthOf, UInt8.toNat_ofNat']
    omega
  rw [stored, List.cons_append, List.cons_append, ReplaySource.fetchStore, hlen, List.take_left, List.drop_left]

/-- What is read of a mapped file is what its messages say. -/
theorem nextMapped_shows {bytes : List UInt8} {todo : List (List UInt8)} (h : messagesOf bytes = todo) :
    (nextMapped bytes).1 = todo.head? ∧ messagesOf (nextMapped bytes).2 = todo.tail := by
  cases todo with
  | nil =>
      obtain ⟨rest, hn⟩ := nextMapped_of_nil h
      rw [hn]
      exact ⟨rfl, messagesOf_rest hn⟩
  | cons msg todo =>
      obtain ⟨rest, hn, hrest⟩ := nextMapped_of_cons h
      rw [hn]
      exact ⟨rfl, hrest⟩

theorem Shows.fetch {s : ReplaySource} {t : Tape} (h : Shows t s) :
    s.fetch.1 = t.todo.head? ∧ Shows { t with todo := t.todo.tail } s.fetch.2 := by
  cases s with
  | preloaded store rest =>
      obtain ⟨hlen, hstore, hrest⟩ := h
      obtain ⟨all, todo⟩ := t
      cases todo with
      | nil =>
          obtain rfl : rest = [] := hrest
          exact ⟨rfl, hlen, hstore, rfl⟩
      | cons msg todo =>
          obtain rfl : rest = stored msg ++ todo.flatMap stored := hrest
          have hmsg : msg.length < 2 ^ 16 := hlen msg (by simp)
          simp only [ReplaySource.fetch, fetchStore_stored hmsg]
          refine ⟨rfl, fun m hm => hlen m ?_, hstore, rfl⟩
          rw [List.mem_append] at hm ⊢
          exact hm.imp_right (List.mem_cons_of_mem msg)
  | mapped view rest =>
      obtain ⟨hview, hrest⟩ := h
      obtain ⟨hnext, htail⟩ := nextMapped_shows hrest
      exact ⟨hnext, hview, htail⟩
  | streamed reader =>
      obtain ⟨file, hreads, hall, hrest⟩ := h
      obtain ⟨hreads', hmsg, hrest'⟩ := hreads.next
      obtain ⟨hnext, htail⟩ := nextMapped_shows hrest
      exact ⟨hmsg.trans hnext, file, hreads', hall, by rw [← htail]; exact congrArg messagesOf hrest'⟩

theorem Shows.restart {s : ReplaySource} {t : Tape} (h : Shows t s) :
    s.restart.1 = true ∧ Shows { t with todo := t.all } s.restart.2 := by
  cases s with
  | preloaded store rest =>
      obtain ⟨hlen, hstore, hrest⟩ := h
      exact ⟨rfl, fun m hm => hlen m (by simpa using Or.inl (by simpa using hm)), hstore, hstore⟩
  | mapped view rest => exact ⟨rfl, h.1, h.1⟩
  | streamed reader =>
      obtain ⟨file, hreads, hall, hrest⟩ := h
      obtain ⟨hreads', hrest'⟩ := hreads.reset
      exact ⟨rfl, file, hreads', hall, by rw [hrest']; exact hall⟩

/-- **The sources of a file** go the way of its tape. -/
theorem shows_simulates : Simulates fun (s : ReplaySource) (t : Tape) => Shows t s where
  fetch h := ⟨h.fetch.1.symm, h.fetch.2⟩
  restart h := ⟨h.restart.1.symm, h.restart.2⟩

/-- Two sources of one tape go the same way. -/
theorem same_tape_simulates : Simulates fun s s' : ReplaySource => ∃ t, Shows t s ∧ Shows t s' where
  fetch := fun ⟨_, h, h'⟩ => ⟨h'.fetch.1.trans h.fetch.1.symm, _, h.fetch.2, h'.fetch.2⟩
  restart := fun ⟨_, h, h'⟩ => ⟨h'.restart.1.trans h.restart.1.symm, _, h.restart.2, h'.restart.2⟩

/-! ### Opening a file -/

/-- **Reading a file into memory** stores its messages, in order. -/
theorem preload_eq {file : Gz} {cap fuel : ℕ} {probe : GzReader} {store full : List UInt8} (h : probe.Reads file)
    (hfuel : probe.rest.length < fuel) (hfull : preload cap fuel probe store = some full) :
    full = store ++ (messagesOf probe.rest).flatMap stored := by
  induction fuel generalizing probe store with
  | zero => omega
  | succ fuel ih =>
      obtain ⟨hreads, hmsg, hrest⟩ := h.next
      unfold preload at hfull
      cases hn : probe.next with
      | mk msg probe' =>
          rw [hn] at hreads hmsg hrest hfull
          cases msg with
          | none =>
              cases hfull
              rw [messagesOf_of_none (Prod.ext hmsg.symm rfl), List.flatMap_nil, List.append_nil]
          | some msg =>
              simp only at hreads hmsg hrest hfull
              have hnext : nextMapped probe.rest = (some msg, probe'.rest) := Prod.ext hmsg.symm hrest.symm
              have hlt := length_nextMapped hnext
              split_ifs at hfull
              rw [ih hreads (by omega) hfull, messagesOf_of_some hnext, List.flatMap_cons, List.append_assoc]

/-- The tape of a file, from its start. -/
def ReplayFile.tape (f : ReplayFile) : Tape := ⟨messagesOf f.bytes, messagesOf f.bytes⟩

/-- **Opening a file** gives a replay of its tape. -/
theorem open_follows {cfg : ReplayConfig} {f : ReplayFile} {r : MarketReplay ReplaySource}
    (h : MarketReplay.open cfg f = some r) : r.toReplayState = { cfg := cfg } ∧ Shows f.tape r.source := by
  unfold MarketReplay.open at h
  obtain ⟨mapping, gz, msgcount⟩ := f
  cases mapping with
  | some view =>
      simp only at h
      split_ifs at h
      cases h
      exact ⟨rfl, rfl, rfl⟩
  | none =>
      cases gz with
      | none => cases h
      | some gz =>
          simp only at h
          cases hp : preload (cfg.preloadMaxMb * 2 ^ 20 % 2 ^ 64) (gz.data.length + 1) (GzReader.new gz) [] with
          | none =>
              rw [hp] at h
              cases h
              exact ⟨rfl, gz, GzReader.reads_new gz, rfl, rfl⟩
          | some store =>
              rw [hp] at h
              simp only at h
              split_ifs at h
              cases h
              have hstore := preload_eq (GzReader.reads_new gz) (Nat.lt_succ_self _) hp
              exact ⟨rfl, fun msg hmsg => (length_of_mem_messagesOf (by simpa [ReplayFile.tape] using hmsg)).2, hstore, hstore⟩

end TickToTrade.Sim
