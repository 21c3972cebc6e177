import Mathlib.Data.Prod.Lex
import TickToTrade.Sim.ReplaySources

/-!
# The loops of a replay

In every loop a replay hands out the messages of its window, in order and each once, and
then resets the day (`tape_replayed`), however `pump` is called. Each call of `pump` comes
back when the loops are counted or the window has a message, and never otherwise
(`pump_returns_iff`).
-/

namespace TickToTrade.Sim

open Replay

/-- The messages that a loop hands out: those that have a timestamp, up to the first late one. -/
def ReplayConfig.window (cfg : ReplayConfig) (msgs : List (List UInt8)) : List (List UInt8) :=
  (msgs.filter (11 ≤ ·.length)).takeWhile (¬cfg.Late ·)

/-- What the books hear of the calls of a replay. -/
inductive Delivery where
  | message (msg : List UInt8) (ts : ℕ)
  | reset
deriving DecidableEq, Repr

def SessionCall.delivery : SessionCall → Option Delivery
  | .replayMessage msg ts => some (.message msg ts)
  | .flushMarketData => none
  | .resetDay _ => some .reset

def deliveries (calls : List SessionCall) : List Delivery := calls.filterMap SessionCall.delivery

/-- Messages, each with its timestamp. -/
def stamped (msgs : List (List UInt8)) : List Delivery := msgs.map fun msg => .message msg (timestampOf msg)

/-- A whole loop. -/
def ReplayConfig.fullLoop (cfg : ReplayConfig) (msgs : List (List UInt8)) : List Delivery :=
  stamped (cfg.window msgs) ++ [.reset]

section Window

variable {cfg : ReplayConfig} {msg : List UInt8} {msgs : List (List UInt8)}

theorem window_short (h : msg.length < 11) : cfg.window (msg :: msgs) = cfg.window msgs := by
  unfold ReplayConfig.window
  rw [List.filter_cons_of_neg (by simpa using h)]

theorem window_late (h : 11 ≤ msg.length) (hlate : cfg.Late msg) : cfg.window (msg :: msgs) = [] := by
  unfold ReplayConfig.window
  rw [List.filter_cons_of_pos (by simpa using h), List.takeWhile_cons_of_neg (by simpa using hlate)]

theorem window_next (h : 11 ≤ msg.length) (hlate : ¬cfg.Late msg) :
    cfg.window (msg :: msgs) = msg :: cfg.window msgs := by
  unfold ReplayConfig.window
  rw [List.filter_cons_of_pos (by simpa using h), List.takeWhile_cons_of_pos (by simpa using hlate)]

end Window

/-! ### A turn -/

/-- The replay of a tape without its pacing. -/
structure Reel where
  cfg : ReplayConfig
  all : List (List UInt8)
  /-- The messages to come, one that is held among them. -/
  pending : List (List UInt8)
  loop : ℕ
  finished : Bool
  calls : List SessionCall

namespace MarketReplay

def reel (q : MarketReplay Tape) : Reel where
  cfg := q.cfg
  all := q.source.all
  pending := if q.held then q.cur :: q.source.todo else q.source.todo
  loop := q.loop
  finished := q.finished
  calls := q.calls

end MarketReplay

namespace Reel

/-- A call goes to the session. -/
def say (v : Reel) (cs : List SessionCall) : Reel := { v with calls := v.calls ++ cs }

/-- The next message goes. -/
def advance (v : Reel) (rest : List (List UInt8)) : Reel := { v with pending := rest }

/-- The loop ends. -/
def turnOver (v : Reel) (ts : ℕ) : Reel := { v.say [.resetDay ts, .flushMarketData] with loop := (v.loop + 1) % 2 ^ 32 }

/-- Was this the last loop? -/
def Last (v : Reel) : Prop := v.cfg.loops ≠ 0 ∧ (v.loop + 1) % 2 ^ 32 ≥ v.cfg.loops

/-- **What a turn does.** -/
inductive Turns (v : Reel) (batch : ℕ) : Turn Tape → Prop
  /-- A short message is dropped. -/
  | skips {msg : List UInt8} {rest : List (List UInt8)} {q : MarketReplay Tape} (now : ℕ) (hpending : v.pending = msg :: rest)
      (hshort : msg.length < 11) (hq : q.reel = v.advance rest) : Turns v batch (.again now batch q)
  /-- The pacing lets the message wait. -/
  | waits {msg : List UInt8} {rest : List (List UInt8)} {q : MarketReplay Tape} (hpending : v.pending = msg :: rest)
      (hlong : 11 ≤ msg.length) (hlate : ¬v.cfg.Late msg) (hq : q.reel = v.say [.flushMarketData]) : Turns v batch (.done true q)
  | sends {msg : List UInt8} {rest : List (List UInt8)} {q : MarketReplay Tape} (now : ℕ) (hpending : v.pending = msg :: rest)
      (hlong : 11 ≤ msg.length) (hlate : ¬v.cfg.Late msg) (hbatch : batch + 1 < v.cfg.maxBatch)
      (hq : q.reel = (v.advance rest).say [.replayMessage msg (timestampOf msg)]) : Turns v batch (.again now (batch + 1) q)
  /-- The message fills the batch. -/
  | fills {msg : List UInt8} {rest : List (List UInt8)} {q : MarketReplay Tape} (hpending : v.pending = msg :: rest)
      (hlong : 11 ≤ msg.length) (hlate : ¬v.cfg.Late msg)
      (hq : q.reel = (v.advance rest).say [.replayMessage msg (timestampOf msg), .flushMarketData]) : Turns v batch (.done true q)
  /-- The window ends, and the next loop starts. -/
  | restarts {ts : ℕ} {q : MarketReplay Tape} (now : ℕ) (hend : v.cfg.window v.pending = []) (hlast : ¬v.Last)
      (hq : q.reel = (v.advance v.all).turnOver ts) : Turns v batch (.again now batch q)
  | finishes {ts : ℕ} {rest : List (List UInt8)} {q : MarketReplay Tape} (hend : v.cfg.window v.pending = []) (hlast : v.Last)
      (hq : q.reel = { (v.advance rest).turnOver ts with finished := true }) : Turns v batch (.done false q)

end Reel

/-- The new state has all but the pacing from the old one. -/
structure Quiet (s s' : ReplayState) : Prop where
  cfg : s'.cfg = s.cfg
  loop : s'.loop = s.loop
  finished : s'.finished = s.finished
  cur : s'.cur = s.cur
  held : s'.held = s.held
  calls : s'.calls = s.calls

theorem Quiet.trans {s s' s'' : ReplayState} (h : Quiet s s') (h' : Quiet s' s'') : Quiet s s'' :=
  ⟨h'.cfg.trans h.cfg, h'.loop.trans h.loop, h'.finished.trans h.finished, h'.cur.trans h.cur, h'.held.trans h.held,
    h'.calls.trans h.calls⟩

theorem anchor_quiet (s : ReplayState) (now ts : ℕ) : Quiet s (s.anchor now ts) := by
  unfold ReplayState.anchor
  split_ifs <;> exact ⟨rfl, rfl, rfl, rfl, rfl, rfl⟩

theorem startMeter_quiet (s : ReplayState) (now : ℕ) : Quiet s (s.startMeter now) := by
  unfold ReplayState.startMeter
  split_ifs <;> exact ⟨rfl, rfl, rfl, rfl, rfl, rfl⟩

theorem pace_quiet (s : ReplayState) (mono now batch ts : ℕ) : Quiet s (s.pace mono now batch ts).2.2 := by
  have hmeter : Quiet (s.startMeter now) (s.startMeter now).meter := ⟨rfl, rfl, rfl, rfl, rfl, rfl⟩
  have hstart := startMeter_quiet s now
  unfold ReplayState.pace
  simp only
  split_ifs
  · exact hstart
  · exact hstart.trans hmeter
  · exact hstart.trans hmeter
  all_goals exact ⟨rfl, rfl, rfl, rfl, rfl, rfl⟩

namespace MarketReplay

variable (q : MarketReplay Tape)

theorem reel_endDay : (q.modify (·.endDay)).reel = q.reel.turnOver q.virtualTs := by
  simp only [reel, modify, ReplayState.endDay, ReplayState.call, Reel.turnOver, Reel.say, List.append_assoc, List.cons_append,
    List.nil_append]

theorem reel_restart : q.restart.2.reel = q.reel.advance q.reel.all := rfl

theorem reel_drop : (q.modify (·.hold false)).reel = q.reel.advance q.source.todo := rfl

theorem reel_flush : (q.modify (·.call .flushMarketData)).reel = q.reel.say [.flushMarketData] := rfl

theorem reel_send (ts : ℕ) :
    (q.modify (·.send ts)).reel = (q.reel.advance q.source.todo).say [.replayMessage q.cur ts] := rfl

/-- The end of a loop that is not the last one. -/
theorem endOfLoop_of_not_last (h : ¬q.reel.Last) : q.endOfLoop = (q.modify (·.endDay)).restart.2 := if_neg h

theorem endOfLoop_of_last (h : q.reel.Last) : q.endOfLoop = (q.modify (·.endDay)).modify (·.finish) := if_pos h

end MarketReplay

namespace Reel

variable {v : Reel} {q : MarketReplay Tape} {mono now batch : ℕ}

/-- The end of a loop, with no more of the window to come. -/
theorem turns_nextLoop {rest : List (List UInt8)} (hend : v.cfg.window v.pending = []) (hq : q.reel = v.advance rest)
    (hfin : v.finished = false) : v.Turns batch (q.nextLoop now batch) := by
  have hday := q.reel_endDay
  unfold MarketReplay.nextLoop
  simp only
  by_cases hlast : v.Last
  · have hfinish : q.endOfLoop = (q.modify (·.endDay)).modify (·.finish) := q.endOfLoop_of_last (by rw [hq]; exact hlast)
    have hreel : q.endOfLoop.reel = { (v.advance rest).turnOver q.virtualTs with finished := true } := by
      rw [hfinish, ← hq, ← hday]
      rfl
    have hdone : q.endOfLoop.finished = true := congrArg Reel.finished hreel
    rw [if_pos hdone]
    exact .finishes hend hlast hreel
  · have hnext : q.endOfLoop = (q.modify (·.endDay)).restart.2 := q.endOfLoop_of_not_last (by rw [hq]; exact hlast)
    have hreel : q.endOfLoop.reel = (v.advance v.all).turnOver q.virtualTs := by
      rw [hnext, MarketReplay.reel_restart, hday, hq]
      rfl
    have hgo : q.endOfLoop.finished = false := (congrArg Reel.finished hreel).trans hfin
    rw [hgo, if_neg Bool.false_ne_true]
    exact .restarts now hend hlast hreel

/-- The end of a turn after the pacing of a message of the window. -/
theorem turns_afterPace (hheld : q.held = true) (hlong : 11 ≤ q.cur.length) (hlate : ¬q.cfg.Late q.cur)
    {x : Bool × ℕ × ReplayState} (hquiet : Quiet q.toReplayState x.2.2) :
    q.reel.Turns batch (q.afterPace batch (timestampOf q.cur) x) := by
  obtain ⟨wait, now, s⟩ := x
  simp only at hquiet
  have hpending : q.reel.pending = q.cur :: q.source.todo := if_pos hheld
  have hreel : (q.modify fun _ => s).reel = q.reel := by
    simp only [MarketReplay.reel, MarketReplay.modify, hquiet.cfg, hquiet.loop, hquiet.finished, hquiet.cur, hquiet.held,
      hquiet.calls]
  have hsend : ((q.modify fun _ => s).modify (·.send (timestampOf q.cur))).reel =
      (q.reel.advance q.source.todo).say [.replayMessage q.cur (timestampOf q.cur)] := by
    rw [MarketReplay.reel_send, hreel, ← hquiet.cur]
    rfl
  have hmax : ((q.modify fun _ => s).modify (·.send (timestampOf q.cur))).cfg.maxBatch = q.cfg.maxBatch :=
    congrArg ReplayConfig.maxBatch hquiet.cfg
  unfold MarketReplay.afterPace MarketReplay.deliver
  simp only [hmax]
  cases wait with
  | true => exact .waits hpending hlong hlate (by rw [MarketReplay.reel_flush, hreel])
  | false =>
      rw [if_neg Bool.false_ne_true]
      by_cases hfull : batch + 1 ≥ q.cfg.maxBatch
      · rw [if_pos hfull]
        refine .fills hpending hlong hlate ?_
        rw [MarketReplay.reel_flush, hsend]
        simp only [say, advance, List.append_assoc, List.cons_append, List.nil_append]
      · rw [if_neg hfull]
        exact .sends now hpending hlong hlate (Nat.lt_of_not_le hfull) hsend

/-- A turn from where a message of the window is held. -/
theorem turns_release (hheld : q.held = true) (hlong : 11 ≤ q.cur.length) (hlate : ¬q.cfg.Late q.cur) :
    q.reel.Turns batch (q.release mono now batch (timestampOf q.cur)) :=
  have hanchor := anchor_quiet q.toReplayState now (timestampOf q.cur)
  turns_afterPace hheld hlong hlate (hanchor.trans (pace_quiet _ mono now batch (timestampOf q.cur)))

/-- A turn from where a message is held. -/
theorem turns_consider (hheld : q.held = true) (hfin : q.finished = false) :
    q.reel.Turns batch (q.consider mono now batch) := by
  have hpending : q.reel.pending = q.cur :: q.source.todo := if_pos hheld
  unfold MarketReplay.consider
  by_cases hshort : q.cur.length < 11
  · rw [if_pos hshort]
    exact .skips now hpending hshort q.reel_drop
  · rw [if_neg hshort]
    simp only
    by_cases hlate : q.cfg.stopAtNs ≠ 0 ∧ timestampOf q.cur > q.cfg.stopAtNs
    · rw [if_pos hlate]
      exact turns_nextLoop (by rw [hpending]; exact window_late (Nat.le_of_not_lt hshort) hlate) q.reel_drop hfin
    · rw [if_neg hlate]
      exact turns_release hheld (Nat.le_of_not_lt hshort) hlate

/-- **Every turn** of a replay that has not finished does one of these. -/
theorem turns (q : MarketReplay Tape) (hfin : q.finished = false) (mono now batch : ℕ) :
    q.reel.Turns batch (q.turn mono now batch) := by
  unfold MarketReplay.turn
  cases hheld : q.held with
  | true => exact turns_consider hheld hfin
  | false =>
      have hpending : q.reel.pending = q.source.todo := if_neg (by simp [hheld])
      unfold MarketReplay.fetch
      cases htodo : q.source.todo with
      | nil =>
          rw [htodo] at hpending
          simp only [TapeSource.fetch, htodo, List.head?_nil, Bool.not_false, if_true]
          have hreel : (⟨q.toReplayState, ⟨q.source.all, []⟩⟩ : MarketReplay Tape).reel = q.reel.advance [] := by
            simp only [MarketReplay.reel, advance, hheld, Bool.false_eq_true, if_false]
          exact turns_nextLoop (by rw [hpending]; rfl) hreel hfin
      | cons msg rest =>
          rw [htodo] at hpending
          simp only [TapeSource.fetch, htodo, List.head?_cons, Bool.not_false, if_true, List.tail_cons]
          have hreel : q.reel = (MarketReplay.modify ⟨{ q.toReplayState with cur := msg }, ⟨q.source.all, rest⟩⟩ (·.hold true)).reel := by
            simp only [MarketReplay.reel, MarketReplay.modify, ReplayState.hold, hheld, htodo, Bool.false_eq_true, if_false, if_true]
          rw [hreel]
          exact turns_consider rfl hfin

end Reel

/-! ### The calls of `pump` -/

/-- The replay after a turn. -/
def Turn.replay {σ : Type} : Turn σ → MarketReplay σ
  | .again _ _ r => r
  | .done _ r => r

/-- A replay that the next turn goes on with has not finished. -/
theorem Reel.Turns.unfinished {v : Reel} {now' batch batch' : ℕ} {q : MarketReplay Tape} {x : Turn Tape}
    (h : v.Turns batch x) (hx : x = .again now' batch' q) (hfin : v.finished = false) : q.finished = false := by
  cases h with
  | skips now hpending hshort hq => cases hx; exact (congrArg Reel.finished hq).trans hfin
  | waits => cases hx
  | sends now hpending hlong hlate hbatch hq => cases hx; exact (congrArg Reel.finished hq).trans hfin
  | fills => cases hx
  | restarts now hend hlast hq => cases hx; exact (congrArg Reel.finished hq).trans hfin
  | finishes => cases hx

section Invariant

variable {P : Reel → Prop} (hturn : ∀ {v batch x}, P v → v.finished = false → v.Turns batch x → P x.replay.reel)
include hturn

/-- What every turn keeps, the loop of `pump` keeps. -/
theorem pumpLoop_keeps {q : MarketReplay Tape} (h : P q.reel) (hfin : q.finished = false) (mono : ℕ → ℕ) (fuel i now batch : ℕ) :
    P (q.pumpLoop mono fuel i now batch).2.reel := by
  induction fuel generalizing i now batch q with
  | zero => exact h
  | succ fuel ih =>
      have hx := Reel.turns q hfin (mono i) now batch
      unfold MarketReplay.pumpLoop
      cases heq : q.turn (mono i) now batch with
      | again now' batch' q' =>
          rw [heq] at hx
          exact ih (hturn h hfin hx) (hx.unfinished rfl hfin) (i + 1) now' batch'
      | done more q' =>
          rw [heq] at hx
          exact hturn h hfin hx

/-- **What every turn keeps**, every schedule of calls keeps. -/
theorem pumps_keeps {q : MarketReplay Tape} (h : P q.reel) (calls : List PumpCall) : P (q.pumps calls).reel := by
  induction calls generalizing q with
  | nil => exact h
  | cons c calls ih =>
      have hpump : P (q.pump c.fuel c.now c.mono).2.reel := by
        unfold MarketReplay.pump
        cases hfin : q.finished with
        | true => exact h
        | false => exact pumpLoop_keeps hturn h hfin c.mono c.fuel 0 c.now 0
      unfold MarketReplay.pumps
      cases heq : q.pump c.fuel c.now c.mono with
      | mk answer q' =>
          rw [heq] at hpump
          cases answer with
          | none => exact hpump
          | some more => exact ih hpump

end Invariant

/-! ### What has been handed out -/

theorem deliveries_append (cs ds : List SessionCall) : deliveries (cs ++ ds) = deliveries cs ++ deliveries ds :=
  List.filterMap_append ..

/-- So many whole loops, and the first messages of the window. -/
structure Told (cfg : ReplayConfig) (msgs : List (List UInt8)) (k : ℕ) (sent left : List (List UInt8)) (loop : ℕ)
    (calls : List SessionCall) : Prop where
  window : cfg.window msgs = sent ++ left
  loop : loop = k % 2 ^ 32
  calls : deliveries calls = (List.replicate k (cfg.fullLoop msgs)).flatten ++ stamped sent

/-- What every turn keeps: what has been told, and what is left of the window is still to
come; a replay finishes after its last loop. -/
structure Reel.Plays (cfg : ReplayConfig) (msgs : List (List UInt8)) (v : Reel) : Prop where
  config : v.cfg = cfg
  all : v.all = msgs
  told : ∃ k sent left, Told cfg msgs k sent left v.loop v.calls ∧ (v.finished = false → cfg.window v.pending = left)
  more : v.finished = false → cfg.loops ≠ 0 → v.loop < cfg.loops
  last : v.finished = true → cfg.loops ≠ 0

section Told

variable {cfg : ReplayConfig} {msgs : List (List UInt8)} {k loop : ℕ} {sent left : List (List UInt8)} {calls : List SessionCall}

theorem Told.flush (h : Told cfg msgs k sent left loop calls) : Told cfg msgs k sent left loop (calls ++ [.flushMarketData]) :=
  ⟨h.window, h.loop, by rw [deliveries_append, h.calls]; exact List.append_nil _⟩

theorem Told.send {msg : List UInt8} (h : Told cfg msgs k sent (msg :: left) loop calls) :
    Told cfg msgs k (sent ++ [msg]) left loop (calls ++ [.replayMessage msg (timestampOf msg)]) where
  window := by rw [h.window, List.append_assoc]; rfl
  loop := h.loop
  calls := by
    rw [deliveries_append, h.calls, List.append_assoc, stamped, stamped, List.map_append]
    rfl

/-- At the end of its window a loop is whole. -/
theorem Told.turnOver {ts : ℕ} (h : Told cfg msgs k sent [] loop calls) :
    Told cfg msgs (k + 1) [] (cfg.window msgs) ((loop + 1) % 2 ^ 32) (calls ++ [.resetDay ts, .flushMarketData]) where
  window := rfl
  loop := by rw [h.loop, Nat.mod_add_mod]
  calls := by
    have hsent : cfg.window msgs = sent := by rw [h.window, List.append_nil]
    rw [deliveries_append, h.calls, List.replicate_succ', List.flatten_append, ReplayConfig.fullLoop, hsent]
    simp only [List.flatten_singleton, List.append_assoc]
    rfl

end Told

/-- **The step lemma**: every turn plays on. -/
theorem Reel.Plays.turn {cfg : ReplayConfig} {msgs : List (List UInt8)} {v : Reel} {batch : ℕ} {x : Turn Tape}
    (h : v.Plays cfg msgs) (hfin : v.finished = false) (hx : v.Turns batch x) : x.replay.reel.Plays cfg msgs := by
  obtain ⟨hcfg, hall, ⟨k, sent, left, htold, hleft⟩, hmore, hlast⟩ := h
  have hleft := hleft hfin
  have hmore := hmore hfin
  subst hcfg
  cases hx with
  | skips now hpending hshort hq =>
      simp only [Turn.replay, hq]
      refine ⟨rfl, hall, ⟨k, sent, left, htold, fun _ => ?_⟩, fun _ => hmore, hlast⟩
      rwa [hpending, window_short hshort] at hleft
  | waits hpending hlong hlate hq =>
      simp only [Turn.replay, hq]
      exact ⟨rfl, hall, ⟨k, sent, left, htold.flush, fun _ => hleft⟩, fun _ => hmore, hlast⟩
  | sends now hpending hlong hlate hbatch hq =>
      simp only [Turn.replay, hq]
      rw [hpending, window_next hlong hlate] at hleft
      subst hleft
      exact ⟨rfl, hall, ⟨k, _, _, htold.send, fun _ => rfl⟩, fun _ => hmore, hlast⟩
  | fills hpending hlong hlate hq =>
      simp only [Turn.replay, hq]
      rw [hpending, window_next hlong hlate] at hleft
      subst hleft
      have hfull := htold.send.flush
      rw [List.append_assoc] at hfull
      exact ⟨rfl, hall, ⟨k, _, _, hfull, fun _ => rfl⟩, fun _ => hmore, hlast⟩
  | restarts now hend hgo hq =>
      simp only [Turn.replay, hq]
      rw [hend] at hleft
      subst hleft
      refine ⟨rfl, hall, ⟨k + 1, [], _, htold.turnOver, fun _ => ?_⟩, fun _ hne => ?_, hlast⟩
      · exact congrArg v.cfg.window hall
      · by_contra hge
        exact hgo ⟨hne, Nat.le_of_not_lt hge⟩
  | finishes hend hdone hq =>
      simp only [Turn.replay, hq]
      rw [hend] at hleft
      subst hleft
      exact ⟨rfl, hall, ⟨k + 1, [], _, htold.turnOver, nofun⟩, nofun, fun _ => hdone.1⟩

/-- The replay of the tape of a file. -/
def ReplayFile.replay (cfg : ReplayConfig) (f : ReplayFile) : MarketReplay Tape := ⟨{ cfg := cfg }, f.tape⟩

theorem ReplayFile.replay_plays (cfg : ReplayConfig) (f : ReplayFile) :
    (f.replay cfg).reel.Plays cfg (messagesOf f.bytes) where
  config := rfl
  all := rfl
  told := ⟨0, [], _, ⟨rfl, rfl, rfl⟩, fun _ => rfl⟩
  more _ h := Nat.pos_of_ne_zero h
  last := nofun

section Open

variable {cfg : ReplayConfig} {f : ReplayFile} {r : MarketReplay ReplaySource}

/-- The replay of a file is the one of its tape, and that one plays. -/
theorem open_plays (hopen : MarketReplay.open cfg f = some r) (calls : List PumpCall) :
    Follows (fun s t => Shows t s) cfg.preloadMaxMb (r.pumps calls) ((f.replay cfg).pumps calls) ∧
      ((f.replay cfg).pumps calls).reel.Plays cfg (messagesOf f.bytes) := by
  obtain ⟨hstate, hshows⟩ := open_follows hopen
  have hstart : Follows (fun s t => Shows t s) cfg.preloadMaxMb r (f.replay cfg) := ⟨by rw [hstate]; rfl, hshows⟩
  exact ⟨hstart.pumps shows_simulates calls, pumps_keeps (fun h => h.turn) (f.replay_plays cfg) calls⟩

/-- **A replay hands out the window of its file once in every loop**, in order, and ends the
loop with one reset, whenever `pump` is called and whatever the clock shows. The replay is
the same whether the file is in memory, mapped or read by zlib. -/
theorem tape_replayed (hopen : MarketReplay.open cfg f = some r) :
    (∀ calls, ∃ k sent left,
      cfg.window (messagesOf f.bytes) = sent ++ left ∧ (r.pumps calls).loop = k % 2 ^ 32 ∧
        deliveries (r.pumps calls).calls =
          (List.replicate k (cfg.fullLoop (messagesOf f.bytes))).flatten ++ stamped sent) ∧
    ∀ {m f' r'}, MarketReplay.open { cfg with preloadMaxMb := m } f' = some r' → f'.bytes = f.bytes →
      ∀ calls, (r'.pumps calls).toReplayState = (r.pumps calls).toReplayState.withLimit m := by
  refine ⟨fun calls => ?_, fun {m f' r'} hopen' hbytes calls => ?_⟩
  · obtain ⟨hfollows, hplays⟩ := open_plays hopen calls
    obtain ⟨k, sent, left, htold, -⟩ := hplays.told
    have hloop : ((f.replay cfg).pumps calls).loop = (r.pumps calls).loop := by rw [hfollows.state]; rfl
    have hcalls : ((f.replay cfg).pumps calls).calls = (r.pumps calls).calls := by rw [hfollows.state]; rfl
    exact ⟨k, sent, left, htold.window, hloop.symm.trans htold.loop, (congrArg deliveries hcalls).symm.trans htold.calls⟩
  · obtain ⟨hstate, hshows⟩ := open_follows hopen
    obtain ⟨hstate', hshows'⟩ := open_follows hopen'
    rw [ReplayFile.tape, hbytes] at hshows'
    have hstart : Follows (fun s s' => ∃ t, Shows t s ∧ Shows t s') m r r' :=
      ⟨by rw [hstate, hstate']; rfl, f.tape, hshows, hshows'⟩
    exact (hstart.pumps same_tape_simulates calls).state

end Open

/-- A file with one message, at the time five. -/
def oneMessage : List UInt8 := [0, 11, 83, 0, 0, 0, 0, 0, 0, 0, 0, 0, 5]

/-- A mapped file with a message can be opened. -/
theorem open_mapped (cfg : ReplayConfig) {view : List UInt8} (h : messagesOf view ≠ []) :
    MarketReplay.open cfg { mapping := some view, gz := none } = some (MarketReplay.start cfg (.mapped view view)) :=
  if_pos (List.length_pos_iff.mpr h)

theorem oneMessage_ne_nil : messagesOf oneMessage ≠ [] := by decide +kernel

theorem tape_replayed_sample :
    (∃ k sent left, ReplayConfig.window {} (messagesOf oneMessage) = sent ++ left ∧
      ((MarketReplay.start {} (.mapped oneMessage oneMessage)).pumps [⟨3, 0, fun _ => 0⟩]).loop = k % 2 ^ 32 ∧
        deliveries ((MarketReplay.start {} (.mapped oneMessage oneMessage)).pumps [⟨3, 0, fun _ => 0⟩]).calls =
          (List.replicate k (ReplayConfig.fullLoop {} (messagesOf oneMessage))).flatten ++ stamped sent) ∧
    ((MarketReplay.start { preloadMaxMb := 0 } (.streamed (GzReader.new (Gz.eager oneMessage)))).pumps [⟨3, 0, fun _ => 0⟩]).toReplayState =
      ((MarketReplay.start {} (.mapped oneMessage oneMessage)).pumps [⟨3, 0, fun _ => 0⟩]).toReplayState.withLimit 0 :=
  have hmapped := open_mapped {} oneMessage_ne_nil
  have hfull : preload (0 * 2 ^ 20 % 2 ^ 64) ((Gz.eager oneMessage).data.length + 1) (GzReader.new (Gz.eager oneMessage)) [] = none := by
    decide +kernel
  have hstreamed : MarketReplay.open { preloadMaxMb := 0 } { mapping := none, gz := some (Gz.eager oneMessage) } =
      some (MarketReplay.start { preloadMaxMb := 0 } (.streamed (GzReader.new (Gz.eager oneMessage)))) := by
    simp only [MarketReplay.open, hfull]
  ⟨(tape_replayed hmapped).1 _, (tape_replayed hmapped).2 hstreamed rfl _⟩

/-! ### The calls that come back -/

section Returns

variable {cfg : ReplayConfig} {msgs : List (List UInt8)}

/-- The loops left, or else the room in the batch. -/
def room (cfg : ReplayConfig) (loop batch : ℕ) : ℕ := if cfg.loops ≠ 0 then cfg.loops - loop else cfg.maxBatch - batch

/-- One at the end of a window that comes again and again. -/
def atEnd (cfg : ReplayConfig) (pending : List (List UInt8)) : ℕ :=
  if cfg.loops = 0 ∧ cfg.window pending = [] then 1 else 0

/-- What goes down from turn to turn. -/
def Reel.effort (v : Reel) (batch : ℕ) : ℕ ×ₗ ℕ ×ₗ ℕ :=
  toLex (room v.cfg v.loop batch, toLex (atEnd v.cfg v.pending, v.pending.length))

/-- **A turn that is not the last one** brings the end of the call nearer. -/
theorem Reel.Plays.effort_lt {v : Reel} {now batch batch' : ℕ} {q : MarketReplay Tape} (h : v.Plays cfg msgs)
    (hgoes : cfg.loops ≠ 0 ∨ cfg.window msgs ≠ []) (hfin : v.finished = false)
    (hx : v.Turns batch (.again now batch' q)) : q.reel.effort batch' < v.effort batch := by
  have hloop := h.more hfin
  have hlt := cfg.loops_lt
  obtain ⟨rfl, hall, -, -, -⟩ := h
  unfold Reel.effort
  rw [Prod.Lex.toLex_lt_toLex, Prod.Lex.toLex_lt_toLex]
  cases hx with
  | skips now hpending hshort hq =>
      right
      rw [hq]
      simp only [advance, hpending, List.length_cons]
      have hsame {msg : List UInt8} {rest : List (List UInt8)} (hshort : msg.length < 11) :
          atEnd v.cfg (msg :: rest) = atEnd v.cfg rest := by rw [atEnd, atEnd, window_short hshort]
      exact ⟨trivial, .inr ⟨(hsame hshort).symm, by omega⟩⟩
  | sends now hpending hlong hlate hbatch hq =>
      rw [hq]
      simp only [advance, say, hpending, List.length_cons]
      by_cases hcount : v.cfg.loops = 0
      · left
        rw [room, room, if_neg (not_not.mpr hcount), if_neg (not_not.mpr hcount)]
        omega
      · right
        have hend (pending : List (List UInt8)) : atEnd v.cfg pending = 0 := if_neg fun h => hcount h.1
        rw [room, room, if_pos hcount, if_pos hcount, hend, hend]
        exact ⟨rfl, .inr ⟨rfl, by omega⟩⟩
  | restarts now hend hgo hq =>
      rw [hq]
      simp only [advance, say, turnOver]
      by_cases hcount : v.cfg.loops = 0
      · right
        have hmsgs := hgoes.resolve_left (not_not.mpr hcount)
        have hover : atEnd v.cfg v.pending = 1 := if_pos ⟨hcount, hend⟩
        have hfresh : atEnd v.cfg v.all = 0 := if_neg fun h => hmsgs (by rw [← hall]; exact h.2)
        rw [room, room, if_neg (not_not.mpr hcount), if_neg (not_not.mpr hcount), hover, hfresh]
        exact ⟨rfl, .inl (by omega)⟩
      · left
        have hloop := hloop hcount
        rw [room, room, if_pos hcount, if_pos hcount, Nat.mod_eq_of_lt (by omega)]
        omega

/-- A call comes back if the loops are counted or the window has a message. -/
theorem pumpLoop_returns {q : MarketReplay Tape} (h : q.reel.Plays cfg msgs)
    (hgoes : cfg.loops ≠ 0 ∨ cfg.window msgs ≠ []) (hfin : q.finished = false) (mono : ℕ → ℕ) (i now batch : ℕ) :
    ∃ fuel, (q.pumpLoop mono fuel i now batch).1.isSome := by
  induction heffort : q.reel.effort batch using WellFoundedLT.induction generalizing q i now batch with
  | ind e ih =>
      have hx := Reel.turns q hfin (mono i) now batch
      cases heq : q.turn (mono i) now batch with
      | again now' batch' q' =>
          rw [heq] at hx
          have hlt := h.effort_lt hgoes hfin hx
          rw [heffort] at hlt
          obtain ⟨fuel, hfuel⟩ := ih _ hlt (h.turn hfin hx) (hx.unfinished rfl hfin) (i + 1) now' batch' rfl
          refine ⟨fuel + 1, ?_⟩
          rw [MarketReplay.pumpLoop, heq]
          exact hfuel
      | done more q' =>
          refine ⟨1, ?_⟩
          rw [MarketReplay.pumpLoop, heq]
          rfl

/-- A call for an endless replay of a window without messages never comes back. -/
theorem pumpLoop_hangs {q : MarketReplay Tape} (h : q.reel.Plays cfg msgs) (hloops : cfg.loops = 0)
    (hmsgs : cfg.window msgs = []) (hfin : q.finished = false) (mono : ℕ → ℕ) (fuel i now batch : ℕ) :
    (q.pumpLoop mono fuel i now batch).1 = none := by
  induction fuel generalizing q i now batch with
  | zero => rfl
  | succ fuel ih =>
      have hx := Reel.turns q hfin (mono i) now batch
      -- nothing of the window is to come
      have hnone : q.reel.cfg.window q.reel.pending = [] := by
        obtain ⟨k, sent, left, htold, hleft⟩ := h.told
        rw [h.config, hleft hfin]
        exact (List.append_eq_nil_iff.mp (htold.window.symm.trans hmsgs)).2
      rw [MarketReplay.pumpLoop]
      cases heq : q.turn (mono i) now batch with
      | again now' batch' q' =>
          rw [heq] at hx
          exact ih (h.turn hfin hx) (hx.unfinished rfl hfin) (i + 1) now' batch'
      | done more q' =>
          rw [heq] at hx
          exfalso
          cases hx with
          | waits hpending hlong hlate hq =>
              rw [hpending, window_next hlong hlate] at hnone
              cases hnone
          | fills hpending hlong hlate hq =>
              rw [hpending, window_next hlong hlate] at hnone
              cases hnone
          | finishes hend hlast hq => exact hlast.1 (by rw [h.config]; exact hloops)

/-- **A call of `pump` comes back** exactly if the loops are counted or the window has a message. -/
theorem Reel.Plays.pump_returns {q : MarketReplay Tape} (h : q.reel.Plays cfg msgs) (now : ℕ) (mono : ℕ → ℕ) :
    (∃ fuel, (q.pump fuel now mono).1.isSome) ↔ cfg.loops ≠ 0 ∨ cfg.window msgs ≠ [] := by
  unfold MarketReplay.pump
  cases hfin : q.finished with
  | true => exact ⟨fun _ => .inl (h.last hfin), fun _ => ⟨0, rfl⟩⟩
  | false =>
      simp only [Bool.false_eq_true, if_false]
      constructor
      · rintro ⟨fuel, hsome⟩
        by_contra hnone
        rw [not_or, not_not, not_not] at hnone
        rw [pumpLoop_hangs h hnone.1 hnone.2 hfin mono fuel 0 now 0] at hsome
        cases hsome
      · intro hgoes
        exact pumpLoop_returns h hgoes hfin mono 0 now 0

end Returns

/-- **Each call of `pump`** on a file that could be opened comes back if and only if the loops
are counted or the window of the file has a message. -/
theorem pump_returns_iff {cfg : ReplayConfig} {f : ReplayFile} {r : MarketReplay ReplaySource}
    (hopen : MarketReplay.open cfg f = some r) (calls : List PumpCall) (now : ℕ) (mono : ℕ → ℕ) :
    (∃ fuel, ((r.pumps calls).pump fuel now mono).1.isSome) ↔
      cfg.loops ≠ 0 ∨ cfg.window (messagesOf f.bytes) ≠ [] := by
  obtain ⟨hfollows, hplays⟩ := open_plays hopen calls
  rw [← hplays.pump_returns now mono]
  simp only [(hfollows.pump shows_simulates _ now mono).1]

/-- Two calls on a file with a message, as one message is a batch. -/
theorem pump_returns_iff_sample :
    (∃ fuel, (((MarketReplay.start { maxBatch := 1 } (.mapped oneMessage oneMessage)).pumps [⟨1, 0, fun _ => 0⟩]).pump
      fuel 0 fun _ => 0).1.isSome) ↔
      (0 ≠ 0 ∨ ReplayConfig.window { maxBatch := 1 } (messagesOf oneMessage) ≠ []) :=
  pump_returns_iff (open_mapped { maxBatch := 1 } oneMessage_ne_nil) _ _ _

/-- An endless replay up to the time four of a file whose first message is from the time
five hangs. -/
theorem pump_hangs : ∃ r, MarketReplay.open { stopAtNs := 4 } { mapping := some oneMessage, gz := none } = some r ∧
    ¬∃ fuel, (r.pump fuel 0 fun _ => 0).1.isSome := by
  have hopen := open_mapped { stopAtNs := 4 } oneMessage_ne_nil
  refine ⟨_, hopen, ?_⟩
  obtain ⟨hfollows, hplays⟩ := open_plays hopen []
  have hreturns := hplays.pump_returns 0 fun _ => 0
  simp only [(hfollows.pump shows_simulates _ 0 fun _ => 0).1] at hreturns
  exact fun h => absurd (hreturns.mp h) (by decide +kernel)

end TickToTrade.Sim
