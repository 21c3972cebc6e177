import Mathlib.Data.List.Flatten
import TickToTrade.Replay.ItchFile

/-!
# The replay of a tape

`MarketReplay` hands the messages of a file to a session, one after the other, as fast as
its pacing lets it, and starts again at the end of the file or of the window. Its three
kinds of source (a file in memory, a mapped file, a file that zlib reads) are a type here
with an instance of `TapeSource`, and the replay is generic over it.

A product of a floating-point number is not modelled: `scaled` stands for the nanoseconds
that the speed gives a difference of timestamps, and `paced` for its test against zero.
The counter of the file's messages is left out.
-/

namespace TickToTrade.Sim

open Replay

/-- `ReplayConfig`. -/
structure ReplayConfig where
  /-- Is `m_nsPerNs` greater than zero? -/
  paced : Bool := true
  /-- A difference of timestamps times `m_nsPerNs`, as a 64-bit word. -/
  scaled : ℕ → ℕ := id
  /-- Zero for no end. -/
  loops : ℕ := 0
  loops_lt : loops < 2 ^ 32 := by decide
  skipToNs : ℕ := 0
  stopAtNs : ℕ := 0
  preloadMaxMb : ℕ := 1024
  maxBatch : ℕ := 64
  afapMaxPerSec : ℕ := 1000000

/-- What a replay asks of its session. -/
inductive SessionCall where
  | replayMessage (msg : List UInt8) (ts : ℕ)
  | flushMarketData
  | resetDay (ts : ℕ)
deriving DecidableEq, Repr

/-- What `fetch` and `restart` ask of a source: the next message, and to start again. -/
class TapeSource (σ : Type) where
  fetch : σ → Option (List UInt8) × σ
  restart : σ → Bool × σ

/-- `MarketReplay` but for its source. -/
structure ReplayState where
  cfg : ReplayConfig
  loop : ℕ := 0
  sent : ℕ := 0
  virtualTs : ℕ := 0
  maxLateNs : ℕ := 0
  lateOver1ms : ℕ := 0
  finished : Bool := false
  /-- `m_cur`: the message that was read last, waiting if `have`. -/
  cur : List UInt8 := []
  /-- `m_have`. -/
  held : Bool := false
  anchored : Bool := false
  anchorMono : ℕ := 0
  anchorTs : ℕ := 0
  afapStart : ℕ := 0
  afapSent : ℕ := 0
  /-- What the session has been asked. -/
  calls : List SessionCall := []

/-- `MarketReplay`. -/
structure MarketReplay (σ : Type) extends ReplayState where
  source : σ

/-- `SymbolFilter::timestampOf`. -/
def timestampOf (msg : List UInt8) : ℕ := Itch.beAt msg 5 6

/-- Is the message behind the end of the window? -/
def ReplayConfig.Late (cfg : ReplayConfig) (msg : List UInt8) : Prop := cfg.stopAtNs ≠ 0 ∧ timestampOf msg > cfg.stopAtNs

instance (cfg : ReplayConfig) (msg : List UInt8) : Decidable (cfg.Late msg) := inferInstanceAs (Decidable (_ ∧ _))

namespace ReplayState

/-- Ask the session. -/
def call (r : ReplayState) (c : SessionCall) : ReplayState := { r with calls := r.calls ++ [c] }

/-- `restart`, but for the source. -/
def rewind (r : ReplayState) : ReplayState :=
  { r with held := false, anchored := false, afapStart := 0, afapSent := 0 }

/-- `m_have` is set. -/
def hold (r : ReplayState) (held : Bool) : ReplayState := { r with held := held }

def finish (r : ReplayState) : ReplayState := { r with finished := true }

/-- The start of `endOfLoop`. -/
def endDay (r : ReplayState) : ReplayState :=
  { (r.call (.resetDay r.virtualTs)).call .flushMarketData with loop := (r.loop + 1) % 2 ^ 32 }

/-- The message goes out. -/
def send (r : ReplayState) (ts : ℕ) : ReplayState :=
  { r.call (.replayMessage r.cur ts) with virtualTs := ts, sent := (r.sent + 1) % 2 ^ 64, held := false }

/-- The first message from the start of the pacing on ties the file's time to the clock. -/
def anchor (r : ReplayState) (now ts : ℕ) : ReplayState :=
  if !r.anchored ∧ r.cfg.paced ∧ (r.cfg.skipToNs = 0 ∨ ts ≥ r.cfg.skipToNs) then
    { r with anchored := true, anchorMono := now, anchorTs := ts }
  else r

/-- The first message out of turn starts the meter. -/
def startMeter (r : ReplayState) (now : ℕ) : ReplayState :=
  if r.afapStart = 0 then { r with afapStart := now, afapSent := 0 } else r

/-- When the meter lets the next message go. -/
def meterDue (r : ReplayState) : ℕ :=
  (r.afapStart + r.afapSent * 1000000000 % 2 ^ 64 / r.cfg.afapMaxPerSec) % 2 ^ 64

def meter (r : ReplayState) : ReplayState := { r with afapSent := (r.afapSent + 1) % 2 ^ 64 }

/-- When an anchored replay lets a message go. -/
def due (r : ReplayState) (ts : ℕ) : ℕ :=
  if ts > r.anchorTs then (r.anchorMono + r.cfg.scaled (ts - r.anchorTs)) % 2 ^ 64 else r.anchorMono

def noteLate (r : ReplayState) (late : ℕ) : ReplayState :=
  { r with
    maxLateNs := max late r.maxLateNs
    lateOver1ms := if late > 1000000 then (r.lateOver1ms + 1) % 2 ^ 64 else r.lateOver1ms }

/-- The pacing of a message: has it to wait, and the time after. The clock, if it is read
again, shows `mono`. -/
def pace (r : ReplayState) (mono now batch ts : ℕ) : Bool × ℕ × ReplayState :=
  if !r.anchored ∧ r.cfg.afapMaxPerSec > 0 then
    let r := r.startMeter now
    if batch = 0 ∧ r.afapSent > 0 ∧ r.meterDue > now then
      if r.meterDue > mono then (true, mono, r) else (false, mono, r.meter)
    else (false, now, r.meter)
  else if r.anchored then
    if r.due ts > now ∧ r.due ts > mono then (true, mono, r)
    else
      let now := if r.due ts > now then mono else now
      (false, now, r.noteLate (now - r.due ts))
  else (false, now, r)

end ReplayState

/-- How a turn of the loop of `pump` ends: with the next turn, at some time and with some
messages sent, or with an answer. -/
inductive Turn (σ : Type) where
  | again (now batch : ℕ) (r : MarketReplay σ)
  | done (more : Bool) (r : MarketReplay σ)

namespace MarketReplay

variable {σ : Type} [TapeSource σ]

/-- Change all but the source. -/
def modify (r : MarketReplay σ) (f : ReplayState → ReplayState) : MarketReplay σ := ⟨f r.toReplayState, r.source⟩

def restart (r : MarketReplay σ) : Bool × MarketReplay σ :=
  let (ok, source) := TapeSource.restart r.source
  (ok, ⟨r.rewind, source⟩)

def fetch (r : MarketReplay σ) : Bool × MarketReplay σ :=
  match TapeSource.fetch r.source with
  | (some msg, source) => (true, ⟨{ r.toReplayState with cur := msg }, source⟩)
  | (none, source) => (false, ⟨r.toReplayState, source⟩)

def endOfLoop (r : MarketReplay σ) : MarketReplay σ :=
  let r := r.modify (·.endDay)
  if r.cfg.loops ≠ 0 ∧ r.loop ≥ r.cfg.loops then r.modify (·.finish)
  else
    let (ok, r) := r.restart
    if ok then r else r.modify (·.finish)

/-- The loop has ended: the last one, or the next turn goes on. -/
def nextLoop (now batch : ℕ) (r : MarketReplay σ) : Turn σ :=
  let r := r.endOfLoop
  if r.finished then .done false r else .again now batch r

/-- The end of a turn: the message goes out. -/
def deliver (now batch ts : ℕ) (r : MarketReplay σ) : Turn σ :=
  let r := r.modify (·.send ts)
  let batch := batch + 1
  if batch ≥ r.cfg.maxBatch then .done true (r.modify (·.call .flushMarketData)) else .again now batch r

/-- The end of a turn after the pacing: the message waits or goes out. -/
def afterPace (batch ts : ℕ) (r : MarketReplay σ) : Bool × ℕ × ReplayState → Turn σ
  | (wait, now, s) =>
      let r := r.modify fun _ => s
      if wait then .done true (r.modify (·.call .flushMarketData)) else r.deliver now batch ts

/-- A turn from where a message of the window is held. -/
def release (mono now batch ts : ℕ) (r : MarketReplay σ) : Turn σ :=
  let r := r.modify (·.anchor now ts)
  r.afterPace batch ts (r.pace mono now batch ts)

/-- A turn from where a message is held. -/
def consider (mono now batch : ℕ) (r : MarketReplay σ) : Turn σ :=
  if r.cur.length < 11 then .again now batch (r.modify (·.hold false))
  else
    let ts := timestampOf r.cur
    if r.cfg.stopAtNs ≠ 0 ∧ ts > r.cfg.stopAtNs then nextLoop now batch (r.modify (·.hold false))
    else r.release mono now batch ts

/-- A turn of the loop of `pump`. -/
def turn (mono now batch : ℕ) (r : MarketReplay σ) : Turn σ :=
  if !r.held then
    match r.fetch with
    | (false, r) => nextLoop now batch r
    | (true, r) => consider mono now batch (r.modify (·.hold true))
  else consider mono now batch r

/-- The loop of `pump` from the turn `i` on: what it answers, `none` if it has not ended
after so many turns, and the replay then. The clock shows `mono i` if the turn `i` reads it. -/
def pumpLoop (mono : ℕ → ℕ) : ℕ → ℕ → ℕ → ℕ → MarketReplay σ → Option Bool × MarketReplay σ
  | 0, _, _, _, r => (none, r)
  | fuel + 1, i, now, batch, r =>
      match r.turn (mono i) now batch with
      | .again now batch r => pumpLoop mono fuel (i + 1) now batch r
      | .done more r => (some more, r)

/-- `pump`, for so many turns. -/
def pump (fuel now : ℕ) (mono : ℕ → ℕ) (r : MarketReplay σ) : Option Bool × MarketReplay σ :=
  if r.finished then (some false, r) else pumpLoop mono fuel 0 now 0 r

end MarketReplay

/-- A call of `pump` at some time, watched for so many turns. -/
structure PumpCall where
  fuel : ℕ
  now : ℕ
  mono : ℕ → ℕ

/-- One call of `pump` after the other; a call that has not ended holds up the rest. -/
def MarketReplay.pumps {σ : Type} [TapeSource σ] : List PumpCall → MarketReplay σ → MarketReplay σ
  | [], r => r
  | c :: calls, r =>
      match r.pump c.fuel c.now c.mono with
      | (some _, r) => pumps calls r
      | (none, r) => r

/-! ### The sources -/

/-- The source of a replay. -/
inductive ReplaySource where
  /-- `m_store`, each message behind its length, and what is behind `m_cursor`. -/
  | preloaded (store rest : List UInt8)
  /-- The mapped file, and what is behind `m_pos`. -/
  | mapped (view rest : List UInt8)
  | streamed (reader : GzReader)

namespace ReplaySource

/-- `fetch` from memory. -/
def fetchStore : List UInt8 → Option (List UInt8) × List UInt8
  | a :: b :: rest => (some (rest.take (lengthOf a b)), rest.drop (lengthOf a b))
  | rest => (none, rest)

/-- `fetch`. -/
def fetch : ReplaySource → Option (List UInt8) × ReplaySource
  | preloaded store rest => ((fetchStore rest).1, preloaded store (fetchStore rest).2)
  | mapped view rest => ((nextMapped rest).1, mapped view (nextMapped rest).2)
  | streamed reader => (reader.next.1, streamed reader.next.2)

/-- `restart`. A file that could be opened is there. -/
def restart : ReplaySource → Bool × ReplaySource
  | preloaded store _ => (true, preloaded store store)
  | mapped view _ => (true, mapped view view)
  | streamed reader => (true, streamed reader.reset)

instance : TapeSource ReplaySource where
  fetch := fetch
  restart := restart

end ReplaySource

/-- A file: its mapping, if it is not compressed and can be mapped, else what zlib shows of
it, and the size and the number of messages that the file beside it notes. -/
structure ReplayFile where
  mapping : Option (List UInt8)
  gz : Option Gz
  msgcount : Option (ℕ × ℕ) := none

namespace ReplayFile

/-- The bytes of the file, as its reader shows them. -/
def bytes (f : ReplayFile) : List UInt8 :=
  match f.mapping, f.gz with
  | some view, _ => view
  | none, some gz => gz.data
  | none, none => []

end ReplayFile

/-- A message in `m_store`. -/
def stored (msg : List UInt8) : List UInt8 :=
  UInt8.ofNat (msg.length / 256) :: UInt8.ofNat (msg.length % 256) :: msg

/-- The loop of `open` that reads a file into memory: the store, and `none` if it grows over
`cap`. At most so many messages are read. -/
def preload (cap : ℕ) : ℕ → GzReader → List UInt8 → Option (List UInt8)
  | 0, _, store => some store
  | fuel + 1, probe, store =>
      match probe.next with
      | (none, _) => some store
      | (some msg, probe) =>
          if store.length + msg.length + 2 > cap then none else preload cap fuel probe (store ++ stored msg)

namespace MarketReplay

/-- A new replay of a source. -/
def start (cfg : ReplayConfig) (source : ReplaySource) : MarketReplay ReplaySource := ⟨{ cfg := cfg }, source⟩

/-- `open`. A store is not empty when it has a message. -/
def «open» (cfg : ReplayConfig) (f : ReplayFile) : Option (MarketReplay ReplaySource) :=
  match f.mapping, f.gz with
  | some view, _ =>
      let counted := (messagesOf view).length
      let count := match f.msgcount with
        | some (size, count) => if size = view.length then count else counted
        | none => counted
      if count > 0 then some (start cfg (.mapped view view)) else none
  | none, some gz =>
      match preload (cfg.preloadMaxMb * 2 ^ 20 % 2 ^ 64) (gz.data.length + 1) (GzReader.new gz) [] with
      | none => some (start cfg (.streamed (GzReader.new gz)))
      | some store => if store.length > 0 then some (start cfg (.preloaded store store)) else none
  | none, none => none

end MarketReplay

end TickToTrade.Sim
