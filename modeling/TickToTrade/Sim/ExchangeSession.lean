import TickToTrade.Sim.Venue

/-!
# The exchange's session

The session of the simulated exchange in front of its venues, one for each configured
symbol. Requests go to a venue by the symbol or by the user reference, and the messages of
the tape by their locate, which the directory entries of the tape assign.

The framing of the requests and the packing of the market data are not part of this module:
a request is a decoded message, and what goes out is a list of messages.
-/

namespace TickToTrade.Sim

/-- `ExchangeConfig`, without the framing. -/
structure ExchangeConfig where
  symbols : List (List UInt8) := [[65, 65, 80, 76]]
  /-- 16-bit words; zero stands for the default. -/
  locates : List ℕ := [1]
  minTick : ℤ := 1
  maxTick : ℤ := 100000
  wirePerTick : ℕ := 100
  firstOrderRef : ℕ := 1
  liveReserve : ℕ := 2 ^ 12

/-- `SessionStats`: 64-bit counters. -/
structure SessionStats where
  enters : ℕ := 0
  cancels : ℕ := 0
  replaces : ℕ := 0
  forwarded : ℕ := 0
  mirrored : ℕ := 0
  refScans : ℕ := 0
  refMisses : ℕ := 0
deriving DecidableEq, Repr

/-- `RefVenue`: a 32-bit user reference and the venue that it was last used with, a 16-bit
word. -/
structure RefVenue where
  userRef : ℕ := 0
  venue : ℕ := 0
deriving DecidableEq, Repr

/-- What goes out. -/
inductive Output where
  /-- A message of the tape, as it is. -/
  | tape (msg : List UInt8)
  | venue (m : Sent)
deriving DecidableEq, Repr

/-- `ExchangeSession`. -/
structure ExchangeSession where
  venues : List Venue
  /-- The venue of a locate, a signed 16-bit word; negative for none. -/
  venueOfLocate : ℕ → ℤ
  refVenue : ℕ → RefVenue := fun _ => {}
  stats : SessionStats := {}
  out : List Output := []

/-- `static_cast<std::int16_t>`. -/
def int16 (i : ℕ) : ℤ := Int.bmod i (2 ^ 16)

/-- `kRefRing`. -/
def kRefRing : ℕ := 4096

namespace ExchangeConfig

/-- The symbols that the session has a venue for. -/
def venueSymbols (cfg : ExchangeConfig) : List (List UInt8) :=
  if cfg.symbols = [] then [[65, 65, 80, 76]] else cfg.symbols

/-- The locate that a venue starts with. -/
def locateAt (cfg : ExchangeConfig) (i : ℕ) : ℕ :=
  if cfg.locates.getD i 0 ≠ 0 then cfg.locates.getD i 0 else (i + 1) % 2 ^ 16

/-- The first order reference of a venue. -/
def refAt (cfg : ExchangeConfig) (i : ℕ) : ℕ :=
  ((if cfg.firstOrderRef = 0 then 1 else cfg.firstOrderRef) + i * 2 ^ 40) % 2 ^ 64

end ExchangeConfig

namespace ExchangeSession

/-- The constructor. A read outside the pool of a venue's engine finds `stray`. -/
def new (cfg : ExchangeConfig) (stray : ℕ) : ExchangeSession where
  venues := cfg.venueSymbols.mapIdx fun i symbol =>
    Venue.new symbol (cfg.locateAt i) cfg.minTick cfg.maxTick cfg.wirePerTick (cfg.refAt i) cfg.liveReserve stray
  venueOfLocate := (List.range cfg.venueSymbols.length).foldl
    (fun table i => Function.update table (cfg.locateAt i) (int16 i)) fun _ => -1

/-! ### Calls of the venues -/

/-- Change the statistics. -/
def count (s : ExchangeSession) (f : SessionStats → SessionStats) : ExchangeSession := { s with stats := f s.stats }

/-- Call a venue; what it sends goes out. -/
def atVenue (s : ExchangeSession) (i : ℕ) (f : Venue → Venue) : ExchangeSession :=
  match s.venues[i]? with
  | none => s
  | some v =>
      { s with
        venues := s.venues.set i (f v)
        out := s.out ++ ((f v).sent.drop v.sent.length).map .venue }

/-- Call every venue. -/
def atVenues (s : ExchangeSession) (f : Venue → Venue) : ExchangeSession :=
  (List.range s.venues.length).foldl (fun s i => s.atVenue i f) s

def publishDirectory (s : ExchangeSession) : ExchangeSession := s.atVenues Venue.emitStockDirectory

def sessionEvent (s : ExchangeSession) (code : Itch.SystemEventCode) : ExchangeSession :=
  s.atVenue 0 (·.sessionEvent code)

def injectSynthetic (s : ExchangeSession) (side : Side) (tick : ℤ) (qty : ℕ) : ExchangeSession :=
  s.atVenue 0 fun v => (v.injectSynthetic side tick qty).2

def cancelSynthetic (s : ExchangeSession) (ref : ℕ) : ExchangeSession := s.atVenue 0 (·.cancelSynthetic ref)

def resetDay (s : ExchangeSession) : ExchangeSession := s.atVenues Venue.resetDay

/-! ### Requests -/

/-- The venue of a symbol: the first one if there is none. -/
def venueForSymbol (s : ExchangeSession) (symbol : List UInt8) : ℕ :=
  (s.venues.findIdx? fun v => v.symbol = symbol).getD 0

/-- The venue of a user reference, by the ring or else by a search. -/
def venueForUserRef (s : ExchangeSession) (userRef : ℕ) : ℕ × ExchangeSession :=
  let r := s.refVenue (userRef % kRefRing)
  if r.userRef = userRef then (r.venue, s)
  else
    let s := s.count fun x => { x with refScans := inc64 x.refScans }
    match s.venues.findIdx? fun v => v.hasUserRef userRef with
    | some i => (i, s)
    | none => (0, s.count fun x => { x with refMisses := inc64 x.refMisses })

def rememberUserRef (s : ExchangeSession) (userRef venue : ℕ) : ExchangeSession :=
  { s with refVenue := Function.update s.refVenue (userRef % kRefRing) ⟨userRef, venue % 2 ^ 16⟩ }

/-- `dispatchOuch`, for a decoded request. -/
def dispatchOuch (s : ExchangeSession) : Ouch.In → ExchangeSession
  | .enterOrder o =>
      let s := s.count fun x => { x with enters := inc64 x.enters }
      let vi := s.venueForSymbol o.symbol
      (s.rememberUserRef o.userRefNum vi).atVenue vi (·.onEnterOrder o)
  | .cancelOrder x =>
      let (vi, s) := (s.count fun x => { x with cancels := inc64 x.cancels }).venueForUserRef x.userRefNum
      s.atVenue vi (·.onCancelOrder x)
  | .replaceOrder u =>
      let (vi, s) := (s.count fun x => { x with replaces := inc64 x.replaces }).venueForUserRef u.origUserRefNum
      (s.rememberUserRef u.userRefNum vi).atVenue vi (·.onReplaceOrder u)

/-! ### The tape -/

/-- A directory entry of the tape moves a venue to the locate. -/
def bindDirectory (s : ExchangeSession) (name : List UInt8) (locate : ℕ) : ExchangeSession :=
  match s.venues.findIdx? fun v => v.symbol = name with
  | none => s
  | some i =>
      match s.venues[i]? with
      | none => s
      | some v =>
          let old := v.stockLocate
          if old = locate then s
          else
            let table := if s.venueOfLocate old = int16 i then Function.update s.venueOfLocate old (-1) else s.venueOfLocate
            { s with
              venues := s.venues.set i (v.bindLocate locate)
              venueOfLocate := Function.update table locate (int16 i) }

/-- What a venue does with a message of the tape. -/
def mirrorOf : Itch.Body → Option (Venue → Venue)
  | .addOrder ref side shares price => some (·.mirrorAdd ref side price shares)
  | .orderExecuted ref shares _ => some (·.mirrorExecute ref shares)
  | .orderExecutedWithPrice ref shares _ _ => some (·.mirrorExecute ref shares)
  | .orderCancel ref shares => some (·.mirrorCancel ref shares)
  | .orderDelete ref => some (·.mirrorDelete ref)
  | .orderReplace origRef newRef shares price => some (·.mirrorReplace origRef newRef shares price)
  | _ => none

def mirror (s : ExchangeSession) (venue : ℕ) (body : Itch.Body) : ExchangeSession :=
  match mirrorOf body with
  | none => s
  | some f => (s.atVenue venue f).count fun x => { x with mirrored := inc64 x.mirrored }

/-- The venue that the messages of a locate are mirrored into. -/
def venueAt (s : ExchangeSession) (locate : ℕ) : Option ℕ :=
  if s.venueOfLocate locate ≥ 0 then some (s.venueOfLocate locate).toNat else none

def replayMessage (s : ExchangeSession) (msg : List UInt8) : ExchangeSession :=
  if msg.length < 11 then s
  else
    let s := { s.count fun x => { x with forwarded := inc64 x.forwarded } with out := s.out ++ [.tape msg] }
    let m := Itch.decode msg
    match m.body with
    | .stockDirectory name => s.bindDirectory name m.locate
    | .stockDirectoryShort => s
    | body =>
        match s.venueAt m.locate with
        | some vi => s.mirror vi body
        | none => s

/-! ### Runs -/

/-- A call of a session. -/
inductive Op where
  | request (m : Ouch.In)
  | injectSynthetic (side : Side) (tick : ℤ) (qty : ℕ)
  | cancelSynthetic (ref : ℕ)
  | sessionEvent (code : Itch.SystemEventCode)
  | replayMessage (msg : List UInt8)
  | resetDay
  | publishDirectory
deriving DecidableEq, Repr

def step (s : ExchangeSession) : Op → ExchangeSession
  | .request m => s.dispatchOuch m
  | .injectSynthetic side tick qty => s.injectSynthetic side tick qty
  | .cancelSynthetic ref => s.cancelSynthetic ref
  | .sessionEvent code => s.sessionEvent code
  | .replayMessage msg => s.replayMessage msg
  | .resetDay => s.resetDay
  | .publishDirectory => s.publishDirectory

/-- A run. -/
def run (s : ExchangeSession) (ops : List Op) : ExchangeSession := ops.foldl step s

end ExchangeSession

end TickToTrade.Sim
