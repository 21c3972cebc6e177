import TickToTrade.Dut.DutSession
import TickToTrade.Util.TickGrid
import Mathlib.Data.Rat.Floor

/-!
# The quoter

The strategy of the DUT. It takes the fair value of a book from its best prices,
weighted by the sizes on the other side, and quotes a bid and an offer around it, half
a spread away and shifted against the inventory. The prices are rounded to the tick
grid that starts at the low end of the book's band, kept apart and clamped to the band.
It keeps the interval of the fair values that round to the same quote, and reports no
change while the fair value stays in it.

The program computes with doubles; here these are exact rationals. A conversion of a
double that does not fit, and an overflow of a price, are undefined in the program;
here prices are integers without a bound.

The interval is exact: no change is reported only where a fresh evaluation would give
the same quote again (`unchanged_exact`). The quote is not always kept apart: the clamp
comes last, and pushes a quote that lies outside the band together at its end
(`apart_iff`).
-/

namespace TickToTrade.Dut

open Util

/-! ### The quoter -/

/-- `QuoterConfig`. -/
structure QuoterConfig where
  /-- The price granularity. -/
  tickWire : ℤ := 1
  /-- Half of the quoted spread, in ticks. -/
  halfSpreadTicks : ℤ := 1
  /-- The size of each side. -/
  quoteQty : ℕ := 100
  /-- The shift of the quote, in ticks for each share of inventory. -/
  skewTicksPerUnit : ℚ := 0

/-- `QuoterStrategy`. -/
structure QuoterStrategy where
  cfg : QuoterConfig
  /-- The low end of the interval of fair values in which nothing changes. -/
  fairLo : ℚ := 0
  /-- The high end; the interval is open. -/
  fairHi : ℚ := -1

namespace QuoterStrategy

/-- Forget the interval. -/
def forget (q : QuoterStrategy) : QuoterStrategy := { q with fairLo := 0, fairHi := -1 }

/-- Round down to the tick grid, not below its origin. -/
def roundDownToTick (cfg : QuoterConfig) (price : ℚ) (origin : ℤ) : ℤ :=
  if price ≤ origin then origin
  else
    let offset := price - origin
    let ticks := ⌊offset / cfg.tickWire⌋
    origin + ticks * cfg.tickWire

/-- Round up to the tick grid, not below its origin. -/
def roundUpToTick (cfg : QuoterConfig) (price : ℚ) (origin : ℤ) : ℤ :=
  if price ≤ origin then origin
  else
    let offset := price - origin
    let ticks := ⌈offset / cfg.tickWire⌉
    origin + ticks * cfg.tickWire

/-- The nearest price of the band. -/
def clampToBand (price : ℤ) (book : BookBuilder) : ℤ :=
  if price < book.bandLow then book.bandLow
  else if price > book.bandHigh then book.bandHigh
  else price

/-- The sizes at the best prices together. -/
def total (book : BookBuilder) : ℕ :=
  book.sizeAt .buy book.bestBid + book.sizeAt .sell book.bestAsk

/-- The numerator of the fair value: each best price counts by the size on the other
side, in a 64-bit word, and both count alike when there is no size. -/
def num (book : BookBuilder) : ℚ :=
  if total book = 0 then (book.bestBid : ℚ) + book.bestAsk
  else
    ((book.bestBid * book.sizeAt .sell book.bestAsk + book.bestAsk * book.sizeAt .buy book.bestBid) %
      2 ^ 64 : ℤ)

/-- The denominator of the fair value. -/
def den (book : BookBuilder) : ℚ := if total book = 0 then 2 else total book

/-- The fair value. -/
def fair (book : BookBuilder) : ℚ := num book / den book

/-- Half of the quoted spread. -/
def half (cfg : QuoterConfig) : ℚ := cfg.halfSpreadTicks * cfg.tickWire

/-- The shift of the quote against the inventory. -/
def skew (cfg : QuoterConfig) (acct : Account) : ℚ :=
  -(acct.position : ℚ) * cfg.skewTicksPerUnit * cfg.tickWire

/-- `bidPrice` as it is rounded first. -/
def bidRounded (cfg : QuoterConfig) (book : BookBuilder) (acct : Account) : ℤ :=
  roundDownToTick cfg (fair book - half cfg + skew cfg acct) book.bandLow

/-- `askPrice` as it is rounded first. -/
def askRounded (cfg : QuoterConfig) (book : BookBuilder) (acct : Account) : ℤ :=
  roundUpToTick cfg (fair book + half cfg + skew cfg acct) book.bandLow

/-- Is the rounded quote inside the band as it is? -/
def plain (cfg : QuoterConfig) (book : BookBuilder) (acct : Account) : Prop :=
  let bidPrice := bidRounded cfg book acct
  let askPrice := askRounded cfg book acct
  bidPrice > book.bandLow ∧ askPrice > book.bandLow ∧ bidPrice < askPrice ∧
    bidPrice ≥ book.bandLow ∧ askPrice ≤ book.bandHigh

instance (cfg : QuoterConfig) (book : BookBuilder) (acct : Account) : Decidable (plain cfg book acct) := by
  unfold plain
  infer_instance

/-- Keep the interval of the fair values that round to the same quote. -/
def keepInterval (q : QuoterStrategy) (book : BookBuilder) (acct : Account) : QuoterStrategy :=
  let bidPrice := bidRounded q.cfg book acct
  let askPrice := askRounded q.cfg book acct
  { q with
    fairLo :=
      max ((bidPrice : ℚ) + half q.cfg - skew q.cfg acct)
        (((askPrice - q.cfg.tickWire : ℤ) : ℚ) - half q.cfg - skew q.cfg acct)
    fairHi :=
      min (((bidPrice + q.cfg.tickWire : ℤ) : ℚ) + half q.cfg - skew q.cfg acct)
        ((askPrice : ℚ) - half q.cfg - skew q.cfg acct) }

/-- The targets: the rounded quote, kept apart and then clamped to the band. -/
def targets (cfg : QuoterConfig) (book : BookBuilder) (acct : Account) : QuoteTargets :=
  let bidPrice := bidRounded cfg book acct
  let askPrice := askRounded cfg book acct
  let bidPrice := if bidPrice ≥ askPrice then askPrice - cfg.tickWire else bidPrice
  { quoteBid := true
    bidPrice := clampToBand bidPrice book
    bidQty := cfg.quoteQty
    quoteAsk := true
    askPrice := clampToBand askPrice book
    askQty := cfg.quoteQty }

/-- Look at a book: the targets to quote, or `none` for no change. -/
def onBook (q : QuoterStrategy) (book : BookBuilder) (acct : Account) : Option QuoteTargets × QuoterStrategy :=
  if book.bestBid = kNoPrice ∨ book.bestAsk = kNoPrice then (some {}, q.forget)
  else if num book > q.fairLo * den book ∧ num book < q.fairHi * den book then (none, q)
  else
    (some (targets q.cfg book acct), if plain q.cfg book acct then q.keepInterval book acct else q.forget)

instance : Strategy QuoterStrategy := ⟨onBook, forget⟩

/-! ### What rounding does -/

variable {cfg : QuoterConfig} {price : ℚ} {origin : ℤ}

theorem roundDownToTick_of_gt (h : (origin : ℚ) < price) :
    roundDownToTick cfg price origin = gridFloor origin cfg.tickWire price := if_neg (not_le.mpr h)

theorem roundUpToTick_of_gt (h : (origin : ℚ) < price) :
    roundUpToTick cfg price origin = gridCeil origin cfg.tickWire price := if_neg (not_le.mpr h)

theorem dvd_roundDownToTick : cfg.tickWire ∣ roundDownToTick cfg price origin - origin := by
  by_cases h : price ≤ origin
  · simp [roundDownToTick, h]
  · rw [roundDownToTick_of_gt (not_le.mp h)]
    exact dvd_gridFloor

theorem dvd_roundUpToTick : cfg.tickWire ∣ roundUpToTick cfg price origin - origin := by
  by_cases h : price ≤ origin
  · simp [roundUpToTick, h]
  · rw [roundUpToTick_of_gt (not_le.mp h)]
    exact dvd_gridCeil

/-- A price above the origin rounds up to a price above the origin, no other does. -/
theorem origin_lt_roundUpToTick (ht : 0 < cfg.tickWire) :
    origin < roundUpToTick cfg price origin ↔ (origin : ℚ) < price := by
  by_cases h : price ≤ origin
  · simp [roundUpToTick, h, not_lt.mpr h]
  · have hprice := not_le.mp h
    rw [roundUpToTick_of_gt hprice]
    refine ⟨fun _ => hprice, fun _ => ?_⟩
    have hle : price ≤ (gridCeil origin cfg.tickWire price : ℚ) := le_gridCeil ht
    exact_mod_cast hprice.trans_le hle

/-- **Rounding down again**: inside the tick over a point of the grid above the origin every
price rounds down to the point. -/
theorem roundDownToTick_eq {g : ℤ} (ht : 0 < cfg.tickWire) (hgrid : cfg.tickWire ∣ g - origin)
    (habove : origin < g) (hlo : (g : ℚ) < price) (hhi : price < ((g + cfg.tickWire : ℤ) : ℚ)) :
    roundDownToTick cfg price origin = g := by
  have horigin : (origin : ℚ) < price := lt_trans (Int.cast_lt.mpr habove) hlo
  push_cast at hhi
  rw [roundDownToTick_of_gt horigin]
  exact gridFloor_eq ht hgrid hlo.le hhi

/-- **Rounding up again**: inside the tick under a point of the grid above the origin every
price rounds up to the point. -/
theorem roundUpToTick_eq {g : ℤ} (ht : 0 < cfg.tickWire) (hgrid : cfg.tickWire ∣ g - origin)
    (habove : origin < g) (hlo : ((g - cfg.tickWire : ℤ) : ℚ) < price) (hhi : price < g) :
    roundUpToTick cfg price origin = g := by
  -- a point above the origin is at least a tick above it
  have htick : cfg.tickWire ≤ g - origin := Int.le_of_dvd (by omega) hgrid
  have horigin : (origin : ℚ) < price :=
    lt_of_le_of_lt (Int.cast_le.mpr (by omega : origin ≤ g - cfg.tickWire)) hlo
  push_cast at hlo
  rw [roundUpToTick_of_gt horigin]
  exact gridCeil_eq ht hgrid hlo hhi.le

/-! ### The interval is exact -/

variable {book : BookBuilder} {acct : Account}

theorem den_pos (book : BookBuilder) : 0 < den book := by
  unfold den
  split_ifs with h
  · norm_num
  · exact_mod_cast Nat.pos_of_ne_zero h

/-- No change is reported for the fair values inside the interval. -/
theorem onBook_eq_none {q : QuoterStrategy} (h : (q.onBook book acct).1 = none) :
    (book.bestBid ≠ kNoPrice ∧ book.bestAsk ≠ kNoPrice) ∧ q.fairLo < fair book ∧ fair book < q.fairHi := by
  simp only [onBook] at h
  split_ifs at h with hside hin
  refine ⟨not_or.mp hside, ?_, ?_⟩
  · exact (lt_div_iff₀ (den_pos book)).mpr hin.1
  · exact (div_lt_iff₀ (den_pos book)).mpr hin.2

/-- Nothing is inside the interval that `forget` leaves. -/
theorem forget_onBook (q : QuoterStrategy) (hbid : book.bestBid ≠ kNoPrice) (hask : book.bestAsk ≠ kNoPrice) :
    (q.forget.onBook book acct).1 = some (targets q.cfg book acct) := by
  have hden := den_pos book
  have hout : ¬(num book > q.forget.fairLo * den book ∧ num book < q.forget.fairHi * den book) := by
    rintro ⟨hlo, hhi⟩
    have hlt : q.forget.fairLo < q.forget.fairHi := lt_of_mul_lt_mul_right (lt_trans hlo hhi) hden.le
    exact absurd hlt (by norm_num [forget])
  unfold onBook
  rw [if_neg (not_or.mpr ⟨hbid, hask⟩), if_neg hout]
  rfl

/-- A fair value inside the interval that was kept for another book gives the same rounded
bid and offer. -/
theorem rounded_of_kept {q : QuoterStrategy} {e : BookBuilder} {acct' : Account}
    (ht : 0 < q.cfg.tickWire) (hplain : plain q.cfg e acct') (hpos : acct'.position = acct.position)
    (hlow : e.bandLow = book.bandLow) (hlo : (q.keepInterval e acct').fairLo < fair book)
    (hhi : fair book < (q.keepInterval e acct').fairHi) :
    bidRounded q.cfg book acct = bidRounded q.cfg e acct' ∧
      askRounded q.cfg book acct = askRounded q.cfg e acct' := by
  obtain ⟨hbid, hask, -⟩ := hplain
  have hskew : skew q.cfg acct' = skew q.cfg acct := by unfold skew; rw [hpos]
  obtain ⟨hloBid, hloAsk⟩ := max_lt_iff.mp hlo
  obtain ⟨hhiBid, hhiAsk⟩ := lt_min_iff.mp hhi
  rw [hskew] at hloBid hloAsk hhiBid hhiAsk
  constructor
  · have hgrid : q.cfg.tickWire ∣ bidRounded q.cfg e acct' - book.bandLow := hlow ▸ dvd_roundDownToTick
    exact roundDownToTick_eq ht hgrid (hlow ▸ hbid) (by linarith) (by linarith)
  · have hgrid : q.cfg.tickWire ∣ askRounded q.cfg e acct' - book.bandLow := hlow ▸ dvd_roundUpToTick
    exact roundUpToTick_eq ht hgrid (hlow ▸ hask) (by linarith) (by linarith)

theorem targets_congr {e : BookBuilder} {acct' : Account} (hlow : e.bandLow = book.bandLow)
    (hhigh : e.bandHigh = book.bandHigh) (hbid : bidRounded cfg book acct = bidRounded cfg e acct')
    (hask : askRounded cfg book acct = askRounded cfg e acct') :
    targets cfg book acct = targets cfg e acct' := by
  simp only [targets, clampToBand, hbid, hask, hlow, hhigh]

/-! #### Runs -/

/-- What the session does with the quoter. -/
inductive Call where
  | onBook (book : BookBuilder) (acct : Account)
  | forget

/-- An evaluation that reported a change. -/
structure Evaluation where
  book : BookBuilder
  acct : Account
  out : QuoteTargets

/-- The quoter, and the last evaluation that reported a change. -/
structure Watched where
  quoter : QuoterStrategy
  last : Option Evaluation := none

/-- Make a call. -/
def Watched.call (w : Watched) : Call → Watched
  | .forget => { w with quoter := w.quoter.forget }
  | .onBook book acct =>
    match w.quoter.onBook book acct with
    | (none, q) => { w with quoter := q }
    | (some out, q) => ⟨q, some ⟨book, acct, out⟩⟩

/-- A quoter after a list of calls. -/
def watch (cfg : QuoterConfig) (calls : List Call) : Watched := calls.foldl Watched.call { quoter := ⟨cfg, 0, -1⟩ }

/-- The interval is the empty one, or the one that belongs to the last change. -/
def Watched.Exact (cfg : QuoterConfig) (w : Watched) : Prop :=
  w.quoter.cfg = cfg ∧
    (w.quoter = w.quoter.forget ∨
      ∃ e, w.last = some e ∧ e.out = targets cfg e.book e.acct ∧ plain cfg e.book e.acct ∧
        w.quoter = w.quoter.keepInterval e.book e.acct)

theorem Watched.Exact.call {w : Watched} (h : w.Exact cfg) (c : Call) : (w.call c).Exact cfg := by
  obtain ⟨hcfg, h⟩ := h
  cases c with
  | forget => exact ⟨hcfg, .inl rfl⟩
  | onBook book acct =>
      simp only [Watched.call, onBook]
      split_ifs with hside hin hplain
      · exact ⟨hcfg, .inl rfl⟩
      · exact ⟨hcfg, h⟩
      · rw [hcfg] at hplain ⊢
        exact ⟨hcfg, .inr ⟨_, rfl, rfl, hplain, rfl⟩⟩
      · exact ⟨hcfg, .inl rfl⟩

theorem watch_exact (cfg : QuoterConfig) (calls : List Call) : (watch cfg calls).Exact cfg := by
  have hrun : ∀ (w : Watched), w.Exact cfg → (calls.foldl Watched.call w).Exact cfg := by
    induction calls with
    | nil => exact fun _ h => h
    | cons c calls ih => exact fun w h => ih _ (h.call c)
  exact hrun _ ⟨rfl, .inl rfl⟩

/-- **No change is exact**: when no change is reported for a book, there was an evaluation
that reported a change, and if the last of these was at the same position, for a book with
the same band, then a fresh evaluation would bring just its targets again. -/
theorem unchanged_exact (cfg : QuoterConfig) (ht : 0 < cfg.tickWire) (calls : List Call) (book : BookBuilder)
    (acct : Account) (h : ((watch cfg calls).quoter.onBook book acct).1 = none) :
    ∃ e, (watch cfg calls).last = some e ∧
      (e.acct.position = acct.position → e.book.bandLow = book.bandLow → e.book.bandHigh = book.bandHigh →
        ((watch cfg calls).quoter.forget.onBook book acct).1 = some e.out) := by
  obtain ⟨hcfg, hexact⟩ := watch_exact cfg calls
  obtain ⟨⟨hbid, hask⟩, hlo, hhi⟩ := onBook_eq_none h
  rcases hexact with hforget | ⟨e, hlast, hout, hplain, hkept⟩
  · -- no fair value is inside the empty interval
    rw [hforget] at hlo hhi
    exact absurd (hlo.trans hhi) (by norm_num [forget])
  · refine ⟨e, hlast, fun hpos hlow hhigh => ?_⟩
    rw [hkept] at hlo hhi
    rw [← hcfg] at hplain hout ht
    obtain ⟨hb, ha⟩ := rounded_of_kept ht hplain hpos hlow hlo hhi
    rw [forget_onBook _ hbid hask, hout, targets_congr hlow hhigh hb ha]

/-- A quoter with a spread of one tick to each side and a skew of one tick for each thousand
shares. -/
def sampleConfig : QuoterConfig := { tickWire := 100, skewTicksPerUnit := 1 / 1000 }

/-- A book with a bid and an offer, in the band from 19600 to 20400. -/
def sampleBook : BookBuilder :=
  (((BookBuilder.ofConfig { tickWire := 100, bandTicks := 4, maxOrders := 16 }).apply
    (.addOrder 1 .buy 30 20000)).apply (.addOrder 2 .sell 40 20300))

/-- One more share on the bid does not change the quote. -/
theorem unchanged_exact_sample : ∃ e,
    (watch sampleConfig [.onBook sampleBook {}]).last = some e ∧
      (e.acct.position = 0 → e.book.bandLow = (sampleBook.apply (.addOrder 3 .buy 1 20000)).bandLow →
        e.book.bandHigh = (sampleBook.apply (.addOrder 3 .buy 1 20000)).bandHigh →
        ((watch sampleConfig [.onBook sampleBook {}]).quoter.forget.onBook
          (sampleBook.apply (.addOrder 3 .buy 1 20000)) {}).1 = some e.out) :=
  unchanged_exact sampleConfig (by decide) [.onBook sampleBook {}] (sampleBook.apply (.addOrder 3 .buy 1 20000)) {}
    (by decide +kernel)

/-! ### The quote and the band -/

/-- The quote around the fair value has a part in the band that can be quoted: its offer is
above the low end, and its bid is under the first price of the grid that is not under the
high end, or its offer is not above that price. -/
def InReach (cfg : QuoterConfig) (book : BookBuilder) (acct : Account) : Prop :=
  let top : ℤ := gridCeil book.bandLow cfg.tickWire (book.bandHigh : ℚ)
  (book.bandLow : ℚ) < fair book + half cfg + skew cfg acct ∧
    (fair book - half cfg + skew cfg acct < top ∨ fair book + half cfg + skew cfg acct ≤ top)

theorem clampToBand_mem (hband : book.bandLow ≤ book.bandHigh) (price : ℤ) :
    book.bandLow ≤ clampToBand price book ∧ clampToBand price book ≤ book.bandHigh := by
  unfold clampToBand
  split_ifs <;> omega

/-- The clamp keeps two prices apart just when neither end of the band has both on one side. -/
theorem clampToBand_lt_iff (hband : book.bandLow < book.bandHigh) {bid ask : ℤ} (h : bid < ask) :
    clampToBand bid book < clampToBand ask book ↔ book.bandLow < ask ∧ bid < book.bandHigh := by
  unfold clampToBand
  split_ifs <;> omega

theorem bidRounded_lt_iff {limit : ℤ} (ht : 0 < cfg.tickWire) (hlimit : book.bandLow < limit) :
    bidRounded cfg book acct < limit ↔
      fair book - half cfg + skew cfg acct < (gridCeil book.bandLow cfg.tickWire (limit : ℚ) : ℚ) := by
  by_cases hlow : fair book - half cfg + skew cfg acct ≤ book.bandLow
  · have hrounded : bidRounded cfg book acct = book.bandLow := if_pos hlow
    have hlimit' : (book.bandLow : ℚ) < limit := Int.cast_lt.mpr hlimit
    have htop : (limit : ℚ) ≤ (gridCeil book.bandLow cfg.tickWire (limit : ℚ) : ℚ) := le_gridCeil ht
    exact ⟨fun _ => by linarith, fun _ => hrounded ▸ hlimit⟩
  · have hrounded : bidRounded cfg book acct = gridFloor book.bandLow cfg.tickWire _ :=
      roundDownToTick_of_gt (not_le.mp hlow)
    rw [hrounded]
    exact gridFloor_lt_iff ht

theorem askRounded_sub_lt_iff {limit : ℤ} (ht : 0 < cfg.tickWire)
    (hask : book.bandLow < askRounded cfg book acct) :
    askRounded cfg book acct - cfg.tickWire < limit ↔
      fair book + half cfg + skew cfg acct ≤ (gridCeil book.bandLow cfg.tickWire (limit : ℚ) : ℚ) := by
  have hrounded : askRounded cfg book acct = gridCeil book.bandLow cfg.tickWire _ :=
    roundUpToTick_of_gt ((origin_lt_roundUpToTick ht).mp hask)
  rw [hrounded]
  exact gridCeil_sub_lt_iff ht

/-- A bid that is under the offer is at least a tick under it. -/
theorem bidRounded_le_sub (h : bidRounded cfg book acct < askRounded cfg book acct) :
    bidRounded cfg book acct ≤ askRounded cfg book acct - cfg.tickWire := by
  have hbid : cfg.tickWire ∣ bidRounded cfg book acct - book.bandLow := dvd_roundDownToTick
  have hask : cfg.tickWire ∣ askRounded cfg book acct - book.bandLow := dvd_roundUpToTick
  have hdvd : cfg.tickWire ∣ askRounded cfg book acct - bidRounded cfg book acct := by
    have h := dvd_sub hask hbid
    rwa [sub_sub_sub_cancel_right] at h
  have hle := Int.le_of_dvd (by omega) hdvd
  omega

/-- Where the rounded bid is not under the rounded offer, the exact one is not either. -/
theorem exact_le_of_crossed (ht : 0 < cfg.tickWire) (hask : book.bandLow < askRounded cfg book acct)
    (h : bidRounded cfg book acct ≥ askRounded cfg book acct) :
    fair book + half cfg + skew cfg acct ≤ fair book - half cfg + skew cfg acct := by
  have hbid : (book.bandLow : ℚ) < fair book - half cfg + skew cfg acct := by
    by_contra hlow
    have hrounded : bidRounded cfg book acct = book.bandLow := if_pos (not_lt.mp hlow)
    omega
  have hdown : bidRounded cfg book acct = gridFloor book.bandLow cfg.tickWire _ := roundDownToTick_of_gt hbid
  have hup : askRounded cfg book acct = gridCeil book.bandLow cfg.tickWire _ :=
    roundUpToTick_of_gt ((origin_lt_roundUpToTick ht).mp hask)
  calc fair book + half cfg + skew cfg acct
      ≤ (askRounded cfg book acct : ℚ) := hup ▸ le_gridCeil ht
    _ ≤ bidRounded cfg book acct := Int.cast_le.mpr h
    _ ≤ fair book - half cfg + skew cfg acct := hdown ▸ gridFloor_le ht

/-- The bid that goes to the clamp is under a limit above the low end just when the exact bid
is under the limit rounded up, or the exact offer not above it. -/
theorem uncrossed_lt_iff {limit : ℤ} (ht : 0 < cfg.tickWire) (hlimit : book.bandLow < limit)
    (hask : book.bandLow < askRounded cfg book acct) :
    (if bidRounded cfg book acct ≥ askRounded cfg book acct then askRounded cfg book acct - cfg.tickWire
        else bidRounded cfg book acct) < limit ↔
      fair book - half cfg + skew cfg acct < (gridCeil book.bandLow cfg.tickWire (limit : ℚ) : ℚ) ∨
        fair book + half cfg + skew cfg acct ≤ (gridCeil book.bandLow cfg.tickWire (limit : ℚ) : ℚ) := by
  rw [← bidRounded_lt_iff ht hlimit, ← askRounded_sub_lt_iff ht hask]
  split_ifs with hcross
  · refine ⟨.inr, fun h => h.elim (fun hbid => ?_) id⟩
    have hexact := exact_le_of_crossed ht hask hcross
    rw [askRounded_sub_lt_iff ht hask]
    exact hexact.trans ((bidRounded_lt_iff ht hlimit).mp hbid).le
  · have hle := bidRounded_le_sub (not_le.mp hcross)
    exact ⟨.inl, fun h => h.elim id fun hsub => by omega⟩

/-- The targets are apart and in the band just when the quote around the fair value is in
reach of the band. -/
theorem targets_apart_iff (ht : 0 < cfg.tickWire) (hband : book.bandLow < book.bandHigh) :
    (targets cfg book acct).bidPrice < (targets cfg book acct).askPrice ↔ InReach cfg book acct := by
  have hlt : (if bidRounded cfg book acct ≥ askRounded cfg book acct then
      askRounded cfg book acct - cfg.tickWire else bidRounded cfg book acct) < askRounded cfg book acct := by
    split_ifs <;> omega
  have hask : book.bandLow < askRounded cfg book acct ↔
      (book.bandLow : ℚ) < fair book + half cfg + skew cfg acct := origin_lt_roundUpToTick ht
  simp only [targets, InReach]
  rw [clampToBand_lt_iff hband hlt, ← hask]
  exact and_congr_right fun h => uncrossed_lt_iff ht hband h

end QuoterStrategy

end TickToTrade.Dut
