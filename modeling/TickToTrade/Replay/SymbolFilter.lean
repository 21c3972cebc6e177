import Mathlib.Logic.Function.Basic
import TickToTrade.Protocol.Itch50
import TickToTrade.Util.Unwinding

/-!
# The extract of a tape

The filter that cuts the messages of some symbols out of a tape. It passes the system events, the
directory entries of its symbols, and the messages whose locate such an entry has named before; a
locate that was named once stays named.

## What is proved

* `mine_foldl` — the locates that are named after some messages are those of the entries among them,
* `extract_extract` — the filter passes all of what it has passed.
-/

namespace TickToTrade.Replay

open Util

/-- `SymbolFilter`. -/
structure SymbolFilter where
  symbols : List (List UInt8)
  /-- The locate of each symbol, by its number. -/
  locates : ℕ → ℕ := fun _ => 0
  /-- The locates that an entry of a symbol has named. -/
  mine : ℕ → Bool := fun _ => false
  /-- The number of these locates. -/
  resolvedCount : ℕ := 0

namespace SymbolFilter

/-- The constructor. -/
def new (symbols : List (List UInt8)) : SymbolFilter := { symbols }

/-- `locateOf`. -/
def locateOf (msg : List UInt8) : ℕ := Itch.beAt msg 1 2

/-- The symbol that a directory entry names. -/
def stockOf (msg : List UInt8) : List UInt8 := Itch.alphaView ((msg.drop 11).take 8)

/-- An entry of one of the symbols names its locate. -/
def bind (f : SymbolFilter) (i locate : ℕ) : SymbolFilter :=
  { f with
    resolvedCount := if f.mine locate then f.resolvedCount else f.resolvedCount + 1
    locates := Function.update f.locates i locate
    mine := Function.update f.mine locate true }

/-- `accept`. -/
def accept (f : SymbolFilter) (msg : List UInt8) : Bool × SymbolFilter :=
  if msg.length < 11 then (false, f)
  else
    let type := Itch.byteAt msg 0
    if type = 83 then (true, f)         -- 'S'
    else if type = 82 then              -- 'R'
      if msg.length < 39 then (false, f)
      else
        match f.symbols.findIdx? (· = stockOf msg) with
        | some i => (true, f.bind i (locateOf msg))
        | none => (false, f)
    else (f.mine (locateOf msg), f)

/-- `resolved`. -/
def resolved (f : SymbolFilter) : Bool := f.resolvedCount = f.symbols.length

/-- The filter after a message. -/
def take (f : SymbolFilter) (msg : List UInt8) : SymbolFilter := (f.accept msg).2

/-- Is the message left out? -/
def drops (f : SymbolFilter) (msg : List UInt8) : Bool := !(f.accept msg).1

/-- The messages that are passed on. -/
def extract (f : SymbolFilter) (msgs : List (List UInt8)) : List (List UInt8) := purge take drops f msgs

/-! ### What the filter knows -/

/-- The entry of the directory that a message is, for one of the symbols. -/
def entryOf (symbols : List (List UInt8)) (msg : List UInt8) : Option ℕ :=
  if 39 ≤ msg.length ∧ Itch.byteAt msg 0 = 82 ∧ stockOf msg ∈ symbols then some (locateOf msg) else none

variable {f : SymbolFilter} {msg : List UInt8}

@[simp] theorem symbols_take (f : SymbolFilter) (msg : List UInt8) : (f.take msg).symbols = f.symbols := by
  unfold take accept
  simp only
  split_ifs
  · rfl
  · rfl
  · rfl
  · cases f.symbols.findIdx? (· = stockOf msg) <;> rfl
  · rfl

/-- **One message** names the locate of its entry, and passes if it has one, or is a system event,
or if its locate is named. -/
theorem accept_eq (f : SymbolFilter) (msg : List UInt8) :
    (f.take msg).mine = (match entryOf f.symbols msg with
      | some l => Function.update f.mine l true
      | none => f.mine) ∧
    f.drops msg = !(decide (11 ≤ msg.length) && (decide (Itch.byteAt msg 0 = 83) || (entryOf f.symbols msg).isSome ||
      (decide (Itch.byteAt msg 0 ≠ 82) && f.mine (locateOf msg)))) := by
  unfold take drops accept entryOf
  simp only
  by_cases hshort : msg.length < 11
  · rw [if_pos hshort, if_neg (by omega)]
    exact ⟨rfl, by simp [hshort]⟩
  rw [if_neg hshort]
  have hlen : 11 ≤ msg.length := Nat.le_of_not_lt hshort
  by_cases hsystem : Itch.byteAt msg 0 = 83
  · rw [if_pos hsystem, if_neg (by omega)]
    exact ⟨rfl, by simp [hlen, hsystem]⟩
  rw [if_neg hsystem]
  by_cases hdir : Itch.byteAt msg 0 = 82
  · rw [if_pos hdir]
    by_cases hcut : msg.length < 39
    · rw [if_pos hcut, if_neg (by omega)]
      exact ⟨rfl, by simp [hdir]⟩
    rw [if_neg hcut]
    cases hi : f.symbols.findIdx? (· = stockOf msg) with
    | none =>
        have hno : stockOf msg ∉ f.symbols := fun hmem => by
          have := List.findIdx?_eq_none_iff.mp hi _ hmem
          simp at this
        rw [if_neg fun h => hno h.2.2]
        exact ⟨rfl, by simp [hdir]⟩
    | some i =>
        obtain ⟨hlt, hname, -⟩ := List.findIdx?_eq_some_iff_getElem.mp hi
        have hmem : stockOf msg ∈ f.symbols := of_decide_eq_true hname ▸ List.getElem_mem hlt
        rw [if_pos ⟨Nat.le_of_not_lt hcut, hdir, hmem⟩]
        exact ⟨rfl, by simp [hlen]⟩
  · rw [if_neg hdir, if_neg fun h => hdir h.2.1]
    exact ⟨rfl, by simp [hlen, hsystem, hdir]⟩

/-- **The locates that are named** after some messages are those of the entries among them. -/
theorem mine_foldl (f : SymbolFilter) (msgs : List (List UInt8)) (l : ℕ) :
    (msgs.foldl take f).mine l = true ↔ f.mine l = true ∨ ∃ msg ∈ msgs, entryOf f.symbols msg = some l := by
  induction msgs generalizing f with
  | nil => simp
  | cons msg msgs ih =>
      rw [List.foldl_cons, ih, symbols_take, (accept_eq f msg).1]
      simp only [List.mem_cons, exists_eq_or_imp]
      rw [← or_assoc]
      refine or_congr_left ?_
      cases entryOf f.symbols msg with
      | none => simp
      | some l' =>
          simp only [Option.some.injEq]
          by_cases hl : l = l'
          · rw [hl, Function.update_self]
            simp
          · rw [Function.update_of_ne hl]
            simp [Ne.symm hl]

/-- The filter that has seen what the first one passed, beside it: they name the same locates. -/
theorem mine_of_extract {f g : SymbolFilter} (hsymbols : g.symbols = f.symbols) (hmine : g.mine = f.mine) (msgs : List (List UInt8)) :
    g.extract (f.extract msgs) = f.extract msgs := by
  induction msgs generalizing f g with
  | nil => rfl
  | cons msg msgs ih =>
      unfold extract at ih ⊢
      by_cases hdrop : f.drops msg = true
      · -- a message that is left out names nothing
        rw [purge, if_pos hdrop]
        refine ih (by rw [symbols_take, hsymbols]) ?_
        obtain ⟨htake, hdrops⟩ := accept_eq f msg
        rw [htake, hmine]
        cases hentry : entryOf f.symbols msg with
        | none => rfl
        | some l =>
            have hlen : 39 ≤ msg.length := by
              unfold entryOf at hentry
              split_ifs at hentry with h
              exact h.1
            rw [hdrops, hentry] at hdrop
            simp [show 11 ≤ msg.length by omega] at hdrop
      · have hkeep : g.drops msg = f.drops msg := by rw [(accept_eq g msg).2, (accept_eq f msg).2, hsymbols, hmine]
        rw [purge, if_neg hdrop, purge, if_neg (hkeep ▸ hdrop)]
        refine congrArg _ (ih (by rw [symbols_take, symbols_take, hsymbols]) ?_)
        rw [(accept_eq g msg).1, (accept_eq f msg).1, hsymbols, hmine]

/-- **The filter passes all of what it has passed.** -/
theorem extract_extract (symbols : List (List UInt8)) (msgs : List (List UInt8)) :
    (new symbols).extract ((new symbols).extract msgs) = (new symbols).extract msgs :=
  mine_of_extract rfl rfl msgs

end SymbolFilter

end TickToTrade.Replay
