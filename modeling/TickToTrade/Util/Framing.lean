import Mathlib.Data.List.Basic

/-!
# Framing

A stream carries frames one behind the other, and comes in pieces that end anywhere. A reader
keeps what has come, takes every frame that is there, and keeps the rest. It finds the same
frames however the stream is cut (`feeds_eq`), as long as what shows that a frame is complete is
the frame itself (`Framing.stable`).
-/

namespace TickToTrade.Util

variable {α β σ : Type*}

/-- How to read the first frame of a stretch: how much it takes, and what it is. -/
structure Framing (α β : Type*) where
  parse : List α → Option (ℕ × β)
  pos : ∀ {data n x}, parse data = some (n, x) → 0 < n
  le : ∀ {data n x}, parse data = some (n, x) → n ≤ data.length
  /-- What comes behind a frame does not matter. -/
  stable : ∀ {data n x}, parse data = some (n, x) → ∀ more, parse (data ++ more) = some (n, x)

namespace Framing

variable (f : Framing α β) {data more : List α} {n : ℕ} {x : β}

/-- The frames of a stretch. -/
def frames (data : List α) : List β :=
  match h : f.parse data with
  | none => []
  | some (n, x) => x :: frames (data.drop n)
termination_by data.length
decreasing_by
  have hpos := f.pos h
  have hle := f.le h
  rw [List.length_drop]
  omega

/-- What is behind the frames of a stretch. -/
def rest (data : List α) : List α :=
  match h : f.parse data with
  | none => data
  | some (n, _) => rest (data.drop n)
termination_by data.length
decreasing_by
  have hpos := f.pos h
  have hle := f.le h
  rw [List.length_drop]
  omega

theorem frames_of_none (h : f.parse data = none) : f.frames data = [] := by
  rw [frames]
  split
  · rfl
  · rename_i heq
    cases h.symm.trans heq

theorem frames_of_some (h : f.parse data = some (n, x)) : f.frames data = x :: f.frames (data.drop n) := by
  rw [frames]
  split
  · rename_i heq
    cases h.symm.trans heq
  · rename_i heq
    cases h.symm.trans heq
    rfl

theorem rest_of_none (h : f.parse data = none) : f.rest data = data := by
  rw [rest]
  split
  · rfl
  · rename_i heq
    cases h.symm.trans heq

theorem rest_of_some (h : f.parse data = some (n, x)) : f.rest data = f.rest (data.drop n) := by
  rw [rest]
  split
  · rename_i heq
    cases h.symm.trans heq
  · rename_i heq
    cases h.symm.trans heq
    rfl

theorem parse_nil : f.parse [] = none := by
  cases h : f.parse [] with
  | none => rfl
  | some next =>
      have hpos := f.pos h
      have hle := f.le h
      rw [List.length_nil] at hle
      omega

/-- Induction on the frames of a stretch. -/
theorem induct {motive : List α → Prop} (none : ∀ data, f.parse data = none → motive data)
    (some : ∀ data n x, f.parse data = some (n, x) → motive (data.drop n) → motive data) (data : List α) : motive data := by
  induction hlen : data.length using Nat.strongRecOn generalizing data with
  | ind k ih =>
      cases h : f.parse data with
      | none => exact none data h
      | some next =>
          obtain ⟨n, x⟩ := next
          have hpos := f.pos h
          have hle := f.le h
          exact some data n x h (ih (data.drop n).length (by rw [List.length_drop]; omega) _ rfl)

/-- There is no frame in the rest. -/
theorem parse_rest (data : List α) : f.parse (f.rest data) = none := by
  induction data using f.induct with
  | none data h => rwa [f.rest_of_none h]
  | some data n x h ih => rwa [f.rest_of_some h]

/-- **What comes later** is read behind the rest. -/
theorem frames_append (data more : List α) : f.frames (data ++ more) = f.frames data ++ f.frames (f.rest data ++ more) := by
  induction data using f.induct with
  | none data h => rw [f.frames_of_none h, f.rest_of_none h, List.nil_append]
  | some data n x h ih =>
      rw [f.frames_of_some (f.stable h more), f.frames_of_some h, f.rest_of_some h, List.drop_append_of_le_length (f.le h), ih,
        List.cons_append]

theorem rest_append (data more : List α) : f.rest (data ++ more) = f.rest (f.rest data ++ more) := by
  induction data using f.induct with
  | none data h => rw [f.rest_of_none h]
  | some data n x h ih =>
      rw [f.rest_of_some (f.stable h more), f.rest_of_some h, List.drop_append_of_le_length (f.le h), ih]

/-! ### A reader -/

/-- Handle the frames of a buffer from an offset on; the offset behind them. -/
def drain (handle : σ → β → σ) (buf : List α) (s : σ) (off : ℕ) : σ × ℕ :=
  match h : f.parse (buf.drop off) with
  | none => (s, off)
  | some (n, x) => drain handle buf (handle s x) (off + n)
termination_by buf.length - off
decreasing_by
  have hpos := f.pos h
  have hle := f.le h
  rw [List.length_drop] at hle
  omega

/-- A read: the state, and what is kept of the stream. -/
def feed (handle : σ → β → σ) (r : σ × List α) (piece : List α) : σ × List α :=
  let buf := r.2 ++ piece
  let (s, off) := f.drain handle buf r.1 0
  (s, buf.drop off)

theorem drain_eq (handle : σ → β → σ) (buf : List α) (s : σ) (off : ℕ) :
    (f.drain handle buf s off).1 = (f.frames (buf.drop off)).foldl handle s ∧
      buf.drop (f.drain handle buf s off).2 = f.rest (buf.drop off) := by
  generalize hdata : buf.drop off = data
  induction data using f.induct generalizing s off with
  | none data h =>
      rw [drain]
      split
      · exact ⟨by rw [f.frames_of_none h]; rfl, by rw [hdata, f.rest_of_none h]⟩
      · rename_i heq
        rw [hdata, h] at heq
        cases heq
  | some data n x h ih =>
      rw [drain]
      split
      · rename_i heq
        rw [hdata, h] at heq
        cases heq
      · rename_i heq
        rw [hdata, h] at heq
        cases heq
        rw [f.frames_of_some h, f.rest_of_some h]
        exact ih (handle s x) (off + n) (by rw [← hdata, List.drop_drop])

theorem feed_eq (handle : σ → β → σ) (s : σ) (kept piece : List α) :
    f.feed handle (s, kept) piece = ((f.frames (kept ++ piece)).foldl handle s, f.rest (kept ++ piece)) :=
  Prod.ext (f.drain_eq handle (kept ++ piece) s 0).1 (f.drain_eq handle (kept ++ piece) s 0).2

/-- **Reading in pieces**: the frames of the whole stream are handled, and its rest is kept. -/
theorem feeds_eq (handle : σ → β → σ) (pieces : List (List α)) (s : σ) {kept : List α} (hkept : f.parse kept = none) :
    pieces.foldl (f.feed handle) (s, kept) =
      ((f.frames (kept ++ pieces.flatten)).foldl handle s, f.rest (kept ++ pieces.flatten)) := by
  induction pieces generalizing s kept with
  | nil => rw [List.flatten_nil, List.append_nil, f.frames_of_none hkept, f.rest_of_none hkept]; rfl
  | cons piece pieces ih =>
      rw [List.foldl_cons, feed_eq, ih _ (f.parse_rest _), List.flatten_cons, ← List.append_assoc, f.frames_append (kept ++ piece),
        f.rest_append (kept ++ piece), List.foldl_append]

end Framing

/-- **A step that fails on some elements**, and is a function on the others: over a list it fails if one of these comes. -/
theorem foldlM_guard {bad : β → Prop} [DecidablePred bad] {step : σ → β → Option σ} {total : σ → β → σ}
    (h : ∀ s x, step s x = if bad x then none else some (total s x)) (xs : List β) (s : σ) :
    xs.foldlM step s = if ∃ x ∈ xs, bad x then none else some (xs.foldl total s) := by
  induction xs generalizing s with
  | nil => exact (if_neg fun ⟨_, hx, _⟩ => by cases hx).symm
  | cons x xs ih =>
      rw [List.foldlM_cons, h]
      by_cases hx : bad x
      · rw [if_pos hx, if_pos ⟨x, List.mem_cons_self, hx⟩]
        rfl
      · have hiff : (∃ y ∈ x :: xs, bad y) ↔ ∃ y ∈ xs, bad y := by
          constructor
          · rintro ⟨y, hy, hbad⟩
            rcases List.mem_cons.mp hy with rfl | hy
            · exact absurd hbad hx
            · exact ⟨y, hy, hbad⟩
          · rintro ⟨y, hy, hbad⟩
            exact ⟨y, List.mem_cons_of_mem _ hy, hbad⟩
        rw [if_neg hx, List.foldl_cons]
        simp only [hiff]
        exact ih (total s x)

end TickToTrade.Util
