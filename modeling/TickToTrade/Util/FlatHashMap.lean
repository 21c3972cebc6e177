import Mathlib.Data.List.Basic
import Mathlib.Data.List.Nodup
import Mathlib.Data.List.Dedup
import Mathlib.Data.List.Perm.Basic
import Mathlib.Data.List.Range
import Mathlib.Logic.Function.Basic
import Mathlib.Data.Nat.Notation
import Mathlib.Tactic.Ring
import Mathlib.Tactic.Linarith

/-!
# The open-addressing hash map

One array of key/value slots, linear probing, backward-shift deletion: the map
every book and every venue keeps its orders in. One key is the reserved `Empty`
mark, `vacant` here, and `0` unless a table says otherwise. The hash is a parameter,
so nothing here depends on how well it scatters; `mix` is the one the program uses.

A lookup, an insertion and a removal all walk the same probe run, so `probe` is
stated once. The loops of the program end because the table is never full; here
each carries the capacity as fuel, and `probe_isSome` shows that the fuel is
enough.

## What is proved

* `find_eq_some_iff` — a lookup of a key in use finds exactly its entry.
* `entries_insertOrAssign` — an insertion replaces the entry of its key, across
  any growth.
* `entries_erase` — a removal takes the entry of its key out and no other,
  whatever the backward shift moved.
-/

namespace TickToTrade.Util

variable {V : Type} {hash : ℕ → ℕ} {vacant : ℕ}

/-- One place of the table. -/
structure Slot (V : Type) where
  /-- The key stored here, the reserved one when the slot is free. -/
  key : ℕ
  /-- The value stored under it. -/
  value : V
deriving DecidableEq

/-- The table: `2 ^ logCap` slots and the count of those in use. Slots from the
capacity on are not part of the table. -/
structure FlatHashMap (hash : ℕ → ℕ) (V : Type) (vacant : ℕ := 0) where
  /-- The capacity is a power of two. -/
  logCap : ℕ
  /-- The slots by index. -/
  slots : ℕ → Slot V
  /-- The count of the keys stored. It is a 64-bit word; `wrapNeg` reads a count
  that fell below zero as that word. -/
  size : ℤ

/-- The fmix64 finalizer, on 64-bit words. -/
def mix (x : ℕ) : ℕ :=
  let x := x ^^^ (x >>> 33)
  let x := x * 0xff51afd7ed558ccd % 2 ^ 64
  let x := x ^^^ (x >>> 33)
  let x := x * 0xc4ceb9fe1a85ec53 % 2 ^ 64
  x ^^^ (x >>> 33)

/-- The exponent of the least power of two from `n` on, found by doubling from
`2 ^ e`. -/
def nextPow2 (n : ℕ) : ℕ → ℕ → ℕ
  | 0, e => e
  | fuel + 1, e => if 2 ^ e < n then nextPow2 n fuel (e + 1) else e

/-- A 64-bit word that went below zero, as the word that it wraps to. -/
def wrapNeg (x : ℤ) : ℤ := if x < 0 then x % 2 ^ 64 else x

namespace FlatHashMap

/-- The number of slots. -/
def capacity (m : FlatHashMap hash V vacant) : ℕ := 2 ^ m.logCap

/-- The mask that reduces a hash or an index to the table. -/
def mask (m : FlatHashMap hash V vacant) : ℕ := m.capacity - 1

/-- The slot a key would like to have. -/
def slotFor (m : FlatHashMap hash V vacant) (key : ℕ) : ℕ := hash key &&& m.mask

/-- The following slot, around the end of the table. -/
def next (m : FlatHashMap hash V vacant) (i : ℕ) : ℕ := (i + 1) &&& m.mask

/-- The key stored in slot `i`. -/
def keyAt (m : FlatHashMap hash V vacant) (i : ℕ) : ℕ := (m.slots i).key

/-- Overwrite slot `i`. -/
def setSlot (m : FlatHashMap hash V vacant) (i : ℕ) (s : Slot V) : FlatHashMap hash V vacant :=
  { m with slots := Function.update m.slots i s }

/-- Walk from slot `i` to the first one that holds `key` or is free. -/
def probe (m : FlatHashMap hash V vacant) (key : ℕ) : ℕ → ℕ → Option ℕ
  | 0, _ => none
  | fuel + 1, i =>
      if m.keyAt i = key ∨ m.keyAt i = vacant then some i else m.probe key fuel (m.next i)

/-- The slot a lookup of `key` returns a pointer into. The test for the key comes
before the test for `Empty`, so a lookup of the reserved key answers with a free slot. -/
def find (m : FlatHashMap hash V vacant) (key : ℕ) : Option ℕ :=
  match m.probe key m.capacity (m.slotFor key) with
  | some i => if m.keyAt i = key then some i else none
  | none => none

/-- The value in slot `i`, as a pointer returned by `find` reads it. -/
def valueAt (m : FlatHashMap hash V vacant) (i : ℕ) : V := (m.slots i).value

/-- Write through a pointer that `find` returned. -/
def setValueAt (m : FlatHashMap hash V vacant) (i : ℕ) (v : V) : FlatHashMap hash V vacant :=
  m.setSlot i ⟨m.keyAt i, v⟩

/-- The value stored under `key`, if any. -/
def get? (m : FlatHashMap hash V vacant) (key : ℕ) : Option V := (m.find key).map m.valueAt

/-- The slot of `key` for a removal: the test for `Empty` comes first. -/
def locate (m : FlatHashMap hash V vacant) (key : ℕ) : Option ℕ :=
  match m.probe key m.capacity (m.slotFor key) with
  | some i => if m.keyAt i = vacant then none else some i
  | none => none

/-- The entries in slot order, as `forEach` visits them. -/
def entries (m : FlatHashMap hash V vacant) : List (ℕ × V) :=
  ((List.range m.capacity).filter (m.keyAt · ≠ vacant)).map fun i => (m.keyAt i, m.valueAt i)

section Default

variable [Inhabited V]

/-- A table of `2 ^ logCap` free slots. -/
def ofLogCap (logCap : ℕ) : FlatHashMap hash V vacant := ⟨logCap, fun _ => ⟨vacant, default⟩, 0⟩

/-- The constructor: at least 16 slots. -/
def empty (capacityHint : ℕ) : FlatHashMap hash V vacant :=
  ofLogCap (nextPow2 (if capacityHint < 16 then 16 else capacityHint) 64 0)

/-- Store `value` at the end of the probe run of `key`. -/
def place (m : FlatHashMap hash V vacant) (key : ℕ) (value : V) : FlatHashMap hash V vacant :=
  match m.probe key m.capacity (m.slotFor key) with
  | some i =>
      if m.keyAt i = vacant then { m.setSlot i ⟨key, value⟩ with size := m.size + 1 }
      else m.setValueAt i value
  | none => m

/-- Rehash into a table of twice the size. The reinsertions are too few to grow it
again, so they go straight to `place`. -/
def grow (m : FlatHashMap hash V vacant) : FlatHashMap hash V vacant :=
  m.entries.foldl (fun t e => t.place e.1 e.2) (ofLogCap (m.logCap + 1))

/-- Insert `key` or overwrite its value, growing past a load factor of 0.7. -/
def insertOrAssign (m : FlatHashMap hash V vacant) (key : ℕ) (value : V) : FlatHashMap hash V vacant :=
  (if wrapNeg ((m.size + 1) * 10) ≥ m.capacity * 7 then m.grow else m).place key value

/-- May the entry at `scan`, whose wanted slot is `ideal`, not move to `hole`? It
may not when `ideal` lies cyclically within `(hole, scan]`. -/
def blocked (hole ideal scan : ℕ) : Prop :=
  if hole ≤ scan then hole < ideal ∧ ideal ≤ scan else hole < ideal ∨ ideal ≤ scan

instance (hole ideal scan : ℕ) : Decidable (blocked hole ideal scan) := by
  unfold blocked; infer_instance

/-- The backward shift: pull the entries after the hole into it where they may
move, then free the hole. -/
def shiftBack (m : FlatHashMap hash V vacant) : ℕ → ℕ → ℕ → FlatHashMap hash V vacant
  | 0, hole, _ => m.setSlot hole ⟨vacant, default⟩
  | fuel + 1, hole, scan =>
      let scan := m.next scan
      if m.keyAt scan = vacant then m.setSlot hole ⟨vacant, default⟩
      else if blocked hole (m.slotFor (m.keyAt scan)) scan then m.shiftBack fuel hole scan
      else (m.setSlot hole (m.slots scan)).shiftBack fuel scan scan

/-- Free the slot `hole`. -/
def eraseAt (m : FlatHashMap hash V vacant) (hole : ℕ) : FlatHashMap hash V vacant :=
  { m.shiftBack m.capacity hole hole with size := m.size - 1 }

/-- Remove `key`, handing its value out; `none` when it is absent. -/
def erase (m : FlatHashMap hash V vacant) (key : ℕ) : Option (V × FlatHashMap hash V vacant) :=
  (m.locate key).map fun i => (m.valueAt i, m.eraseAt i)

/-- Free every slot. -/
def clear (m : FlatHashMap hash V vacant) : FlatHashMap hash V vacant := ofLogCap m.logCap

end Default

/-! ### Walking around the table -/

/-- The number of steps from slot `a` forward to slot `b` in a table of `n` slots. -/
def dist (n a b : ℕ) : ℕ := if a ≤ b then b - a else n - a + b

theorem dist_self (n a : ℕ) : dist n a a = 0 := by simp [dist]

theorem dist_lt {n a b : ℕ} (ha : a < n) (hb : b < n) : dist n a b < n := by
  unfold dist; split_ifs <;> omega

theorem capacity_pos (m : FlatHashMap hash V vacant) : 0 < m.capacity := by simp [capacity]

theorem slotFor_lt (m : FlatHashMap hash V vacant) (key : ℕ) : m.slotFor key < m.capacity := by
  have hle : m.slotFor key ≤ m.mask := Nat.and_le_right
  have := m.capacity_pos
  simp only [mask] at hle
  omega

theorem next_eq {m : FlatHashMap hash V vacant} {i : ℕ} (hi : i < m.capacity) :
    m.next i = if i + 1 = m.capacity then 0 else i + 1 := by
  have h : m.next i = (i + 1) % m.capacity := by
    simp only [next, mask, capacity, Nat.and_two_pow_sub_one_eq_mod]
  rw [h]
  split_ifs with hc
  · rw [hc, Nat.mod_self]
  · exact Nat.mod_eq_of_lt (by omega)

theorem next_lt {m : FlatHashMap hash V vacant} {i : ℕ} (hi : i < m.capacity) :
    m.next i < m.capacity := by
  rw [next_eq hi]; split_ifs <;> omega

/-- Away from `x` itself, one step forward is one step nearer to `x`. -/
theorem dist_next {m : FlatHashMap hash V vacant} {i x : ℕ} (hi : i < m.capacity)
    (hx : x < m.capacity) (hne : x ≠ i) :
    dist m.capacity i x = dist m.capacity (m.next i) x + 1 := by
  rw [next_eq hi]; unfold dist; split_ifs <;> omega

/-! ### The probe loop -/

/-- With a matching or free slot within reach of the fuel, the probe loop stops at
the nearest one. -/
theorem probe_spec (m : FlatHashMap hash V vacant) (key : ℕ) :
    ∀ (fuel i : ℕ), i < m.capacity → ∀ t, t < m.capacity →
      (m.keyAt t = key ∨ m.keyAt t = vacant) → dist m.capacity i t < fuel →
      ∃ j, j < m.capacity ∧ m.probe key fuel i = some j ∧ (m.keyAt j = key ∨ m.keyAt j = vacant) ∧
        ∀ x, x < m.capacity → (m.keyAt x = key ∨ m.keyAt x = vacant) →
          dist m.capacity i j ≤ dist m.capacity i x := by
  intro fuel
  induction fuel with
  | zero => intro i hi t ht hit hd; omega
  | succ n ih =>
    intro i hi t ht hit hd
    by_cases h : m.keyAt i = key ∨ m.keyAt i = vacant
    · exact ⟨i, hi, by simp [probe, h], h, fun x _ _ => by simp [dist_self]⟩
    · have hne : t ≠ i := by rintro rfl; exact h hit
      have hstep := dist_next hi ht hne
      obtain ⟨j, hj, hp, hjk, hmin⟩ := ih (m.next i) (next_lt hi) t ht hit (by omega)
      refine ⟨j, hj, by simp only [probe, if_neg h, hp], hjk, fun x hx hxk => ?_⟩
      have hxi : x ≠ i := by rintro rfl; exact h hxk
      have hji : j ≠ i := by rintro rfl; exact h hjk
      have := hmin x hx hxk
      rw [dist_next hi hx hxi, dist_next hi hj hji]
      omega

/-! ### The table invariant -/

/-- What every operation keeps. -/
structure WF (m : FlatHashMap hash V vacant) : Prop where
  /-- No free slot lies on the probe run of a stored key. -/
  reach : ∀ i j, i < m.capacity → j < m.capacity → m.keyAt j ≠ vacant → m.keyAt i = vacant →
    dist m.capacity (m.slotFor (m.keyAt j)) j < dist m.capacity (m.slotFor (m.keyAt j)) i
  /-- A key is stored once. -/
  inj : ∀ i j, i < m.capacity → j < m.capacity → m.keyAt i ≠ vacant → m.keyAt i = m.keyAt j → i = j
  /-- The count covers the entries. It exceeds their number only after an insertion
  under the reserved key, which counts up and stores nothing. -/
  count : (m.entries.length : ℤ) ≤ m.size
  /-- Some slot is free, so every probe run ends. -/
  room : ∃ i, i < m.capacity ∧ m.keyAt i = vacant

theorem mem_entries {m : FlatHashMap hash V vacant} {k : ℕ} {v : V} :
    (k, v) ∈ m.entries ↔ k ≠ vacant ∧ ∃ i, i < m.capacity ∧ m.keyAt i = k ∧ m.valueAt i = v := by
  simp only [entries, List.mem_map, List.mem_filter, List.mem_range, decide_eq_true_eq,
    Prod.mk.injEq]
  constructor
  · rintro ⟨i, ⟨hi, h0⟩, rfl, rfl⟩
    exact ⟨h0, i, hi, rfl, rfl⟩
  · rintro ⟨h0, i, hi, rfl, rfl⟩
    exact ⟨i, ⟨hi, h0⟩, rfl, rfl⟩

/-- A table with fewer entries than slots has a free slot. -/
theorem exists_free {m : FlatHashMap hash V vacant} (h : m.entries.length < m.capacity) :
    ∃ i, i < m.capacity ∧ m.keyAt i = vacant := by
  by_contra hno
  push Not at hno
  have hall : (List.range m.capacity).filter (m.keyAt · ≠ vacant) = List.range m.capacity :=
    List.filter_eq_self.2 fun i hi => by simpa using hno i (List.mem_range.1 hi)
  rw [entries, List.length_map, hall, List.length_range] at h
  exact lt_irrefl _ h

/-- A table with a free slot has fewer entries than slots. -/
theorem length_entries_lt {m : FlatHashMap hash V vacant} (h : ∃ i, i < m.capacity ∧ m.keyAt i = vacant) :
    m.entries.length < m.capacity := by
  obtain ⟨i, hi, h0⟩ := h
  rw [entries, List.length_map]
  calc ((List.range m.capacity).filter (m.keyAt · ≠ vacant)).length
      < (List.range m.capacity).length :=
        List.length_filter_lt_length_iff_exists.2 ⟨i, List.mem_range.2 hi, by simp [h0]⟩
    _ = m.capacity := List.length_range

theorem nodup_keys_of_inj {m : FlatHashMap hash V vacant}
    (inj : ∀ i j, i < m.capacity → j < m.capacity → m.keyAt i ≠ vacant → m.keyAt i = m.keyAt j → i = j) :
    (m.entries.map Prod.fst).Nodup := by
  rw [entries, List.map_map]
  refine List.Nodup.map_on ?_ (List.nodup_range.filter _)
  intro i hi j hj hij
  simp only [List.mem_filter, List.mem_range, decide_eq_true_eq] at hi hj
  exact inj i j hi.1 hj.1 hi.2 hij

/-- The keys of a well-formed table are distinct. -/
theorem WF.nodup_keys {m : FlatHashMap hash V vacant} (h : m.WF) : (m.entries.map Prod.fst).Nodup :=
  nodup_keys_of_inj h.inj

/-- Two lists of entries with distinct keys and the same members are permutations
of each other. -/
theorem perm_of_mem_iff {l l' : List (ℕ × V)} (hl : (l.map Prod.fst).Nodup)
    (hl' : (l'.map Prod.fst).Nodup) (h : ∀ k v, (k, v) ∈ l ↔ (k, v) ∈ l') : l.Perm l' :=
  (List.perm_ext_iff_of_nodup hl.of_map hl'.of_map).2 fun e => h e.1 e.2

/-! ### Lookups -/

/-- The probe run of a key ends at its slot, or else at the nearest free slot. -/
theorem WF.probe_cases {m : FlatHashMap hash V vacant} (h : m.WF) {key : ℕ} (hk : key ≠ vacant) :
    ∃ j, j < m.capacity ∧ m.probe key m.capacity (m.slotFor key) = some j ∧
      (m.keyAt j = key ∨
        m.keyAt j = vacant ∧ (∀ i, i < m.capacity → m.keyAt i ≠ key) ∧
          ∀ i, i < m.capacity → m.keyAt i = vacant →
            dist m.capacity (m.slotFor key) j ≤ dist m.capacity (m.slotFor key) i) := by
  obtain ⟨t, ht, h0⟩ := h.room
  obtain ⟨j, hj, hp, hjk, hmin⟩ := m.probe_spec key m.capacity (m.slotFor key) (m.slotFor_lt key)
    t ht (.inr h0) (dist_lt (m.slotFor_lt key) ht)
  refine ⟨j, hj, hp, ?_⟩
  rcases hjk with hjk | hj0
  · exact .inl hjk
  · refine .inr ⟨hj0, fun i hi hik => ?_, fun i hi hi0 => hmin i hi (.inr hi0)⟩
    have hnear := hmin i hi (.inl hik)
    have hreach := h.reach j i hj hi (by rw [hik]; exact hk) hj0
    rw [hik] at hreach
    omega

/-- **Lookup**: a key in use is found in its own slot. -/
theorem find_eq_some_iff {m : FlatHashMap hash V vacant} (h : m.WF) {key i : ℕ} (hk : key ≠ vacant) :
    m.find key = some i ↔ i < m.capacity ∧ m.keyAt i = key := by
  obtain ⟨j, hj, hp, hjk | ⟨hj0, hnone, -⟩⟩ := h.probe_cases hk
  · simp only [find, hp, hjk, if_true, Option.some.injEq]
    constructor
    · rintro rfl; exact ⟨hj, hjk⟩
    · rintro ⟨hi, hik⟩
      exact h.inj j i hj hi (by rw [hjk]; exact hk) (by rw [hjk, hik])
  · simp only [find, hp, hj0, if_neg (Ne.symm hk), reduceCtorEq, false_iff]
    rintro ⟨hi, hik⟩
    exact hnone i hi hik

/-- A removal looks a key up as `find` does. -/
theorem locate_eq_find {m : FlatHashMap hash V vacant} {key : ℕ} (hk : key ≠ vacant) :
    m.locate key = m.find key := by
  unfold locate find
  cases hp : m.probe key m.capacity (m.slotFor key) with
  | none => rfl
  | some j =>
    have hit : ∀ fuel i, m.probe key fuel i = some j → m.keyAt j = key ∨ m.keyAt j = vacant := by
      intro fuel
      induction fuel with
      | zero => intro i hi; simp [probe] at hi
      | succ n ih =>
        intro i hi
        simp only [probe] at hi
        split_ifs at hi with hc
        · cases hi; exact hc
        · exact ih _ hi
    rcases hit _ _ hp with h | h
    · simp [h, hk]
    · simp [h, Ne.symm hk]

/-- The values under the keys are the entries. -/
theorem get?_eq_some_iff {m : FlatHashMap hash V vacant} (h : m.WF) {key : ℕ} {v : V} (hk : key ≠ vacant) :
    m.get? key = some v ↔ (key, v) ∈ m.entries := by
  simp only [get?, Option.map_eq_some_iff, mem_entries, find_eq_some_iff h hk]
  constructor
  · rintro ⟨i, ⟨hi, hik⟩, rfl⟩; exact ⟨hk, i, hi, hik, rfl⟩
  · rintro ⟨-, i, hi, hik, rfl⟩; exact ⟨i, ⟨hi, hik⟩, rfl⟩

/-- A key is absent exactly when no entry bears it. -/
theorem get?_eq_none_iff {m : FlatHashMap hash V vacant} (h : m.WF) {key : ℕ} (hk : key ≠ vacant) :
    m.get? key = none ↔ ∀ v, (key, v) ∉ m.entries := by
  rw [Option.eq_none_iff_forall_ne_some]
  exact forall_congr' fun v => not_congr (get?_eq_some_iff h hk)

/-! ### Writing one slot -/

@[simp] theorem capacity_setSlot (m : FlatHashMap hash V vacant) (i : ℕ) (s : Slot V) :
    (m.setSlot i s).capacity = m.capacity := rfl

@[simp] theorem slotFor_setSlot (m : FlatHashMap hash V vacant) (i : ℕ) (s : Slot V) (key : ℕ) :
    (m.setSlot i s).slotFor key = m.slotFor key := rfl

@[simp] theorem next_setSlot (m : FlatHashMap hash V vacant) (i : ℕ) (s : Slot V) (j : ℕ) :
    (m.setSlot i s).next j = m.next j := rfl

@[simp] theorem keyAt_setSlot (m : FlatHashMap hash V vacant) (i : ℕ) (s : Slot V) (j : ℕ) :
    (m.setSlot i s).keyAt j = if j = i then s.key else m.keyAt j := by
  simp only [keyAt, setSlot, Function.update_apply]; split_ifs <;> rfl

@[simp] theorem valueAt_setSlot (m : FlatHashMap hash V vacant) (i : ℕ) (s : Slot V) (j : ℕ) :
    (m.setSlot i s).valueAt j = if j = i then s.value else m.valueAt j := by
  simp only [valueAt, setSlot, Function.update_apply]; split_ifs <;> rfl

/-- Two tables with the same slots have the same entries, whatever they count. -/
theorem entries_congr {m m' : FlatHashMap hash V vacant} (hc : m'.logCap = m.logCap)
    (hs : m'.slots = m.slots) : m'.entries = m.entries := by
  obtain ⟨n, f, c⟩ := m
  obtain ⟨n', f', c'⟩ := m'
  obtain rfl : n' = n := hc
  obtain rfl : f' = f := hs
  rfl

/-- The entries after key `key` is bound to `value`. -/
def bind (key : ℕ) (value : V) (l : List (ℕ × V)) : List (ℕ × V) :=
  (key, value) :: l.filter (·.1 ≠ key)

theorem mem_bind {key k : ℕ} {value v : V} {l : List (ℕ × V)} :
    (k, v) ∈ bind key value l ↔ (k = key ∧ v = value) ∨ (k ≠ key ∧ (k, v) ∈ l) := by
  simp only [bind, List.mem_cons, Prod.mk.injEq, List.mem_filter, ne_eq, decide_eq_true_eq]
  tauto

theorem nodup_keys_filter {l : List (ℕ × V)} (p : ℕ × V → Bool) (h : (l.map Prod.fst).Nodup) :
    ((l.filter p).map Prod.fst).Nodup :=
  h.sublist (List.filter_sublist.map _)

theorem nodup_keys_bind {key : ℕ} {value : V} {l : List (ℕ × V)} (h : (l.map Prod.fst).Nodup) :
    ((bind key value l).map Prod.fst).Nodup := by
  simp only [bind, List.map_cons, List.nodup_cons]
  exact ⟨by simp [List.mem_map, List.mem_filter], nodup_keys_filter _ h⟩

/-- A bound key's entry, taken out of the list, leaves the other keys' entries. -/
theorem perm_cons_filter : ∀ {l : List (ℕ × V)} {k : ℕ} {v : V}, (l.map Prod.fst).Nodup →
    (k, v) ∈ l → l.Perm ((k, v) :: l.filter (·.1 ≠ k)) := by
  intro l k v hnd hmem
  have hbind : (bind k v l).Perm l := by
    refine perm_of_mem_iff (nodup_keys_bind hnd) hnd fun k' v' => ?_
    rw [mem_bind]
    constructor
    · rintro (⟨rfl, rfl⟩ | ⟨-, h⟩)
      · exact hmem
      · exact h
    · intro h
      by_cases hk : k' = k
      · subst hk
        have : v' = v := by
          have := List.inj_on_of_nodup_map hnd h hmem rfl
          simpa using this
        exact .inl ⟨rfl, this⟩
      · exact .inr ⟨hk, h⟩
  exact hbind.symm

/-- Binding an absent key adds its entry. -/
theorem bind_of_absent {l : List (ℕ × V)} {k : ℕ} (v : V) (h : ∀ w, (k, w) ∉ l) :
    bind k v l = (k, v) :: l := by
  refine congrArg ((k, v) :: ·) (List.filter_eq_self.2 fun e he => ?_)
  have : e.1 ≠ k := by rintro rfl; exact h e.2 he
  simpa using this

/-- Overwriting the value of a slot in use keeps the invariant and binds its key. -/
theorem WF.setValueAt {m : FlatHashMap hash V vacant} (h : m.WF) {i : ℕ} (hi : i < m.capacity)
    (h0 : m.keyAt i ≠ vacant) (v : V) :
    (m.setValueAt i v).WF ∧ (m.setValueAt i v).entries.Perm (bind (m.keyAt i) v m.entries) := by
  have hkey : ∀ j, (m.setValueAt i v).keyAt j = m.keyAt j := by
    intro j; simp only [FlatHashMap.setValueAt, keyAt_setSlot]; split_ifs with hj <;> simp [hj]
  have hinj : ∀ a b, a < m.capacity → b < m.capacity → (m.setValueAt i v).keyAt a ≠ vacant →
      (m.setValueAt i v).keyAt a = (m.setValueAt i v).keyAt b → a = b := by
    intro a b ha hb; rw [hkey, hkey]; exact h.inj a b ha hb
  have hperm : (m.setValueAt i v).entries.Perm (bind (m.keyAt i) v m.entries) := by
    refine perm_of_mem_iff (nodup_keys_of_inj hinj) (nodup_keys_bind h.nodup_keys) fun k w => ?_
    rw [mem_bind, mem_entries, mem_entries]
    constructor
    · rintro ⟨hk, j, hj, hjk, hjv⟩
      rw [hkey] at hjk
      by_cases hji : j = i
      · subst hji
        exact .inl ⟨hjk.symm, by simpa [FlatHashMap.setValueAt] using hjv.symm⟩
      · refine .inr ⟨?_, hk, j, hj, hjk, by simpa [FlatHashMap.setValueAt, hji] using hjv⟩
        rintro rfl
        exact hji (h.inj j i hj hi (by rwa [hjk]) hjk)
    · rintro (⟨rfl, rfl⟩ | ⟨hne, hk, j, hj, hjk, hjv⟩)
      · exact ⟨h0, i, hi, hkey i, by simp [FlatHashMap.setValueAt]⟩
      · have hji : j ≠ i := by rintro rfl; exact hne hjk.symm
        exact ⟨hk, j, hj, by rw [hkey, hjk], by simpa [FlatHashMap.setValueAt, hji] using hjv⟩
  refine ⟨⟨?_, hinj, ?_, ?_⟩, hperm⟩
  · intro a b ha hb; rw [hkey, hkey]; exact h.reach a b ha hb
  · have hlen : (m.setValueAt i v).entries.length = m.entries.length := by
      have hcap : (m.setValueAt i v).capacity = m.capacity := rfl
      simp only [entries, List.length_map, hkey, hcap]
    rw [hlen]; exact h.count
  · obtain ⟨e, he, he0⟩ := h.room
    exact ⟨e, he, by rw [hkey]; exact he0⟩

/-! ### Insertion -/

/-- Storing at the end of the probe run keeps the invariant and binds the key, when
there is room for one more entry. -/
theorem WF.place {m : FlatHashMap hash V vacant} (h : m.WF) {key : ℕ} (hk : key ≠ vacant) (v : V)
    (hroom : m.entries.length + 1 < m.capacity) :
    (m.place key v).WF ∧ (m.place key v).entries.Perm (bind key v m.entries) := by
  obtain ⟨j, hj, hp, hjk | ⟨hj0, hnone, hnear⟩⟩ := h.probe_cases hk
  · have h0 : m.keyAt j ≠ vacant := by rw [hjk]; exact hk
    have hpl : m.place key v = m.setValueAt j v := by
      simp only [FlatHashMap.place, hp, if_neg h0]
    rw [hpl]
    simpa only [hjk] using h.setValueAt hj h0 v
  · set m' := m.setSlot j ⟨key, v⟩ with hm'
    have hpl : m.place key v = { m' with size := m.size + 1 } := by
      simp only [FlatHashMap.place, hp, if_pos hj0, hm']
    have hinj : ∀ a b, a < m.capacity → b < m.capacity → m'.keyAt a ≠ vacant →
        m'.keyAt a = m'.keyAt b → a = b := by
      intro a b ha hb h0 hab
      simp only [hm', keyAt_setSlot] at h0 hab
      split_ifs at h0 hab with h1 h2 h2
      · rw [h1, h2]
      · exact absurd hab.symm (hnone b hb)
      · exact absurd hab (hnone a ha)
      · exact h.inj a b ha hb h0 hab
    have hperm : m'.entries.Perm (bind key v m.entries) := by
      refine perm_of_mem_iff (nodup_keys_of_inj hinj) (nodup_keys_bind h.nodup_keys)
        fun k w => ?_
      rw [mem_bind, mem_entries, mem_entries]
      constructor
      · rintro ⟨hk', a, ha, hak, hav⟩
        by_cases haj : a = j
        · subst haj
          simp only [hm', keyAt_setSlot, valueAt_setSlot, if_true] at hak hav
          exact .inl ⟨hak.symm, hav.symm⟩
        · simp only [hm', keyAt_setSlot, valueAt_setSlot, if_neg haj] at hak hav
          refine .inr ⟨?_, hk', a, ha, hak, hav⟩
          rintro rfl
          exact hnone a ha hak
      · rintro (⟨rfl, rfl⟩ | ⟨hne, hk', a, ha, hak, hav⟩)
        · exact ⟨hk, j, hj, by simp [hm'], by simp [hm']⟩
        · have haj : a ≠ j := by rintro rfl; exact hk' (hak ▸ hj0)
          exact ⟨hk', a, ha, by simp [hm', haj, hak], by simp [hm', haj, hav]⟩
    have hfilter : m.entries.filter (·.1 ≠ key) = m.entries := by
      refine List.filter_eq_self.2 fun e he => ?_
      obtain ⟨-, i, hi, hik, -⟩ := mem_entries.1 (show (e.1, e.2) ∈ m.entries from he)
      simpa [← hik] using hnone i hi
    have hlen : m'.entries.length = m.entries.length + 1 := by
      rw [hperm.length_eq, bind, hfilter, List.length_cons]
    rw [hpl]
    have hent : ({ m' with size := m.size + 1 } : FlatHashMap hash V vacant).entries = m'.entries :=
      entries_congr rfl rfl
    refine ⟨⟨fun a b ha hb hb0 ha0 => ?_, hinj, ?_, ?_⟩, by rw [hent]; exact hperm⟩
    · -- a free slot was free before, and a stored key is the new one or was stored before
      change m'.keyAt b ≠ vacant at hb0
      change m'.keyAt a = vacant at ha0
      change dist m.capacity (m.slotFor (m'.keyAt b)) b < dist m.capacity (m.slotFor (m'.keyAt b)) a
      have haj : a ≠ j := by rintro rfl; simp [hm', hk] at ha0
      simp only [hm', keyAt_setSlot, if_neg haj] at ha0
      by_cases hbj : b = j
      · subst hbj
        simp only [hm', keyAt_setSlot, if_true]
        have hle := hnear a ha ha0
        have hne : dist m.capacity (m.slotFor key) b ≠ dist m.capacity (m.slotFor key) a := by
          have hs := m.slotFor_lt key
          have ha' : a < m.capacity := ha
          unfold dist; split_ifs <;> omega
        omega
      · simp only [hm', keyAt_setSlot, if_neg hbj] at hb0 ⊢
        exact h.reach a b ha hb hb0 ha0
    · rw [hent, hlen]
      have := h.count
      push_cast
      linarith
    · exact exists_free (by rw [hent, hlen]; exact hroom)

/-- An insertion under the reserved key counts up and changes no entry. -/
theorem WF.place_zero {m : FlatHashMap hash V vacant} (h : m.WF) (v : V) :
    (m.place vacant v).WF ∧ (m.place vacant v).entries = m.entries := by
  obtain ⟨t, ht, h0⟩ := h.room
  obtain ⟨j, hj, hp, hj0, -⟩ := m.probe_spec vacant m.capacity (m.slotFor vacant) (m.slotFor_lt vacant)
    t ht (.inr h0) (dist_lt (m.slotFor_lt vacant) ht)
  rw [or_self] at hj0
  have hpl : m.place vacant v = { m.setSlot j ⟨vacant, v⟩ with size := m.size + 1 } := by
    simp only [FlatHashMap.place, hp, if_pos hj0]
  have hkey : ∀ a, (m.place vacant v).keyAt a = m.keyAt a := by
    intro a
    rw [hpl]
    change (m.setSlot j ⟨vacant, v⟩).keyAt a = m.keyAt a
    rw [keyAt_setSlot]
    split_ifs with ha
    · rw [ha, hj0]
    · rfl
  have hcap : (m.place vacant v).capacity = m.capacity := by rw [hpl]; rfl
  have hslot : ∀ k, (m.place vacant v).slotFor k = m.slotFor k := by intro k; rw [hpl]; rfl
  have hent : (m.place vacant v).entries = m.entries := by
    simp only [entries, hkey, hcap]
    refine List.map_congr_left fun a ha => ?_
    simp only [List.mem_filter, decide_eq_true_eq] at ha
    have haj : a ≠ j := by rintro rfl; exact ha.2 hj0
    rw [hpl]
    change (m.keyAt a, (m.setSlot j ⟨vacant, v⟩).valueAt a) = _
    rw [valueAt_setSlot, if_neg haj]
  refine ⟨⟨?_, ?_, ?_, ?_⟩, hent⟩
  · intro a b; rw [hkey, hkey, hcap, hslot]; exact h.reach a b
  · intro a b; rw [hkey, hkey, hcap]; exact h.inj a b
  · have := h.count
    rw [hent, hpl]
    change (m.entries.length : ℤ) ≤ m.size + 1
    linarith
  · exact ⟨t, by rw [hcap]; exact ht, by rw [hkey]; exact h0⟩

theorem capacity_place (m : FlatHashMap hash V vacant) (key : ℕ) (v : V) :
    (m.place key v).capacity = m.capacity := by
  unfold FlatHashMap.place
  split
  · split_ifs <;> rfl
  · rfl

/-- Placing entries of distinct, absent keys one after the other adds them all. -/
theorem WF.foldl_place : ∀ (l : List (ℕ × V)) {m : FlatHashMap hash V vacant}, m.WF →
    ((l ++ m.entries).map Prod.fst).Nodup → (∀ e ∈ l, e.1 ≠ vacant) →
    m.entries.length + l.length < m.capacity →
    (l.foldl (fun t e => t.place e.1 e.2) m).WF ∧
      (l.foldl (fun t e => t.place e.1 e.2) m).entries.Perm (l ++ m.entries) ∧
      (l.foldl (fun t e => t.place e.1 e.2) m).capacity = m.capacity := by
  intro l
  induction l with
  | nil => intro m h _ _ _; exact ⟨h, List.Perm.refl _, rfl⟩
  | cons e l ih =>
    intro m h hnd h0 hlen
    rw [List.length_cons] at hlen
    obtain ⟨hwf, hperm⟩ := h.place (h0 e List.mem_cons_self) e.2 (by omega)
    have habs : bind e.1 e.2 m.entries = e :: m.entries := by
      refine congrArg (e :: ·) (List.filter_eq_self.2 fun x hx => ?_)
      simp only [List.cons_append, List.map_cons, List.nodup_cons] at hnd
      have hxe : x.1 ≠ e.1 := fun hxe =>
        hnd.1 (List.mem_map.2 ⟨x, List.mem_append_right _ hx, hxe⟩)
      simpa using hxe
    rw [habs] at hperm
    have hmid : (l ++ (m.place e.1 e.2).entries).Perm (e :: l ++ m.entries) :=
      (hperm.append_left l).trans List.perm_middle
    obtain ⟨hwf', hperm', hcap'⟩ := ih hwf
      ((hmid.map Prod.fst).nodup_iff.2 hnd)
      (fun x hx => h0 x (List.mem_cons_of_mem _ hx))
      (by rw [hperm.length_eq, capacity_place, List.length_cons]; omega)
    exact ⟨hwf', hperm'.trans hmid, hcap'.trans (capacity_place m e.1 e.2)⟩

section Default

variable [Inhabited V]

@[simp] theorem keyAt_ofLogCap (n i : ℕ) : (ofLogCap n : FlatHashMap hash V vacant).keyAt i = vacant := rfl

@[simp] theorem entries_ofLogCap (n : ℕ) : (ofLogCap n : FlatHashMap hash V vacant).entries = [] := by
  refine List.eq_nil_iff_forall_not_mem.2 fun e he => ?_
  obtain ⟨h0, i, -, hi, -⟩ := mem_entries.1 (show (e.1, e.2) ∈ _ from he)
  exact h0 hi.symm

/-- A table of free slots is well formed. -/
theorem wf_ofLogCap (n : ℕ) : (ofLogCap n : FlatHashMap hash V vacant).WF where
  reach := by intro i j _ _ h; exact absurd rfl h
  inj := by intro i j _ _ h; exact absurd rfl h
  count := by rw [entries_ofLogCap]; exact le_refl (0 : ℤ)
  room := ⟨0, capacity_pos _, rfl⟩

theorem wf_empty (n : ℕ) : (empty n : FlatHashMap hash V vacant).WF := wf_ofLogCap _

@[simp] theorem entries_empty (n : ℕ) : (empty n : FlatHashMap hash V vacant).entries = [] :=
  entries_ofLogCap _

theorem wf_clear (m : FlatHashMap hash V vacant) : m.clear.WF := wf_ofLogCap _

@[simp] theorem entries_clear (m : FlatHashMap hash V vacant) : m.clear.entries = [] :=
  entries_ofLogCap _

/-- Growing keeps the entries and doubles the capacity. -/
theorem WF.grow {m : FlatHashMap hash V vacant} (h : m.WF) :
    m.grow.WF ∧ m.grow.entries.Perm m.entries ∧ m.grow.capacity = 2 * m.capacity := by
  have hcap : (ofLogCap (m.logCap + 1) : FlatHashMap hash V vacant).capacity = 2 * m.capacity := by
    simp only [capacity, ofLogCap, pow_succ]; ring
  have hlt := length_entries_lt h.room
  have := (wf_ofLogCap (m.logCap + 1)).foldl_place m.entries
    (by simpa using h.nodup_keys)
    (fun e he => (mem_entries.1 (show (e.1, e.2) ∈ m.entries from he)).1)
    (by rw [entries_ofLogCap, List.length_nil, hcap]; omega)
  rw [hcap, entries_ofLogCap, List.append_nil] at this
  exact this

/-- The table that an insertion places into: grown if the count asks for it. -/
private theorem WF.grown {m : FlatHashMap hash V vacant} (h : m.WF) :
    ∃ t : FlatHashMap hash V vacant, t.WF ∧ t.entries.Perm m.entries ∧
      t.entries.length + 1 < t.capacity ∧ ∀ key v, m.insertOrAssign key v = t.place key v := by
  have hlt := length_entries_lt h.room
  by_cases hg : wrapNeg ((m.size + 1) * 10) ≥ m.capacity * 7
  · obtain ⟨hwf, hperm, hcap⟩ := h.grow
    refine ⟨m.grow, hwf, hperm, ?_, fun key v => by rw [insertOrAssign, if_pos hg]⟩
    rw [hperm.length_eq, hcap]
    omega
  · refine ⟨m, h, List.Perm.refl _, ?_, fun key v => by rw [insertOrAssign, if_neg hg]⟩
    have hc := h.count
    have hpos : ¬ (m.size + 1) * 10 < 0 := by omega
    rw [wrapNeg, if_neg hpos] at hg
    omega

/-- **Insertion** binds the key and keeps every other entry, across any growth. -/
theorem WF.insertOrAssign {m : FlatHashMap hash V vacant} (h : m.WF) {key : ℕ} (hk : key ≠ vacant) (v : V) :
    (m.insertOrAssign key v).WF ∧ (m.insertOrAssign key v).entries.Perm (bind key v m.entries) := by
  obtain ⟨t, hwf, hperm, hroom, heq⟩ := h.grown
  obtain ⟨hwf', hperm'⟩ := hwf.place hk v hroom
  rw [heq]
  exact ⟨hwf', hperm'.trans ((hperm.filter _).cons _)⟩

/-- An insertion under the reserved key changes no entry. -/
theorem WF.insertOrAssign_zero {m : FlatHashMap hash V vacant} (h : m.WF) (v : V) :
    (m.insertOrAssign vacant v).WF ∧ (m.insertOrAssign vacant v).entries.Perm m.entries := by
  obtain ⟨t, hwf, hperm, -, heq⟩ := h.grown
  obtain ⟨hwf', hent⟩ := hwf.place_zero v
  rw [heq, hent]
  exact ⟨hwf', hperm⟩

/-! ### Removal -/

/-- What the backward shift keeps while slot `hole` is to be freed and the slots up
to `scan` are done. -/
structure Shifting (m : FlatHashMap hash V vacant) (hole scan : ℕ) : Prop where
  /-- Away from the hole no free slot lies on a probe run. -/
  reach : ∀ i j, i < m.capacity → j < m.capacity → i ≠ hole → j ≠ hole → m.keyAt j ≠ vacant →
    m.keyAt i = vacant →
    dist m.capacity (m.slotFor (m.keyAt j)) j < dist m.capacity (m.slotFor (m.keyAt j)) i
  /-- Away from the hole a key is stored once. -/
  inj : ∀ i j, i < m.capacity → j < m.capacity → i ≠ hole → j ≠ hole → m.keyAt i ≠ vacant →
    m.keyAt i = m.keyAt j → i = j
  /-- An entry whose probe run crosses the hole is still ahead of the scan. -/
  ahead : ∀ j, j < m.capacity → j ≠ hole → m.keyAt j ≠ vacant →
    dist m.capacity (m.slotFor (m.keyAt j)) hole < dist m.capacity (m.slotFor (m.keyAt j)) j →
    dist m.capacity hole scan < dist m.capacity hole j
  /-- So is every free slot. -/
  free : ∀ e, e < m.capacity → e ≠ hole → m.keyAt e = vacant →
    dist m.capacity hole scan < dist m.capacity hole e

/-- What a finished backward shift leaves: a table invariant apart from the count,
and the entries outside the hole. -/
structure Shifted (m m' : FlatHashMap hash V vacant) (hole : ℕ) : Prop where
  cap : m'.capacity = m.capacity
  reach : ∀ i j, i < m'.capacity → j < m'.capacity → m'.keyAt j ≠ vacant → m'.keyAt i = vacant →
    dist m'.capacity (m'.slotFor (m'.keyAt j)) j < dist m'.capacity (m'.slotFor (m'.keyAt j)) i
  inj : ∀ i j, i < m'.capacity → j < m'.capacity → m'.keyAt i ≠ vacant → m'.keyAt i = m'.keyAt j → i = j
  room : ∃ i, i < m'.capacity ∧ m'.keyAt i = vacant
  mem : ∀ k v, (k, v) ∈ m'.entries ↔
    k ≠ vacant ∧ ∃ i, i < m.capacity ∧ i ≠ hole ∧ m.keyAt i = k ∧ m.valueAt i = v

/-- Freeing the hole ends the shift once a free slot follows the scan. -/
theorem Shifting.finish {m : FlatHashMap hash V vacant} {hole scan : ℕ} (h : m.Shifting hole scan)
    (hh : hole < m.capacity) (hs : scan < m.capacity) (h0 : m.keyAt (m.next scan) = vacant)
    (hne : m.next scan ≠ hole) : Shifted m (m.setSlot hole ⟨vacant, default⟩) hole := by
  have hn := next_lt hs
  have hfree := h.free _ hn hne h0
  have hstep : dist m.capacity hole (m.next scan) = dist m.capacity hole scan + 1 := by
    rw [next_eq hs] at hfree ⊢
    unfold dist at *
    split_ifs at * <;> omega
  refine ⟨rfl, ?_, ?_, ⟨hole, hh, by simp⟩, ?_⟩
  · intro i j hi hj hj0 hi0
    simp only [capacity_setSlot, keyAt_setSlot, slotFor_setSlot] at hi hj hj0 hi0 ⊢
    have hjh : j ≠ hole := by rintro rfl; simp at hj0
    rw [if_neg hjh] at hj0 ⊢
    by_cases hih : i = hole
    · -- a run that crossed the hole would also cross the free slot after the scan
      subst hih
      by_contra hcross
      have hsl := m.slotFor_lt (m.keyAt j)
      have hlt : dist m.capacity (m.slotFor (m.keyAt j)) i <
          dist m.capacity (m.slotFor (m.keyAt j)) j := by
        have hd : dist m.capacity (m.slotFor (m.keyAt j)) i ≠
            dist m.capacity (m.slotFor (m.keyAt j)) j := by
          unfold dist; split_ifs <;> omega
        omega
      have hahead := h.ahead j hj hjh hj0 hlt
      have hr := h.reach _ j hn hj hne hjh hj0 h0
      have hjn : j ≠ m.next scan := by rintro rfl; exact hj0 h0
      unfold dist at *
      split_ifs at * <;> omega
    · rw [if_neg hih] at hi0
      exact h.reach i j hi hj hih hjh hj0 hi0
  · intro i j hi hj hi0 hij
    simp only [capacity_setSlot, keyAt_setSlot] at hi hj hi0 hij
    have hih : i ≠ hole := by rintro rfl; simp at hi0
    rw [if_neg hih] at hi0 hij
    have hjh : j ≠ hole := by rintro rfl; rw [if_pos rfl] at hij; exact hi0 hij
    rw [if_neg hjh] at hij
    exact h.inj i j hi hj hih hjh hi0 hij
  · intro k v
    rw [mem_entries]
    refine and_congr_right fun hk => exists_congr fun i => ?_
    simp only [capacity_setSlot, keyAt_setSlot, valueAt_setSlot]
    constructor
    · rintro ⟨hi, hik, hiv⟩
      have hih : i ≠ hole := by rintro rfl; simp [Ne.symm hk] at hik
      rw [if_neg hih] at hik hiv
      exact ⟨hi, hih, hik, hiv⟩
    · rintro ⟨hi, hih, hik, hiv⟩
      rw [if_neg hih, if_neg hih]
      exact ⟨hi, hik, hiv⟩

omit [Inhabited V] in
/-- The scan passes an entry that is blocked: its run does not cross the hole. -/
theorem Shifting.skip {m : FlatHashMap hash V vacant} {hole scan : ℕ} (h : m.Shifting hole scan)
    (hh : hole < m.capacity) (hs : scan < m.capacity) (hne : m.next scan ≠ hole)
    (h0 : m.keyAt (m.next scan) ≠ vacant)
    (hb : blocked hole (m.slotFor (m.keyAt (m.next scan))) (m.next scan)) :
    m.Shifting hole (m.next scan) := by
  have hn := next_lt hs
  have hsl := m.slotFor_lt (m.keyAt (m.next scan))
  have hstep : dist m.capacity hole (m.next scan) = dist m.capacity hole scan + 1 := by
    rw [next_eq hs] at hne ⊢
    unfold dist
    split_ifs at * <;> omega
  refine ⟨h.reach, h.inj, fun j hj hjh hj0 hlt => ?_, fun e he heh he0 => ?_⟩
  · have hahead := h.ahead j hj hjh hj0 hlt
    have hjn : j ≠ m.next scan := by
      rintro rfl
      unfold blocked at hb
      unfold dist at hlt
      split_ifs at * <;> omega
    have hd : dist m.capacity hole j ≠ dist m.capacity hole (m.next scan) := by
      unfold dist; split_ifs <;> omega
    omega
  · have hfree := h.free e he heh he0
    have hen : e ≠ m.next scan := by rintro rfl; exact h0 he0
    have hd : dist m.capacity hole e ≠ dist m.capacity hole (m.next scan) := by
      unfold dist; split_ifs <;> omega
    omega

omit [Inhabited V] in
/-- Moving an entry that is not blocked into the hole opens a new hole behind it. -/
theorem Shifting.move {m : FlatHashMap hash V vacant} {hole s : ℕ} (h : m.Shifting hole s)
    {scan : ℕ} (hh : hole < m.capacity) (hs : scan < m.capacity) (hne : scan ≠ hole)
    (h0 : m.keyAt scan ≠ vacant) (hb : ¬ blocked hole (m.slotFor (m.keyAt scan)) scan) :
    (m.setSlot hole (m.slots scan)).Shifting scan scan := by
  have hsl := m.slotFor_lt (m.keyAt scan)
  have hkey : (m.slots scan).key = m.keyAt scan := rfl
  have hnear : dist m.capacity (m.slotFor (m.keyAt scan)) hole <
      dist m.capacity (m.slotFor (m.keyAt scan)) scan := by
    unfold blocked at hb
    unfold dist
    split_ifs at * <;> omega
  refine ⟨?_, ?_, ?_, ?_⟩
  · intro i j hi hj his hjs hj0 hi0
    simp only [capacity_setSlot, keyAt_setSlot, slotFor_setSlot, hkey] at hi hj hj0 hi0 ⊢
    have hih : i ≠ hole := by rintro rfl; rw [if_pos rfl] at hi0; exact h0 hi0
    rw [if_neg hih] at hi0
    by_cases hjh : j = hole
    · subst hjh
      rw [if_pos rfl]
      exact hnear.trans (h.reach i scan hi hs hih hne h0 hi0)
    · rw [if_neg hjh] at hj0 ⊢
      exact h.reach i j hi hj hih hjh hj0 hi0
  · intro i j hi hj his hjs hi0 hij
    simp only [capacity_setSlot, keyAt_setSlot, hkey] at hi hj hi0 hij
    by_cases hih : i = hole <;> by_cases hjh : j = hole
    · rw [hih, hjh]
    · rw [if_pos hih, if_neg hjh] at hij
      exact absurd (h.inj scan j hs hj hne hjh h0 hij).symm hjs
    · rw [if_neg hih, if_pos hjh] at hij
      rw [if_neg hih] at hi0
      exact absurd (h.inj i scan hi hs hih hne hi0 hij) his
    · rw [if_neg hih, if_neg hjh] at hij
      rw [if_neg hih] at hi0
      exact h.inj i j hi hj hih hjh hi0 hij
  · intro j hj hjs hj0 _
    have hj' : j < m.capacity := hj
    simp only [capacity_setSlot, dist_self]
    unfold dist; split_ifs <;> omega
  · intro e he hes he0
    have he' : e < m.capacity := he
    simp only [capacity_setSlot, dist_self]
    unfold dist; split_ifs <;> omega

/-- The backward shift frees the hole and keeps every other entry. -/
theorem Shifting.shiftBack : ∀ (fuel : ℕ) {m : FlatHashMap hash V vacant} {hole scan e : ℕ},
    m.Shifting hole scan → hole < m.capacity → scan < m.capacity →
    e < m.capacity → e ≠ hole → m.keyAt e = vacant → dist m.capacity scan e ≤ fuel →
    Shifted m (m.shiftBack fuel hole scan) hole := by
  intro fuel
  induction fuel with
  | zero =>
    intro m hole scan e h hh hs he heh he0 hd
    have hfree := h.free e he heh he0
    have hes : e = scan := by unfold dist at hd; split_ifs at hd <;> omega
    rw [hes] at hfree
    omega
  | succ n ih =>
    intro m hole scan e h hh hs he heh he0 hd
    have hn := next_lt hs
    have hfree := h.free e he heh he0
    have hes : e ≠ scan := by rintro rfl; omega
    have hstep := dist_next hs he hes
    have hne : m.next scan ≠ hole := by
      intro hc
      rw [next_eq hs] at hc
      unfold dist at hfree
      split_ifs at * <;> omega
    by_cases h0 : m.keyAt (m.next scan) = vacant
    · simp only [FlatHashMap.shiftBack, if_pos h0]
      exact h.finish hh hs h0 hne
    · by_cases hb : blocked hole (m.slotFor (m.keyAt (m.next scan))) (m.next scan)
      · simp only [FlatHashMap.shiftBack, if_neg h0, if_pos hb]
        exact ih (h.skip hh hs hne h0 hb) hh hn he heh he0 (by omega)
      · simp only [FlatHashMap.shiftBack, if_neg h0, if_neg hb]
        have hen : e ≠ m.next scan := by rintro rfl; exact h0 he0
        have hres := ih (h.move hh hn hne h0 hb) (by exact hn) (by exact hn) (e := e)
          (by exact he) hen (by simp [heh, he0]) (by simp only [capacity_setSlot]; omega)
        refine ⟨hres.cap, hres.reach, hres.inj, hres.room, fun k v => ?_⟩
        rw [hres.mem]
        refine and_congr_right fun hk => ?_
        simp only [capacity_setSlot, keyAt_setSlot, valueAt_setSlot]
        -- the entry at the scan is now the one in the old hole
        constructor
        · rintro ⟨i, hi, his, hik, hiv⟩
          by_cases hih : i = hole
          · rw [if_pos hih] at hik hiv
            exact ⟨m.next scan, hn, hne, hik, hiv⟩
          · rw [if_neg hih] at hik hiv
            exact ⟨i, hi, hih, hik, hiv⟩
        · rintro ⟨i, hi, hih, hik, hiv⟩
          by_cases his : i = m.next scan
          · subst his
            exact ⟨hole, hh, Ne.symm hne, by rw [if_pos rfl]; exact hik, by rw [if_pos rfl]; exact hiv⟩
          · exact ⟨i, hi, his, by rw [if_neg hih]; exact hik, by rw [if_neg hih]; exact hiv⟩

omit [Inhabited V] in
/-- The shift starts with the scan at the hole. -/
theorem WF.shifting {m : FlatHashMap hash V vacant} (h : m.WF) {hole : ℕ} (hh : hole < m.capacity) :
    m.Shifting hole hole where
  reach i j hi hj _ _ := h.reach i j hi hj
  inj i j hi hj _ _ := h.inj i j hi hj
  ahead j hj hne _ _ := by rw [dist_self]; unfold dist; split_ifs <;> omega
  free e he hne _ := by rw [dist_self]; unfold dist; split_ifs <;> omega

/-- Freeing a slot in use removes its entry and keeps every other one. -/
theorem WF.eraseAt {m : FlatHashMap hash V vacant} (h : m.WF) {i : ℕ} (hi : i < m.capacity)
    (h0 : m.keyAt i ≠ vacant) :
    (m.eraseAt i).WF ∧ (m.eraseAt i).entries.Perm (m.entries.filter (·.1 ≠ m.keyAt i)) := by
  obtain ⟨e, he, he0⟩ := h.room
  have hne : e ≠ i := by rintro rfl; exact h0 he0
  have hs := (h.shifting hi).shiftBack m.capacity hi hi he hne he0 (dist_lt hi he).le
  have hent : (m.eraseAt i).entries = (m.shiftBack m.capacity i i).entries := entries_congr rfl rfl
  have hperm : (m.eraseAt i).entries.Perm (m.entries.filter (·.1 ≠ m.keyAt i)) := by
    rw [hent]
    refine perm_of_mem_iff (nodup_keys_of_inj hs.inj) (nodup_keys_filter _ h.nodup_keys)
      fun k v => ?_
    rw [hs.mem, List.mem_filter, mem_entries, and_assoc]
    refine and_congr_right fun hk => ?_
    simp only [ne_eq, decide_eq_true_eq]
    constructor
    · rintro ⟨j, hj, hji, hjk, hjv⟩
      refine ⟨⟨j, hj, hjk, hjv⟩, fun hki => hji (h.inj j i hj hi ?_ ?_)⟩
      · rw [hjk]; exact hk
      · rw [hjk, hki]
    · rintro ⟨⟨j, hj, hjk, hjv⟩, hki⟩
      exact ⟨j, hj, by rintro rfl; exact hki hjk.symm, hjk, hjv⟩
  refine ⟨⟨hs.reach, hs.inj, ?_, hs.room⟩, hperm⟩
  have hmem : (m.keyAt i, m.valueAt i) ∈ m.entries := mem_entries.2 ⟨h0, i, hi, rfl, rfl⟩
  have hlt : (m.entries.filter (·.1 ≠ m.keyAt i)).length < m.entries.length :=
    List.length_filter_lt_length_iff_exists.2 ⟨_, hmem, by simp⟩
  have hc := h.count
  rw [hperm.length_eq]
  change _ ≤ m.size - 1
  omega

/-- **Removal** of a key in use hands its value out and keeps every other entry. -/
theorem WF.erase_some {m : FlatHashMap hash V vacant} (h : m.WF) {key : ℕ} (hk : key ≠ vacant) {v : V}
    (hget : m.get? key = some v) :
    ∃ m', m.erase key = some (v, m') ∧ m'.WF ∧ m'.entries.Perm (m.entries.filter (·.1 ≠ key)) := by
  obtain ⟨i, hfind, rfl⟩ := Option.map_eq_some_iff.1 hget
  obtain ⟨hi, hik⟩ := (find_eq_some_iff h hk).1 hfind
  obtain ⟨hwf, hperm⟩ := h.eraseAt hi (by rw [hik]; exact hk)
  exact ⟨m.eraseAt i, by simp [FlatHashMap.erase, locate_eq_find hk, hfind], hwf, by rwa [hik] at hperm⟩

/-- Removing an absent key does nothing. -/
theorem erase_none {m : FlatHashMap hash V vacant} {key : ℕ} (hk : key ≠ vacant) (hget : m.get? key = none) :
    m.erase key = none := by
  rw [get?, Option.map_eq_none_iff] at hget
  simp [FlatHashMap.erase, locate_eq_find hk, hget]

/-- The reserved key is never removed. -/
theorem erase_zero (m : FlatHashMap hash V vacant) : m.erase vacant = none := by
  have hit : ∀ fuel i j, m.probe vacant fuel i = some j → m.keyAt j = vacant := by
    intro fuel
    induction fuel with
    | zero => intro i j hj; simp [probe] at hj
    | succ n ih =>
      intro i j hj
      simp only [probe, or_self] at hj
      split_ifs at hj with hc
      · cases hj; exact hc
      · exact ih _ _ hj
  unfold FlatHashMap.erase locate
  cases hp : m.probe vacant m.capacity (m.slotFor vacant) with
  | none => rfl
  | some j => simp [hit _ _ _ hp]

/-- A removal finds nothing, or takes one entry out. -/
theorem WF.erase_cases {m : FlatHashMap hash V vacant} (h : m.WF) (key : ℕ) :
    m.erase key = none ∨ ∃ v m', m.erase key = some (v, m') ∧ key ≠ vacant ∧ m.get? key = some v ∧ m'.WF ∧
      m'.entries.Perm (m.entries.filter (·.1 ≠ key)) ∧ m.entries.Perm ((key, v) :: m'.entries) := by
  by_cases hk : key = vacant
  · exact .inl (hk ▸ erase_zero m)
  · cases hget : m.get? key with
    | none => exact .inl (erase_none hk hget)
    | some v =>
      obtain ⟨m', herase, hwf, hperm⟩ := h.erase_some hk hget
      have hmem := (get?_eq_some_iff h hk).1 hget
      exact .inr ⟨v, m', herase, hk, rfl, hwf, hperm,
        (perm_cons_filter h.nodup_keys hmem).trans (hperm.symm.cons _)⟩

end Default

/-! ### The table as a function -/

/-- The value stored under a key; the reserved key has none. -/
def lookup (m : FlatHashMap hash V vacant) (key : ℕ) : Option V := if key = vacant then none else m.get? key

@[simp] theorem lookup_zero (m : FlatHashMap hash V vacant) : m.lookup vacant = none := if_pos rfl

theorem lookup_eq_get? (m : FlatHashMap hash V vacant) {key : ℕ} (hk : key ≠ vacant) : m.lookup key = m.get? key := if_neg hk

theorem WF.lookup_eq_some_iff {m : FlatHashMap hash V vacant} (h : m.WF) {key : ℕ} {v : V} :
    m.lookup key = some v ↔ (key, v) ∈ m.entries := by
  by_cases hk : key = vacant
  · rw [hk, lookup_zero]
    exact iff_of_false (by simp) fun hmem => (mem_entries.1 hmem).1 rfl
  · rw [lookup_eq_get? m hk, get?_eq_some_iff h hk]

/-- Two tables with the same entries but for one key. -/
theorem lookup_update {m m' : FlatHashMap hash V vacant} (h : m.WF) (h' : m'.WF) {key : ℕ} {v : Option V}
    (hself : m'.lookup key = v)
    (hother : ∀ k w, k ≠ key → ((k, w) ∈ m'.entries ↔ (k, w) ∈ m.entries)) :
    m'.lookup = Function.update m.lookup key v := by
  funext k
  by_cases hk : k = key
  · rw [hk, Function.update_self, hself]
  · rw [Function.update_of_ne hk]
    refine Option.ext fun w => ?_
    rw [h'.lookup_eq_some_iff, h.lookup_eq_some_iff, hother k w hk]

section Default

variable [Inhabited V]

theorem WF.lookup_insertOrAssign {m : FlatHashMap hash V vacant} (h : m.WF) {key : ℕ} (hk : key ≠ vacant) (v : V) :
    (m.insertOrAssign key v).lookup = Function.update m.lookup key (some v) := by
  obtain ⟨hwf, hperm⟩ := h.insertOrAssign hk v
  refine lookup_update h hwf ?_ fun k w hne => ?_
  · rw [hwf.lookup_eq_some_iff, hperm.mem_iff, mem_bind]
    exact .inl ⟨rfl, rfl⟩
  · rw [hperm.mem_iff, mem_bind]
    simp [hne]

theorem WF.wf_insertOrAssign {m : FlatHashMap hash V vacant} (h : m.WF) (key : ℕ) (v : V) : (m.insertOrAssign key v).WF := by
  by_cases hk : key = vacant
  · rw [hk]; exact (h.insertOrAssign_zero v).1
  · exact (h.insertOrAssign hk v).1

theorem WF.lookup_insertOrAssign_zero {m : FlatHashMap hash V vacant} (h : m.WF) (v : V) :
    (m.insertOrAssign vacant v).lookup = m.lookup := by
  obtain ⟨hwf, hperm⟩ := h.insertOrAssign_zero v
  refine (lookup_update h hwf (lookup_zero _) fun k w _ => hperm.mem_iff).trans ?_
  rw [← lookup_zero m, Function.update_eq_self]

/-- A removal finds nothing under the key, or takes out what is stored there. -/
theorem WF.lookup_erase {m : FlatHashMap hash V vacant} (h : m.WF) (key : ℕ) :
    m.erase key = none ∧ m.lookup key = none ∨
      ∃ v m', m.erase key = some (v, m') ∧ m.lookup key = some v ∧ m'.WF ∧
        m'.lookup = Function.update m.lookup key none := by
  obtain hnone | ⟨v, m', herase, hk, hget, hwf, hperm, -⟩ := h.erase_cases key
  · refine .inl ⟨hnone, ?_⟩
    by_cases hk : key = vacant
    · rw [hk, lookup_zero]
    · rw [lookup_eq_get? m hk]
      cases hget : m.get? key with
      | none => rfl
      | some v =>
          obtain ⟨m', herase, -⟩ := h.erase_some hk hget
          rw [hnone] at herase
          cases herase
  · refine .inr ⟨v, m', herase, by rw [lookup_eq_get? m hk, hget], hwf, lookup_update h hwf ?_ fun k w hne => ?_⟩
    · refine Option.eq_none_iff_forall_ne_some.mpr fun w hw => ?_
      rw [hwf.lookup_eq_some_iff, hperm.mem_iff] at hw
      simp at hw
    · rw [hperm.mem_iff]
      simp [hne]

omit [Inhabited V] in
/-- Writing through a pointer that was found. -/
theorem WF.lookup_setValueAt {m : FlatHashMap hash V vacant} (h : m.WF) {key i : ℕ} (hk : key ≠ vacant)
    (hfind : m.find key = some i) (v : V) :
    (m.setValueAt i v).WF ∧ (m.setValueAt i v).find key = some i ∧
      (m.setValueAt i v).lookup = Function.update m.lookup key (some v) := by
  obtain ⟨hi, hik⟩ := (find_eq_some_iff h hk).1 hfind
  obtain ⟨hwf, hperm⟩ := h.setValueAt hi (by rwa [hik]) v
  rw [hik] at hperm
  refine ⟨hwf, (find_eq_some_iff hwf hk).2 ⟨hi, by simp [FlatHashMap.setValueAt, hik]⟩, lookup_update h hwf ?_ fun k w hne => ?_⟩
  · rw [hwf.lookup_eq_some_iff, hperm.mem_iff, mem_bind]
    exact .inl ⟨rfl, rfl⟩
  · rw [hperm.mem_iff, mem_bind]
    simp [hne]

/-- Removing what was found. -/
theorem WF.lookup_eraseAt {m : FlatHashMap hash V vacant} (h : m.WF) {key i : ℕ} (hk : key ≠ vacant)
    (hfind : m.find key = some i) :
    (m.eraseAt i).WF ∧ (m.eraseAt i).lookup = Function.update m.lookup key none := by
  obtain ⟨hi, hik⟩ := (find_eq_some_iff h hk).1 hfind
  obtain ⟨hwf, hperm⟩ := h.eraseAt hi (by rwa [hik])
  rw [hik] at hperm
  refine ⟨hwf, lookup_update h hwf ?_ fun k w hne => ?_⟩
  · refine Option.eq_none_iff_forall_ne_some.mpr fun w hw => ?_
    rw [hwf.lookup_eq_some_iff, hperm.mem_iff] at hw
    simp at hw
  · rw [hperm.mem_iff]
    simp [hne]

@[simp] theorem lookup_empty (n : ℕ) : (empty n : FlatHashMap hash V vacant).lookup = fun _ => none := by
  funext k
  refine Option.eq_none_iff_forall_ne_some.mpr fun w hw => ?_
  rw [(wf_empty n).lookup_eq_some_iff] at hw
  simp at hw

@[simp] theorem lookup_clear (m : FlatHashMap hash V vacant) : m.clear.lookup = fun _ => none := by
  funext k
  refine Option.eq_none_iff_forall_ne_some.mpr fun w hw => ?_
  rw [(wf_clear m).lookup_eq_some_iff] at hw
  simp at hw

end Default

end FlatHashMap

end TickToTrade.Util
