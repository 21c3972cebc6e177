import Mathlib.Data.Finmap
import TickToTrade.Util.FlatHashMap

/-!
# The hash map is a map

The operations of the table with every loop of the program in them: `insertNested` grows
through itself, as the program does, and each operation is `none` where one of its loops
runs past all slots. `map_refines` says that no run of operations comes to that, and that it
answers as the finite map does.
-/

namespace TickToTrade.Util

variable {V : Type} {hash : ℕ → ℕ} {vacant : ℕ}

/-- What a table is asked. -/
inductive MapOp (V : Type) where
  | insertOrAssign (key : ℕ) (value : V)
  | find (key : ℕ)
  | erase (key : ℕ)
  /-- The removal that hands the value out. -/
  | eraseOut (key : ℕ)
  /-- `find`, and `eraseAt` of the `indexOf` what it found. -/
  | eraseFound (key : ℕ)
  | forEach
  | size
  | clear

/-- What it answers. The order of the visits is not part of the answer. -/
inductive MapAnswer (V : Type) where
  | done
  | found (value : Option V)
  | erased (present : Bool)
  | visited (entries : Multiset (ℕ × V))
  | count (n : ℤ)

/-- The key of an operation is not the reserved one. -/
def MapOp.Avoids (vacant : ℕ) : MapOp V → Prop
  | .insertOrAssign key _ | .find key | .erase key | .eraseOut key | .eraseFound key => key ≠ vacant
  | .forEach | .size | .clear => True

/-- A finite map, the purpose of the table. -/
abbrev FiniteMap (V : Type) := Finmap fun _ : ℕ => V

namespace FiniteMap

def pairs (f : FiniteMap V) : Multiset (ℕ × V) := f.entries.map fun e => (e.1, e.2)

def perform (f : FiniteMap V) : MapOp V → MapAnswer V × FiniteMap V
  | .insertOrAssign key value => (.done, f.insert key value)
  | .find key => (.found (f.lookup key), f)
  | .erase key => (.erased (f.lookup key).isSome, f.erase key)
  | .eraseOut key => (.found (f.lookup key), f.erase key)
  | .eraseFound key => (.erased (f.lookup key).isSome, f.erase key)
  | .forEach => (.visited f.pairs, f)
  | .size => (.count f.keys.card, f)
  | .clear => (.done, ∅)

/-- One operation after the other. -/
def performs (f : FiniteMap V) : List (MapOp V) → List (MapAnswer V) × FiniteMap V
  | [] => ([], f)
  | op :: ops => ((f.perform op).1 :: ((f.perform op).2.performs ops).1, ((f.perform op).2.performs ops).2)

theorem mem_pairs {f : FiniteMap V} {key : ℕ} {v : V} : (key, v) ∈ f.pairs ↔ f.lookup key = some v := by
  rw [Finmap.lookup_eq_some_iff, pairs, Multiset.mem_map]
  constructor
  · rintro ⟨e, he, heq⟩
    cases heq
    exact he
  · exact fun h => ⟨_, h, rfl⟩

theorem nodup_pairs (f : FiniteMap V) : f.pairs.Nodup :=
  f.nodup_entries.map fun e e' h => by
    cases e
    cases e'
    cases h
    rfl

theorem card_pairs (f : FiniteMap V) : f.pairs.card = f.keys.card := by
  rw [pairs, Multiset.card_map]
  exact (Multiset.card_map Sigma.fst f.entries).symm

end FiniteMap

namespace FlatHashMap

variable [Inhabited V]

/-- The end of `insertOrAssign`, after any growth. -/
def placeIn (m : FlatHashMap hash V vacant) (key : ℕ) (value : V) : Option (FlatHashMap hash V vacant) :=
  (m.probe key m.capacity (m.slotFor key)).map fun _ => m.place key value

/-- `insertOrAssign` and `grow`, which call each other, at most so deep. -/
def insertNested : ℕ → FlatHashMap hash V vacant → ℕ → V → Option (FlatHashMap hash V vacant)
  | 0, _, _, _ => none
  | depth + 1, m, key, value => do
      let m ←
        if wrapNeg ((m.size + 1) * 10) ≥ m.capacity * 7 then
          m.entries.foldlM (fun t e => insertNested depth t e.1 e.2) (ofLogCap (m.logCap + 1))
        else some m
      m.placeIn key value

/-- The loop of `eraseAtHole`, of at most so many turns. -/
def shiftBackLoop (m : FlatHashMap hash V vacant) : ℕ → ℕ → ℕ → Option (FlatHashMap hash V vacant)
  | 0, _, _ => none
  | fuel + 1, hole, scan =>
      let scan := m.next scan
      if m.keyAt scan = vacant then some (m.setSlot hole ⟨vacant, default⟩)
      else if blocked hole (m.slotFor (m.keyAt scan)) scan then m.shiftBackLoop fuel hole scan
      else (m.setSlot hole (m.slots scan)).shiftBackLoop fuel scan scan

/-- `eraseAtHole`. -/
def eraseAtHole (m : FlatHashMap hash V vacant) (hole : ℕ) : Option (FlatHashMap hash V vacant) :=
  (m.shiftBackLoop m.capacity hole hole).map fun t => { t with size := m.size - 1 }

/-- `find`, where its loop ends. -/
def findLoop (m : FlatHashMap hash V vacant) (key : ℕ) : Option (Option ℕ) :=
  (m.probe key m.capacity (m.slotFor key)).map fun _ => m.find key

/-- `locate`, where its loop ends. -/
def locateLoop (m : FlatHashMap hash V vacant) (key : ℕ) : Option (Option ℕ) :=
  (m.probe key m.capacity (m.slotFor key)).map fun _ => m.locate key

/-- An operation of the table: its answer and the table after it. -/
def perform (m : FlatHashMap hash V vacant) : MapOp V → Option (MapAnswer V × FlatHashMap hash V vacant)
  | .insertOrAssign key value => do return (.done, ← insertNested 2 m key value)
  | .find key => do return (.found ((← m.findLoop key).map m.valueAt), m)
  | .erase key => do
      match ← m.locateLoop key with
      | some i => return (.erased true, ← m.eraseAtHole i)
      | none => return (.erased false, m)
  | .eraseOut key => do
      match ← m.locateLoop key with
      | some i => return (.found (some (m.valueAt i)), ← m.eraseAtHole i)
      | none => return (.found none, m)
  | .eraseFound key => do
      match ← m.findLoop key with
      | some i => return (.erased true, ← m.eraseAtHole i)
      | none => return (.erased false, m)
  | .forEach => some (.visited m.entries, m)
  | .size => some (.count (wrapNeg m.size), m)
  | .clear => some (.done, m.clear)

/-- One operation after the other. -/
def performs (m : FlatHashMap hash V vacant) : List (MapOp V) → Option (List (MapAnswer V) × FlatHashMap hash V vacant)
  | [] => some ([], m)
  | op :: ops => do
      let (answer, m) ← m.perform op
      let (answers, m) ← m.performs ops
      return (answer :: answers, m)

/-! ### The loops end -/

/-- The count is the number of the entries. -/
def Counts (m : FlatHashMap hash V vacant) : Prop := m.size = m.entries.length

omit [Inhabited V] in
theorem WF.probe_ends {m : FlatHashMap hash V vacant} (h : m.WF) {key : ℕ} (hk : key ≠ vacant) :
    ∃ j, m.probe key m.capacity (m.slotFor key) = some j := by
  obtain ⟨j, -, hj, -⟩ := h.probe_cases hk
  exact ⟨j, hj⟩

omit [Inhabited V] in
theorem WF.placeIn_eq {m : FlatHashMap hash V vacant} (h : m.WF) {key : ℕ} (hk : key ≠ vacant) (v : V) :
    m.placeIn key v = some (m.place key v) := by
  obtain ⟨j, hj⟩ := h.probe_ends hk
  rw [placeIn, hj]
  rfl

omit [Inhabited V] in
/-- Placing an entry counts it if it is new. -/
theorem WF.counts_place {m : FlatHashMap hash V vacant} (h : m.WF) (hcount : m.Counts) {key : ℕ} (hk : key ≠ vacant) (v : V)
    (hroom : m.entries.length + 1 < m.capacity) : (m.place key v).Counts := by
  obtain ⟨-, hperm⟩ := h.place hk v hroom
  unfold Counts at hcount ⊢
  rw [hperm.length_eq]
  obtain ⟨j, hj, hp, hjk | ⟨hj0, hnone, -⟩⟩ := h.probe_cases hk
  · -- the key is there, and one entry takes the place of another
    have h0 : m.keyAt j ≠ vacant := by rwa [hjk]
    have hmem : (key, m.valueAt j) ∈ m.entries := mem_entries.2 ⟨hk, j, hj, hjk, rfl⟩
    have hlen := (perm_cons_filter h.nodup_keys hmem).length_eq
    have hsize : (m.place key v).size = m.size := by
      simp only [FlatHashMap.place, hp, if_neg h0]
      rfl
    rw [hsize, hcount, hlen]
    rfl
  · have habs : bind key v m.entries = (key, v) :: m.entries :=
      bind_of_absent v fun w hw => by
        obtain ⟨-, i, hi, hik, -⟩ := mem_entries.1 hw
        exact hnone i hi hik
    have hsize : (m.place key v).size = m.size + 1 := by simp only [FlatHashMap.place, hp, if_pos hj0]
    rw [hsize, hcount, habs, List.length_cons]
    rfl

omit [Inhabited V] in
theorem size_place_le (m : FlatHashMap hash V vacant) (key : ℕ) (v : V) :
    m.size ≤ (m.place key v).size ∧ (m.place key v).size ≤ m.size + 1 := by
  unfold place
  split
  · split_ifs
    · exact ⟨by simp, le_refl _⟩
    · exact ⟨le_refl _, by simp [setValueAt, setSlot]⟩
  · exact ⟨le_refl _, by simp⟩

omit [Inhabited V] in
theorem size_foldl_place_le (l : List (ℕ × V)) (m : FlatHashMap hash V vacant) :
    (l.foldl (fun t e => t.place e.1 e.2) m).size ≤ m.size + l.length := by
  induction l generalizing m with
  | nil => simp
  | cons e l ih =>
      have hfold := ih (m.place e.1 e.2)
      have hplace := (m.size_place_le e.1 e.2).2
      rw [List.foldl_cons, List.length_cons]
      omega

/-- A grown table counts its entries anew. -/
theorem WF.counts_grow {m : FlatHashMap hash V vacant} (h : m.WF) : m.grow.Counts := by
  obtain ⟨hwf, hperm, -⟩ := h.grow
  have hle := size_foldl_place_le m.entries (ofLogCap (m.logCap + 1) : FlatHashMap hash V vacant)
  have hge := hwf.count
  have hlen := hperm.length_eq
  have hsize : (ofLogCap (m.logCap + 1) : FlatHashMap hash V vacant).size = 0 := rfl
  rw [hsize] at hle
  change m.grow.size ≤ _ at hle
  unfold Counts
  omega

/-- Where the load allows it, an insertion does not grow the table. -/
theorem WF.insertNested_place {m : FlatHashMap hash V vacant} (h : m.WF) {key : ℕ} (hk : key ≠ vacant) (v : V) (depth : ℕ)
    (hload : (m.size + 1) * 10 < m.capacity * 7) : insertNested (depth + 1) m key v = some (m.place key v) := by
  have hc := h.count
  have hpos : ¬(m.size + 1) * 10 < 0 := by omega
  rw [insertNested, wrapNeg, if_neg hpos, if_neg (by omega)]
  exact h.placeIn_eq hk v

/-- Inserting few entries into a large table places them one after the other. -/
theorem WF.foldlM_insertNested (depth : ℕ) : ∀ (l : List (ℕ × V)) {m : FlatHashMap hash V vacant}, m.WF →
    (∀ e ∈ l, e.1 ≠ vacant) → (m.size + l.length) * 10 < m.capacity * 7 →
    l.foldlM (fun t e => insertNested (depth + 1) t e.1 e.2) m = some (l.foldl (fun t e => t.place e.1 e.2) m) := by
  intro l
  induction l with
  | nil => intro m _ _ _; rfl
  | cons e l ih =>
      intro m h hkeys hload
      have hc := h.count
      rw [List.length_cons] at hload
      have hkey := hkeys e List.mem_cons_self
      have hroom : m.entries.length + 1 < m.capacity := by omega
      obtain ⟨-, hsize⟩ := m.size_place_le e.1 e.2
      have hcap := m.capacity_place e.1 e.2
      rw [List.foldlM_cons, h.insertNested_place hkey e.2 depth (by omega), List.foldl_cons]
      exact ih (h.place hkey e.2 hroom).1 (fun x hx => hkeys x (List.mem_cons_of_mem _ hx)) (by omega)

/-- **Growing through itself** comes to the same table, and goes one level deep. -/
theorem WF.insertNested_eq {m : FlatHashMap hash V vacant} (h : m.WF) {key : ℕ} (hk : key ≠ vacant) (v : V) (depth : ℕ) :
    insertNested (depth + 2) m key v = some (m.insertOrAssign key v) := by
  rw [insertNested, FlatHashMap.insertOrAssign]
  by_cases hload : wrapNeg ((m.size + 1) * 10) ≥ m.capacity * 7
  · rw [if_pos hload, if_pos hload]
    have hlt := length_entries_lt h.room
    have hcap : (ofLogCap (m.logCap + 1) : FlatHashMap hash V vacant).capacity = 2 * m.capacity := by
      simp only [capacity, ofLogCap, pow_succ]
      ring
    have hsize : (ofLogCap (m.logCap + 1) : FlatHashMap hash V vacant).size = 0 := rfl
    have hfold := (wf_ofLogCap (m.logCap + 1)).foldlM_insertNested depth m.entries
      (fun e he => (mem_entries.1 (show (e.1, e.2) ∈ m.entries from he)).1) (by omega)
    rw [hfold]
    exact h.grow.1.placeIn_eq hk v
  · rw [if_neg hload, if_neg hload]
    exact h.placeIn_eq hk v

/-- With a free slot ahead the backward shift ends there at the latest. -/
theorem shiftBackLoop_eq : ∀ (fuel : ℕ) {m : FlatHashMap hash V vacant} {hole scan e : ℕ},
    scan < m.capacity → e < m.capacity → e ≠ hole → e ≠ scan → m.keyAt e = vacant → dist m.capacity scan e ≤ fuel →
    m.shiftBackLoop fuel hole scan = some (m.shiftBack fuel hole scan) := by
  intro fuel
  induction fuel with
  | zero =>
      intro m hole scan e hs he _ hne _ hd
      unfold dist at hd
      split_ifs at hd <;> omega
  | succ fuel ih =>
      intro m hole scan e hs he hhole hne he0 hd
      have hstep := dist_next hs he hne
      rw [shiftBackLoop, shiftBack]
      by_cases h0 : m.keyAt (m.next scan) = vacant
      · rw [if_pos h0, if_pos h0]
      · rw [if_neg h0, if_neg h0]
        have hen : e ≠ m.next scan := by rintro rfl; exact h0 he0
        split_ifs
        · exact ih (next_lt hs) he hhole hen he0 (by omega)
        · -- the free slot is not the hole, so that it stays free
          refine ih (e := e) (next_lt hs) he hen hen ?_ (by rw [capacity_setSlot]; omega)
          rw [keyAt_setSlot, if_neg hhole]
          exact he0

theorem WF.eraseAtHole_eq {m : FlatHashMap hash V vacant} (h : m.WF) {i : ℕ} (hi : i < m.capacity)
    (h0 : m.keyAt i ≠ vacant) : m.eraseAtHole i = some (m.eraseAt i) := by
  obtain ⟨e, he, he0⟩ := h.room
  have hne : e ≠ i := by rintro rfl; exact h0 he0
  rw [eraseAtHole, shiftBackLoop_eq m.capacity hi he hne hne he0 (dist_lt hi he).le]
  rfl

/-! ### The finite map -/

/-- The table holds the finite map. -/
structure Refines (m : FlatHashMap hash V vacant) (f : FiniteMap V) : Prop where
  wf : m.WF
  counts : m.Counts
  entries : ∀ key v, (key, v) ∈ m.entries ↔ f.lookup key = some v

variable {m : FlatHashMap hash V vacant} {f : FiniteMap V}

omit [Inhabited V] in
/-- The entries of the table are those of the map, each once. -/
theorem Refines.pairs (h : m.Refines f) : (m.entries : Multiset (ℕ × V)) = f.pairs :=
  (Multiset.Nodup.ext (Multiset.coe_nodup.mpr h.wf.nodup_keys.of_map) f.nodup_pairs).mpr fun e => by
    rw [Multiset.mem_coe, show e ∈ m.entries ↔ _ from h.entries e.1 e.2]
    exact FiniteMap.mem_pairs.symm

omit [Inhabited V] in
theorem Refines.find (h : m.Refines f) {key : ℕ} (hk : key ≠ vacant) :
    m.findLoop key = some (m.find key) ∧ (m.find key).map m.valueAt = f.lookup key := by
  obtain ⟨j, hj⟩ := h.wf.probe_ends hk
  refine ⟨by rw [findLoop, hj]; rfl, Option.ext fun v => ?_⟩
  rw [← h.entries]
  exact get?_eq_some_iff h.wf hk

omit [Inhabited V] in
theorem Refines.locate (h : m.Refines f) {key : ℕ} (hk : key ≠ vacant) : m.locateLoop key = some (m.find key) := by
  obtain ⟨j, hj⟩ := h.wf.probe_ends hk
  rw [locateLoop, hj, locate_eq_find hk]
  rfl

/-- Removing what was found. -/
theorem Refines.eraseAtHole (h : m.Refines f) {key i : ℕ} (hk : key ≠ vacant) (hfind : m.find key = some i) :
    m.eraseAtHole i = some (m.eraseAt i) ∧ (m.eraseAt i).Refines (f.erase key) := by
  obtain ⟨hi, hik⟩ := (find_eq_some_iff h.wf hk).1 hfind
  have h0 : m.keyAt i ≠ vacant := by rwa [hik]
  obtain ⟨hwf, hperm⟩ := h.wf.eraseAt hi h0
  rw [hik] at hperm
  refine ⟨h.wf.eraseAtHole_eq hi h0, hwf, ?_, fun k v => ?_⟩
  · have hmem : (key, m.valueAt i) ∈ m.entries := mem_entries.2 ⟨hk, i, hi, hik, rfl⟩
    have hlen := (perm_cons_filter h.wf.nodup_keys hmem).length_eq
    have hcount := h.counts
    rw [Counts, hlen, List.length_cons] at hcount
    rw [Counts, hperm.length_eq]
    change m.size - 1 = _
    omega
  · rw [hperm.mem_iff, List.mem_filter, h.entries]
    by_cases hkk : k = key
    · rw [hkk, Finmap.lookup_erase]
      simp
    · rw [Finmap.lookup_erase_ne hkk]
      simp [hkk]

theorem WF.counts_insertOrAssign {m : FlatHashMap hash V vacant} (h : m.WF) (hcount : m.Counts) {key : ℕ} (hk : key ≠ vacant)
    (v : V) : (m.insertOrAssign key v).Counts := by
  have hlt := length_entries_lt h.room
  rw [FlatHashMap.insertOrAssign]
  by_cases hload : wrapNeg ((m.size + 1) * 10) ≥ m.capacity * 7
  · obtain ⟨hwf, hperm, hcap⟩ := h.grow
    have hlen := hperm.length_eq
    rw [if_pos hload]
    exact hwf.counts_place h.counts_grow hk v (by omega)
  · rw [if_neg hload]
    have hc := h.count
    have hpos : ¬(m.size + 1) * 10 < 0 := by omega
    rw [wrapNeg, if_neg hpos] at hload
    exact h.counts_place hcount hk v (by omega)

theorem Refines.insert (h : m.Refines f) {key : ℕ} (hk : key ≠ vacant) (v : V) :
    (m.insertOrAssign key v).Refines (f.insert key v) := by
  obtain ⟨hwf, hperm⟩ := h.wf.insertOrAssign hk v
  refine ⟨hwf, h.wf.counts_insertOrAssign h.counts hk v, fun k w => ?_⟩
  rw [hperm.mem_iff, mem_bind, h.entries]
  by_cases hkk : k = key
  · rw [hkk, Finmap.lookup_insert]
    simp [eq_comm]
  · rw [Finmap.lookup_insert_of_ne _ hkk]
    simp [hkk]

theorem refines_ofLogCap (n : ℕ) : (ofLogCap n : FlatHashMap hash V vacant).Refines ∅ where
  wf := wf_ofLogCap n
  counts := by rw [Counts, entries_ofLogCap]; rfl
  entries key v := by rw [entries_ofLogCap, Finmap.lookup_empty]; simp

/-- Removing by key, where nothing or something is found. -/
theorem Refines.remove (h : m.Refines f) {key : ℕ} (hk : key ≠ vacant) :
    m.find key = none ∧ f.lookup key = none ∧ f.erase key = f ∨
      ∃ i, m.find key = some i ∧ f.lookup key = some (m.valueAt i) ∧ m.eraseAtHole i = some (m.eraseAt i) ∧
        (m.eraseAt i).Refines (f.erase key) := by
  obtain ⟨-, hvalue⟩ := h.find hk
  cases hfind : m.find key with
  | none =>
      rw [hfind] at hvalue
      refine .inl ⟨rfl, hvalue.symm, Finmap.ext_lookup fun k => ?_⟩
      by_cases hkk : k = key
      · rw [hkk, Finmap.lookup_erase, ← hvalue]
        rfl
      · rw [Finmap.lookup_erase_ne hkk]
  | some i =>
      rw [hfind] at hvalue
      obtain ⟨herase, hrefines⟩ := h.eraseAtHole hk hfind
      exact .inr ⟨i, rfl, hvalue.symm, herase, hrefines⟩

omit [Inhabited V] in
/-- The reserved key is in no map that a table holds. -/
theorem Refines.lookup_vacant (h : m.Refines f) : f.lookup vacant = none :=
  Option.eq_none_iff_forall_ne_some.mpr fun _ hv => (mem_entries.1 ((h.entries _ _).mpr hv)).1 rfl

omit [Inhabited V] in
/-- Writing through a pointer that was found. -/
theorem Refines.setValueAt (h : m.Refines f) {key i : ℕ} (hk : key ≠ vacant) (hfind : m.find key = some i) (v : V) :
    (m.setValueAt i v).Refines (f.insert key v) ∧ (m.setValueAt i v).find key = some i := by
  obtain ⟨hi, hik⟩ := (find_eq_some_iff h.wf hk).1 hfind
  obtain ⟨hwf, hperm⟩ := h.wf.setValueAt hi (by rw [hik]; exact hk) v
  rw [hik] at hperm
  refine ⟨⟨hwf, ?_, fun k w => ?_⟩, (find_eq_some_iff hwf hk).2 ⟨hi, by simp [FlatHashMap.setValueAt, hik]⟩⟩
  · have hmem : (key, m.valueAt i) ∈ m.entries := mem_entries.2 ⟨hk, i, hi, hik, rfl⟩
    have hlen := (perm_cons_filter h.wf.nodup_keys hmem).length_eq
    have hcount := h.counts
    unfold Counts at hcount ⊢
    rw [hperm.length_eq, show (m.setValueAt i v).size = m.size from rfl, hcount, hlen]
    rfl
  · rw [hperm.mem_iff, mem_bind, h.entries]
    by_cases hkk : k = key
    · rw [hkk, Finmap.lookup_insert]
      simp [eq_comm]
    · rw [Finmap.lookup_insert_of_ne _ hkk]
      simp [hkk]

theorem Refines.eraseAt (h : m.Refines f) {key i : ℕ} (hk : key ≠ vacant) (hfind : m.find key = some i) :
    (m.eraseAt i).Refines (f.erase key) := (h.eraseAtHole hk hfind).2

/-- The removal that hands the value out, of any key. -/
theorem Refines.erase (h : m.Refines f) (key : ℕ) :
    m.erase key = none ∧ f.lookup key = none ∨
      ∃ v t, m.erase key = some (v, t) ∧ f.lookup key = some v ∧ t.Refines (f.erase key) := by
  by_cases hk : key = vacant
  · subst hk
    exact .inl ⟨erase_zero m, h.lookup_vacant⟩
  · obtain ⟨hfind, hnone, -⟩ | ⟨i, hfind, hsome, -, hrefines⟩ := h.remove hk
    · exact .inl ⟨by simp [FlatHashMap.erase, locate_eq_find hk, hfind], hnone⟩
    · exact .inr ⟨_, _, by simp [FlatHashMap.erase, locate_eq_find hk, hfind], hsome, hrefines⟩

omit [Inhabited V] in
/-- The count of the table is that of the map. -/
theorem Refines.card (h : m.Refines f) : wrapNeg m.size = f.keys.card := by
  have hcount := h.counts
  rw [← FiniteMap.card_pairs, ← h.pairs, Multiset.coe_card, wrapNeg, hcount, if_neg (by omega)]

omit [Inhabited V] in
/-- A walk ends, also one for the reserved key. -/
theorem WF.isSome_probe (h : m.WF) (key : ℕ) : (m.probe key m.capacity (m.slotFor key)).isSome = true := by
  obtain ⟨e, he, he0⟩ := h.room
  obtain ⟨j, -, hj, -⟩ := m.probe_spec key m.capacity (m.slotFor key) (m.slotFor_lt key) e he (.inr he0)
    (dist_lt (m.slotFor_lt key) he)
  rw [hj]
  rfl

/-- **Every operation** ends, answers as the map does, and leaves the table with the map. -/
theorem Refines.perform (h : m.Refines f) {op : MapOp V} (hop : op.Avoids vacant) :
    ∃ t, m.perform op = some ((f.perform op).1, t) ∧ t.Refines (f.perform op).2 := by
  cases op with
  | insertOrAssign key v =>
      exact ⟨_, by rw [FlatHashMap.perform, h.wf.insertNested_eq hop v 0]; rfl, h.insert hop v⟩
  | find key =>
      obtain ⟨hloop, hvalue⟩ := h.find hop
      exact ⟨m, by rw [FlatHashMap.perform, hloop, FiniteMap.perform, ← hvalue]; rfl, h⟩
  | erase key =>
      rw [FlatHashMap.perform, h.locate hop, FiniteMap.perform]
      obtain ⟨hfind, hnone, hsame⟩ | ⟨i, hfind, hsome, herase, hrefines⟩ := h.remove hop
      · rw [hfind, hnone, hsame]
        exact ⟨m, rfl, h⟩
      · rw [hfind, hsome]
        exact ⟨m.eraseAt i, by simp only [Option.bind_eq_bind, Option.bind_some, herase]; rfl, hrefines⟩
  | eraseOut key =>
      rw [FlatHashMap.perform, h.locate hop, FiniteMap.perform]
      obtain ⟨hfind, hnone, hsame⟩ | ⟨i, hfind, hsome, herase, hrefines⟩ := h.remove hop
      · rw [hfind, hnone, hsame]
        exact ⟨m, rfl, h⟩
      · rw [hfind, hsome]
        exact ⟨m.eraseAt i, by simp only [Option.bind_eq_bind, Option.bind_some, herase]; rfl, hrefines⟩
  | eraseFound key =>
      rw [FlatHashMap.perform, (h.find hop).1, FiniteMap.perform]
      obtain ⟨hfind, hnone, hsame⟩ | ⟨i, hfind, hsome, herase, hrefines⟩ := h.remove hop
      · rw [hfind, hnone, hsame]
        exact ⟨m, rfl, h⟩
      · rw [hfind, hsome]
        exact ⟨m.eraseAt i, by simp only [Option.bind_eq_bind, Option.bind_some, herase]; rfl, hrefines⟩
  | forEach => exact ⟨m, by rw [FlatHashMap.perform, h.pairs]; rfl, h⟩
  | size => exact ⟨m, by rw [FlatHashMap.perform, h.card]; rfl, h⟩
  | clear => exact ⟨m.clear, rfl, refines_ofLogCap _⟩

/-- Every run of operations. -/
theorem Refines.performs (h : m.Refines f) {ops : List (MapOp V)} (hops : ∀ op ∈ ops, op.Avoids vacant) :
    ∃ t, m.performs ops = some ((f.performs ops).1, t) ∧ t.Refines (f.performs ops).2 := by
  induction ops generalizing m f with
  | nil => exact ⟨m, rfl, h⟩
  | cons op ops ih =>
      obtain ⟨t, hop, ht⟩ := h.perform (hops op List.mem_cons_self)
      obtain ⟨u, hrest, hu⟩ := ih ht fun op h => hops op (List.mem_cons_of_mem _ h)
      refine ⟨u, ?_, hu⟩
      rw [FlatHashMap.performs, hop]
      simp only [Option.bind_eq_bind, Option.bind_some, hrest]
      rfl

/-- **The open-addressing table is a map**: from every capacity on and for every hash, a run of
operations on keys in use ends, and it answers as the finite map does. -/
theorem map_refines (hash : ℕ → ℕ) (vacant capacityHint : ℕ) (ops : List (MapOp V)) (hops : ∀ op ∈ ops, op.Avoids vacant) :
    ∃ t, (empty capacityHint : FlatHashMap hash V vacant).performs ops = some ((FiniteMap.performs ∅ ops).1, t) ∧
      t.Refines (FiniteMap.performs ∅ ops).2 :=
  Refines.performs (refines_ofLogCap _) hops

/-- Three keys with one hash, and the first of them removed. -/
theorem map_refines_sample : ∃ t, (empty 0 : FlatHashMap (fun _ => 15) ℕ 7).performs
    [.insertOrAssign 1 10, .insertOrAssign 0 20, .insertOrAssign 2 30, .eraseFound 1, .find 2, .forEach, .size] =
      some ((FiniteMap.performs ∅
        [.insertOrAssign 1 10, .insertOrAssign 0 20, .insertOrAssign 2 30, .eraseFound 1, .find 2, .forEach, .size]).1, t) ∧
      t.Refines (FiniteMap.performs ∅
        [.insertOrAssign 1 10, .insertOrAssign 0 20, .insertOrAssign 2 30, .eraseFound 1, .find 2, .forEach, .size]).2 :=
  map_refines _ 7 0 _ (by simp [MapOp.Avoids])

end FlatHashMap

end TickToTrade.Util
