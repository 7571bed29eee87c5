import Commute.Gossip.Ledger

/-!
# The delta interval of a peer

The loop that builds the message for a peer visits the log cells from the
peer's acknowledgement on and keeps one accumulator per key. The accumulator of
a key starts as the first delta it meets and may share storage with that log
cell, so every later merge into the accumulator can show up in the log. The
loop state therefore carries the log next to the accumulators.

The main facts are `interval_merged_lookup`, the accumulator is the join of
the unmodified log cells, and `Coherent.interval`, the modified log still lies
between history and state.
-/
namespace Commute.Gossip

open DeltaValue

variable {A K V : Type} [DecidableEq K]

namespace Ledger

/-- The deltas for `k` in the log from `start` on, oldest first. -/
def loggedFrom (l : Ledger A K V) (start : ℕ) (k : K) : List V :=
  (List.range' start (l.seq - start)).filterMap fun n => l.logged n k

theorem mem_filterMap_range' {f : ℕ → Option V} {start stop : ℕ} {v : V} :
    v ∈ (List.range' start (stop - start)).filterMap f ↔
      ∃ n, start ≤ n ∧ n < stop ∧ f n = some v := by
  simp only [List.mem_filterMap, List.mem_range'_1]
  constructor
  · rintro ⟨n, hn, hv⟩
    exact ⟨n, hn.1, by omega, hv⟩
  · rintro ⟨n, hs, hn, hv⟩
    exact ⟨n, by omega, hv⟩

theorem mem_loggedFrom {l : Ledger A K V} {start : ℕ} {k : K} {v : V} :
    v ∈ l.loggedFrom start k ↔ ∃ n, start ≤ n ∧ n < l.seq ∧ l.logged n k = some v :=
  mem_filterMap_range'

end Ledger

variable [DeltaValue V]

def accumulate (acc : Option V) (v : V) : V :=
  match acc with
  | none => v
  | some x => merge x v

/-- The accumulator a list of deltas leads to, `none` if the list is empty. -/
def collect (vs : List V) : Option V := vs.foldl (fun acc v => some (accumulate acc v)) none

/-- Each accumulator remembers the log cell it started from. -/
structure Interval (K V : Type) where
  merged : FMap K (ℕ × V)
  deltas : FMap ℕ (FMap K V)

namespace Interval

def cell (st : Interval K V) (n : ℕ) (k : K) : Option V :=
  (st.deltas.lookup n).bind fun c => c.lookup k

/-- One delta `e` of the log cell `i`. A later merge into an accumulator goes
through to the cell the accumulator started from. -/
def absorb (i : ℕ) (st : Interval K V) (e : Σ _ : K, V) : Interval K V :=
  match st.merged.lookup e.1 with
  | none => { st with merged := st.merged.insert e.1 (i, e.2) }
  | some (first, x) =>
    { merged := st.merged.insert e.1 (first, merge x e.2)
      deltas := FMap.modify first (FMap.modify e.1 fun old => shared old (merge x e.2)) st.deltas }

def scan (st : Interval K V) (i : ℕ) : Interval K V :=
  ((st.deltas.lookup i).getD ∅).entries.foldl (absorb i) st

def payload (st : Interval K V) : FMap K V := FMap.mapVals (fun _ p => p.2) st.merged

def visit (i : ℕ) (old : Option (ℕ × V)) (v : V) : ℕ × V :=
  match old with
  | none => (i, v)
  | some (first, x) => (first, merge x v)

theorem visit_snd (i : ℕ) (old : Option (ℕ × V)) (v : V) :
    (visit i old v).2 = accumulate (old.map Prod.snd) v := by
  cases old <;> rfl

theorem absorb_merged (i : ℕ) (st : Interval K V) (e : Σ _ : K, V) :
    (st.absorb i e).merged = st.merged.insert e.1 (visit i (st.merged.lookup e.1) e.2) := by
  unfold absorb visit
  cases st.merged.lookup e.1 <;> rfl

theorem absorb_cell (i : ℕ) (st : Interval K V) (e : Σ _ : K, V) (n : ℕ) (k : K) :
    (st.absorb i e).cell n k =
      match st.merged.lookup e.1 with
      | none => st.cell n k
      | some (first, x) => (st.cell n k).map fun old =>
          if n = first ∧ k = e.1 then shared old (merge x e.2) else old := by
  unfold absorb cell
  cases st.merged.lookup e.1 with
  | none => rfl
  | some p =>
    obtain ⟨first, x⟩ := p
    dsimp only
    rw [FMap.lookup_modify]
    cases st.deltas.lookup n with
    | none => rfl
    | some c =>
      by_cases hn : n = first
      · simp [hn, FMap.lookup_modify]
      · simp [hn]

theorem absorb_deltas_of_ne {i : ℕ} {st : Interval K V} {e : Σ _ : K, V} {n : ℕ}
    (h : ∀ p, st.merged.lookup e.1 = some p → p.1 ≠ n) :
    (st.absorb i e).deltas.lookup n = st.deltas.lookup n := by
  unfold absorb
  cases hp : st.merged.lookup e.1 with
  | none => rfl
  | some p =>
    have hn : n ≠ p.1 := (h p hp).symm
    dsimp only
    rw [FMap.lookup_modify]
    simp [hn]

theorem absorb_keys (i : ℕ) (st : Interval K V) (e : Σ _ : K, V) :
    (st.absorb i e).deltas.keys = st.deltas.keys := by
  unfold absorb
  cases st.merged.lookup e.1 with
  | none => rfl
  | some p => exact FMap.keys_mapVals _ _

theorem foldl_absorb_merged (i : ℕ) (es : List (Σ _ : K, V)) (st : Interval K V) :
    (es.foldl (absorb i) st).merged =
      es.foldl (fun m e => m.insert e.1 (visit i (m.lookup e.1) e.2)) st.merged := by
  induction es generalizing st with
  | nil => rfl
  | cons e es ih => rw [List.foldl_cons, ih, absorb_merged, List.foldl_cons]

theorem foldl_absorb_keys (i : ℕ) (es : List (Σ _ : K, V)) (st : Interval K V) :
    (es.foldl (absorb i) st).deltas.keys = st.deltas.keys := by
  induction es generalizing st with
  | nil => rfl
  | cons e es ih => rw [List.foldl_cons, ih, absorb_keys]

theorem foldl_scan_keys (is : List ℕ) (st : Interval K V) :
    (is.foldl scan st).deltas.keys = st.deltas.keys := by
  induction is generalizing st with
  | nil => rfl
  | cons i is ih => rw [List.foldl_cons, ih, scan, foldl_absorb_keys]

/-- The deltas of a cell have different keys, so an accumulator that one of
them extends was there before the cell was entered. -/
theorem foldl_absorb_deltas_of_notMem {i n : ℕ} (es : List (Σ _ : K, V)) (hes : es.NodupKeys)
    (st : Interval K V)
    (h : ∀ e ∈ es, ∀ p, st.merged.lookup e.1 = some p → p.1 ≠ n) :
    (es.foldl (absorb i) st).deltas.lookup n = st.deltas.lookup n := by
  induction es generalizing st with
  | nil => rfl
  | cons e es ih =>
    obtain ⟨he, hes'⟩ := List.nodupKeys_cons.mp hes
    rw [List.foldl_cons, ih hes', absorb_deltas_of_ne (h e (by simp))]
    intro e' he' p hp
    have hne : e'.1 ≠ e.1 := fun heq => he (heq ▸ List.mem_keys_of_mem he')
    rw [absorb_merged, AList.lookup_insert_ne hne] at hp
    exact h e' (by simp [he']) p hp

/-- Scanned so far are the cells `js`: accumulators started there, and every
other cell is as it was. -/
structure Visited (deltas : FMap ℕ (FMap K V)) (js : List ℕ) (st : Interval K V) : Prop where
  first_mem : ∀ k p, st.merged.lookup k = some p → p.1 ∈ js
  untouched : ∀ n, n ∉ js → st.deltas.lookup n = deltas.lookup n

theorem Visited.scan {deltas : FMap ℕ (FMap K V)} {js : List ℕ} {st : Interval K V}
    (h : Visited deltas js st) {i : ℕ} (hi : i ∉ js) :
    Visited deltas (js ++ [i]) (st.scan i) ∧
      ∀ k, (st.scan i).merged.lookup k =
        match (deltas.lookup i).bind (fun c => c.lookup k) with
        | none => st.merged.lookup k
        | some v => some (visit i (st.merged.lookup k) v) := by
  have hcell : st.deltas.lookup i = deltas.lookup i := h.untouched i hi
  have hmerged : ∀ k, (st.scan i).merged.lookup k =
      match (deltas.lookup i).bind (fun c => c.lookup k) with
      | none => st.merged.lookup k
      | some v => some (visit i (st.merged.lookup k) v) := by
    intro k
    unfold Interval.scan
    rw [foldl_absorb_merged,
      FMap.lookup_foldl_insert (fun _ => visit i) _ (AList.nodupKeys _), hcell]
    cases deltas.lookup i <;> rfl
  refine ⟨⟨?_, ?_⟩, hmerged⟩
  · intro k p hp
    rw [hmerged] at hp
    split at hp
    · exact List.mem_append_left _ (h.first_mem k p hp)
    · obtain rfl := Option.some.inj hp
      cases hold : st.merged.lookup k with
      | none => simp [visit]
      | some q => exact List.mem_append_left _ (h.first_mem k q hold)
  · intro n hn
    have hn' : n ∉ js := fun hmem => hn (List.mem_append_left _ hmem)
    unfold Interval.scan
    rw [foldl_absorb_deltas_of_notMem _ (AList.nodupKeys _)]
    · exact h.untouched n hn'
    · intro e _ p hp heq
      exact hn' (heq ▸ h.first_mem e.1 p hp)

/-- Running over cells not visited yet joins, key by key, the deltas they hold. -/
theorem Visited.foldl_scan {deltas : FMap ℕ (FMap K V)} (is : List ℕ) (his : is.Nodup)
    {js : List ℕ} {st : Interval K V} (h : Visited deltas js st) (hd : ∀ i ∈ is, i ∉ js) (k : K) :
    ((is.foldl Interval.scan st).merged.lookup k).map Prod.snd =
      (is.filterMap fun i => (deltas.lookup i).bind fun c => c.lookup k).foldl
        (fun acc v => some (accumulate acc v)) ((st.merged.lookup k).map Prod.snd) := by
  induction is generalizing js st with
  | nil => rfl
  | cons i is ih =>
    obtain ⟨hi, his'⟩ := List.nodup_cons.mp his
    obtain ⟨hv, hmerged⟩ := h.scan (hd i (by simp))
    have hd' : ∀ j ∈ is, j ∉ js ++ [i] := by
      intro j hj hmem
      rcases List.mem_append.mp hmem with hmem | hmem
      · exact hd j (by simp [hj]) hmem
      · exact hi (List.mem_singleton.mp hmem ▸ hj)
    rw [List.foldl_cons, ih his' hv hd', hmerged]
    cases hc : (deltas.lookup i).bind (fun c => c.lookup k) with
    | none => simp [hc]
    | some v => simp [hc, visit_snd]

theorem foldl_absorb_induction {I : Interval K V → Prop} {i : ℕ}
    (hstep : ∀ st e, I st → st.cell i e.1 = some e.2 →
      (∀ p, st.merged.lookup e.1 = some p → p.1 < i) → I (st.absorb i e))
    (es : List (Σ _ : K, V)) (hes : es.NodupKeys) {st : Interval K V} (h : I st)
    (he : ∀ e ∈ es, st.cell i e.1 = some e.2)
    (hi : ∀ e ∈ es, ∀ p, st.merged.lookup e.1 = some p → p.1 < i) :
    I (es.foldl (absorb i) st) := by
  induction es generalizing st with
  | nil => exact h
  | cons e es ih =>
    obtain ⟨hk, hes'⟩ := List.nodupKeys_cons.mp hes
    have hfirst := hi e (by simp)
    refine ih hes' (hstep st e h (he e (by simp)) hfirst) ?_ ?_
    · intro e' he'
      unfold cell
      rw [absorb_deltas_of_ne fun p hp => Nat.ne_of_lt (hfirst p hp)]
      exact he e' (by simp [he'])
    · intro e' he' p hp
      have hne : e'.1 ≠ e.1 := fun heq => hk (heq ▸ List.mem_keys_of_mem he')
      rw [absorb_merged, AList.lookup_insert_ne hne] at hp
      exact hi e' (by simp [he']) p hp

/-- The same for a loop over cells in ascending order: the accumulator that a delta extends
started at an earlier cell. -/
theorem Visited.foldl_scan_induction {I : Interval K V → Prop}
    (hstep : ∀ i st e, I st → st.cell i e.1 = some e.2 →
      (∀ p, st.merged.lookup e.1 = some p → p.1 < i) → I (st.absorb i e))
    {deltas : FMap ℕ (FMap K V)} (is : List ℕ) (his : is.Pairwise (· < ·)) {js : List ℕ}
    {st : Interval K V} (hv : Visited deltas js st) (hd : ∀ i ∈ is, ∀ j ∈ js, j < i) (h : I st) :
    I (is.foldl Interval.scan st) := by
  induction is generalizing js st with
  | nil => exact h
  | cons i is ih =>
    obtain ⟨hi, his'⟩ := List.pairwise_cons.mp his
    have hij : ∀ j ∈ js, j < i := hd i (by simp)
    refine ih his' (hv.scan fun hmem => Nat.lt_irrefl i (hij i hmem)).1 ?_ ?_
    · intro i' hi' j hj
      rcases List.mem_append.mp hj with hj | hj
      · exact hd i' (by simp [hi']) j hj
      · exact List.mem_singleton.mp hj ▸ hi i' hi'
    · refine foldl_absorb_induction (hstep i) _ (AList.nodupKeys _) h ?_ ?_
      · intro e he
        unfold cell
        cases hc : st.deltas.lookup i with
        | none => simp [hc] at he
        | some c =>
          rw [hc] at he
          exact FMap.mem_entries_iff.mp he
      · exact fun e _ p hp => hij p.1 (hv.first_mem e.1 p hp)

end Interval

/-- A property of the values of a key that the algorithm cannot leave. -/
structure Closed (P : K → V → Prop) : Prop where
  merge : ∀ {k a b}, P k a → P k b → P k (merge a b)
  decoded : ∀ {k a}, P k a → P k (decoded a)
  shared : ∀ {k a b}, Le a b → P k a → P k b → P k (shared a b)

namespace Interval

/-- Every cell grew from the cell of `log`, stays below the accumulator that
shares its storage, and has the property `P`, as accumulators have. -/
structure Inflated (P : K → V → Prop) (log : ℕ → K → Option V) (st : Interval K V) : Prop where
  below : ∀ k p, st.merged.lookup k = some p → ∃ v, st.cell p.1 k = some v ∧ Le v p.2
  grows : ∀ n k v, log n k = some v → ∃ v', st.cell n k = some v' ∧ Le v v'
  merged_all : ∀ k p, st.merged.lookup k = some p → P k p.2
  cells_all : ∀ n k v, st.cell n k = some v → P k v

variable [LawfulDeltaValue V]

theorem Inflated.absorb_first {P : K → V → Prop} {log : ℕ → K → Option V}
    {st : Interval K V} (h : Inflated P log st) {i : ℕ} {k : K} {v : V}
    (he : st.cell i k = some v) (hold : st.merged.lookup k = none) :
    Inflated P log (st.absorb i ⟨k, v⟩) := by
  have hv : P k v := h.cells_all i k v he
  have hcell : ∀ n k', (st.absorb i ⟨k, v⟩).cell n k' = st.cell n k' := by
    intro n k'
    rw [absorb_cell, hold]
  have hmerged : ∀ k' p, (st.absorb i ⟨k, v⟩).merged.lookup k' = some p →
      (k' = k ∧ p = (i, v)) ∨ st.merged.lookup k' = some p := by
    intro k' p hp
    rw [absorb_merged, FMap.lookup_insert_eq] at hp
    split_ifs at hp with hk
    · exact Or.inl ⟨hk, by simpa [hold, visit] using hp.symm⟩
    · exact Or.inr hp
  refine ⟨?_, ?_, ?_, ?_⟩
  · intro k' p hp
    rw [hcell]
    rcases hmerged k' p hp with ⟨rfl, rfl⟩ | hp
    · exact ⟨v, he, LawfulDeltaValue.le_refl v⟩
    · exact h.below k' p hp
  · simpa only [hcell] using h.grows
  · intro k' p hp
    rcases hmerged k' p hp with ⟨rfl, rfl⟩ | hp
    · exact hv
    · exact h.merged_all k' p hp
  · simpa only [hcell] using h.cells_all

/-- A later delta of a key changes the accumulator and the cell that shares its storage. -/
theorem Inflated.absorb_again {P : K → V → Prop} (hP : Closed P) {log : ℕ → K → Option V}
    {st : Interval K V} (h : Inflated P log st) {i : ℕ} {k : K} {v : V}
    (he : st.cell i k = some v) {first : ℕ} {x : V}
    (hold : st.merged.lookup k = some (first, x)) : Inflated P log (st.absorb i ⟨k, v⟩) := by
  have hv : P k v := h.cells_all i k v he
  obtain ⟨u, hu, hux⟩ := h.below k (first, x) hold
  have hx : P k (merge x v) := hP.merge (h.merged_all k _ hold) hv
  have hux' : Le u (merge x v) :=
    LawfulDeltaValue.le_trans hux (LawfulDeltaValue.le_merge_left x v)
  have hcell : ∀ n k', (st.absorb i ⟨k, v⟩).cell n k' = (st.cell n k').map fun old =>
      if n = first ∧ k' = k then shared old (merge x v) else old := by
    intro n k'
    rw [absorb_cell, hold]
  have hmerged : ∀ k' p, (st.absorb i ⟨k, v⟩).merged.lookup k' = some p →
      (k' = k ∧ p = (first, merge x v)) ∨ (k' ≠ k ∧ st.merged.lookup k' = some p) := by
    intro k' p hp
    rw [absorb_merged, FMap.lookup_insert_eq] at hp
    split_ifs at hp with hk
    · exact Or.inl ⟨hk, by simpa [hold, visit] using hp.symm⟩
    · exact Or.inr ⟨hk, hp⟩
  refine ⟨?_, ?_, ?_, ?_⟩
  · intro k' p hp
    rw [hcell]
    rcases hmerged k' p hp with ⟨rfl, rfl⟩ | ⟨hk, hp⟩
    · exact ⟨shared u (merge x v), by simp [hu], LawfulDeltaValue.shared_le hux'⟩
    · obtain ⟨w, hw, hle⟩ := h.below k' p hp
      exact ⟨w, by simp [hw, hk], hle⟩
  · intro n k' w hw
    obtain ⟨w', hw', hle⟩ := h.grows n k' w hw
    rw [hcell, hw']
    by_cases hn : n = first ∧ k' = k
    · obtain ⟨rfl, rfl⟩ := hn
      obtain rfl : u = w' := Option.some.inj (hu.symm.trans hw')
      exact ⟨_, by simp, LawfulDeltaValue.le_trans hle (LawfulDeltaValue.le_shared hux')⟩
    · exact ⟨w', by simp [hn], hle⟩
  · intro k' p hp
    rcases hmerged k' p hp with ⟨rfl, rfl⟩ | ⟨-, hp⟩
    · exact hx
    · exact h.merged_all k' p hp
  · intro n k' w hw
    rw [hcell] at hw
    obtain ⟨w', hw', rfl⟩ := Option.map_eq_some_iff.mp hw
    by_cases hn : n = first ∧ k' = k
    · obtain ⟨rfl, rfl⟩ := hn
      obtain rfl : u = w' := Option.some.inj (hu.symm.trans hw')
      simpa using hP.shared hux' (h.cells_all _ _ u hu) hx
    · simpa [hn] using h.cells_all n k' w' hw'

theorem Inflated.absorb {P : K → V → Prop} (hP : Closed P) {log : ℕ → K → Option V}
    {st : Interval K V} (h : Inflated P log st) {i : ℕ} {e : Σ _ : K, V}
    (he : st.cell i e.1 = some e.2) : Inflated P log (st.absorb i e) := by
  cases hold : st.merged.lookup e.1 with
  | none => exact h.absorb_first he hold
  | some q => exact h.absorb_again hP he hold

end Interval

section Collect

theorem foldl_accumulate_some (vs : List V) (x : V) :
    vs.foldl (fun acc v => some (accumulate acc v)) (some x) = some (vs.foldl merge x) := by
  induction vs generalizing x with
  | nil => rfl
  | cons v vs ih => exact ih (merge x v)

theorem collect_cons (v : V) (vs : List V) : collect (v :: vs) = some (vs.foldl merge v) :=
  foldl_accumulate_some vs v

theorem collect_eq_none {vs : List V} : collect vs = none ↔ vs = [] := by
  cases vs with
  | nil => simp [collect]
  | cons v vs => simp [collect_cons]

theorem foldl_merge_property {p : V → Prop} (hp : ∀ {a b}, p a → p b → p (merge a b))
    (vs : List V) {x : V} (hx : p x) (hvs : ∀ v ∈ vs, p v) : p (vs.foldl merge x) := by
  induction vs generalizing x with
  | nil => exact hx
  | cons v vs ih => exact ih (hp hx (hvs v (by simp))) fun w hw => hvs w (by simp [hw])

theorem collect_property {p : V → Prop} (hp : ∀ {a b}, p a → p b → p (merge a b))
    {vs : List V} {x : V} (h : collect vs = some x) (hvs : ∀ v ∈ vs, p v) : p x := by
  cases vs with
  | nil => simp [collect] at h
  | cons v vs =>
    rw [collect_cons] at h
    obtain rfl := Option.some.inj h
    exact foldl_merge_property hp vs (hvs v (by simp)) fun w hw => hvs w (by simp [hw])

variable [LawfulDeltaValue V]

theorem le_foldl_merge_init (vs : List V) {u x : V} (h : Le u x) : Le u (vs.foldl merge x) := by
  induction vs generalizing x with
  | nil => exact h
  | cons v vs ih => exact ih (LawfulDeltaValue.le_trans h (LawfulDeltaValue.le_merge_left x v))

theorem le_foldl_merge {vs : List V} {u : V} (hu : u ∈ vs) (x : V) : Le u (vs.foldl merge x) := by
  induction vs generalizing x with
  | nil => simp at hu
  | cons v vs ih =>
    rcases List.mem_cons.mp hu with rfl | hu
    · exact le_foldl_merge_init vs (LawfulDeltaValue.le_merge_right x u)
    · exact ih hu _

theorem le_collect {vs : List V} {u : V} (hu : u ∈ vs) : ∃ x, collect vs = some x ∧ Le u x := by
  cases vs with
  | nil => simp at hu
  | cons v vs =>
    refine ⟨vs.foldl merge v, collect_cons v vs, ?_⟩
    rcases List.mem_cons.mp hu with rfl | hu
    · exact le_foldl_merge_init vs (LawfulDeltaValue.le_refl u)
    · exact le_foldl_merge hu v

theorem le_of_collect {vs : List V} {u x : V} (hx : collect vs = some x) (hu : u ∈ vs) :
    Le u x := by
  obtain ⟨x', hx', hle⟩ := le_collect hu
  exact Option.some.inj (hx'.symm.trans hx) ▸ hle

end Collect

namespace Ledger

def interval (l : Ledger A K V) (start : ℕ) : Interval K V :=
  (List.range' start (l.seq - start)).foldl Interval.scan ⟨∅, l.deltas⟩

/-- The message part for a peer: sequence number and payload as the peer
decodes it, or nothing when the peer is up to date. -/
def delta [DecidableEq A] (peer : A) (l : Ledger A K V) : Option (ℕ × FMap K V) × Ledger A K V :=
  let acked := l.acked peer
  if acked = 0 then
    (some (l.seq, FMap.mapVals (fun _ => decoded) l.state), l)
  else if acked < l.seq then
    let r := l.interval acked
    (some (l.seq, FMap.mapVals (fun _ => decoded) r.payload), { l with deltas := r.deltas })
  else (none, l)

theorem interval_merged_lookup (l : Ledger A K V) (start : ℕ) (k : K) :
    (l.interval start).payload.lookup k = collect (l.loggedFrom start k) := by
  unfold Interval.payload interval collect loggedFrom logged
  have h : Interval.Visited l.deltas [] (⟨∅, l.deltas⟩ : Interval K V) :=
    ⟨by simp, fun _ _ => rfl⟩
  rw [FMap.lookup_mapVals,
    h.foldl_scan (List.range' start (l.seq - start)) List.nodup_range' (by simp) k]
  simp

/-- What holds before the loop and what visiting a delta keeps holds after the loop. -/
theorem interval_induction {I : Interval K V → Prop} (l : Ledger A K V) (start : ℕ)
    (hstep : ∀ i st e, I st → st.cell i e.1 = some e.2 →
      (∀ p, st.merged.lookup e.1 = some p → p.1 < i) → I (st.absorb i e))
    (h : I ⟨∅, l.deltas⟩) : I (l.interval start) := by
  have hvisited : Interval.Visited l.deltas [] (⟨∅, l.deltas⟩ : Interval K V) :=
    ⟨by simp, fun _ _ => rfl⟩
  exact hvisited.foldl_scan_induction hstep _ List.pairwise_lt_range' (by simp) h

theorem interval_mem_deltas (l : Ledger A K V) (start n : ℕ) :
    n ∈ (l.interval start).deltas ↔ n ∈ l.deltas := by
  rw [AList.mem_keys, AList.mem_keys, interval, Interval.foldl_scan_keys]

variable [LawfulDeltaValue V]

theorem interval_inflated {P : K → V → Prop} (hP : Closed P) {l : Ledger A K V}
    (h : ∀ n k v, l.logged n k = some v → P k v) (start : ℕ) :
    (l.interval start).Inflated P l.logged := by
  refine interval_induction l start (fun i st e hst he _ => hst.absorb hP he)
    ⟨by simp, ?_, by simp, h⟩
  intro n k v hv
  exact ⟨v, hv, LawfulDeltaValue.le_refl v⟩

end Ledger
end Commute.Gossip
