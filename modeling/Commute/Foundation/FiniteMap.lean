import Commute.Foundation.Checked
import Mathlib.Data.List.AList
import Mathlib.Algebra.BigOperators.Group.List.Basic

/-!
# Finite maps with the loops a `for k, v := range m` program runs over them

A map is Mathlib's association list with pairwise different keys. The order of
its entries is the order one particular iteration visits them in, so a theorem
that only speaks about `lookup` holds for every iteration order.
-/
namespace Commute

/-- A finite map from `K` to `V`. -/
abbrev FMap (K V : Type) := AList fun _ : K => V

namespace FMap

variable {K V W : Type}

/-- Rewrite every value in place, as a loop assigning `m[k]` for each `k` it visits does. -/
def mapVals (f : K → V → W) (m : FMap K V) : FMap K W :=
  ⟨m.entries.map fun e => ⟨e.1, f e.1 e.2⟩, List.NodupKeys.map₂ (fun k v => f k v) _ m.nodupKeys⟩

@[simp] theorem keys_mapVals (f : K → V → W) (m : FMap K V) : (m.mapVals f).keys = m.keys := by
  simp [mapVals, AList.keys, List.keys, Function.comp_def]

variable [DecidableEq K]

@[simp] theorem lookup_mapVals (f : K → V → W) (m : FMap K V) (k : K) :
    (m.mapVals f).lookup k = (m.lookup k).map (f k) :=
  List.dlookup_map₂ k

/-- In-place change of the value stored under one key; nothing happens if the key is absent. -/
def modify (k : K) (f : V → V) (m : FMap K V) : FMap K V :=
  m.mapVals fun k' v => if k' = k then f v else v

theorem lookup_modify (k k' : K) (f : V → V) (m : FMap K V) :
    (m.modify k f).lookup k' = (m.lookup k').map fun v => if k' = k then f v else v := by
  simp [modify]

/-- The loop `for k, w := range src { dst[k] = f(dst[k], w) }`. -/
def upsertAll (f : Option V → W → V) (src : FMap K W) (dst : FMap K V) : FMap K V :=
  src.entries.foldl (fun m e => m.insert e.1 (f (m.lookup e.1) e.2)) dst

theorem lookup_insert_eq (m : FMap K V) (k k' : K) (v : V) :
    (m.insert k v).lookup k' = if k' = k then some v else m.lookup k' := by
  by_cases h : k' = k
  · subst h; simp
  · simp [AList.lookup_insert_ne h, h]

/-- A loop over entries with different keys that only writes the key it visits
leaves, under each key, what the single visit to that key computes. -/
theorem lookup_foldl_insert (f : K → Option V → W → V) (es : List (Σ _ : K, W))
    (hes : es.NodupKeys) (dst : FMap K V) (k : K) :
    (es.foldl (fun m e => m.insert e.1 (f e.1 (m.lookup e.1) e.2)) dst).lookup k =
      match es.dlookup k with
      | none => dst.lookup k
      | some w => some (f k (dst.lookup k) w) := by
  induction es generalizing dst with
  | nil => simp
  | cons e es ih =>
    obtain ⟨k', w⟩ := e
    obtain ⟨hk', hes'⟩ := List.nodupKeys_cons.mp hes
    rw [List.foldl_cons, ih hes']
    by_cases h : k = k'
    · subst h
      simp [List.dlookup_eq_none.mpr hk']
    · simp [List.dlookup_cons_ne es ⟨k', w⟩ h, AList.lookup_insert_ne h]

theorem lookup_upsertAll (f : Option V → W → V) (src : FMap K W) (dst : FMap K V) (k : K) :
    (src.upsertAll f dst).lookup k =
      match src.lookup k with
      | none => dst.lookup k
      | some w => some (f (dst.lookup k) w) :=
  lookup_foldl_insert (fun _ => f) src.entries src.nodupKeys dst k

/-- The loop `for k, w := range src { dst[k] = f(k, dst[k], w) }`, which stops at the first
visit that fails. -/
def upsertAllM {ε : Type} (f : K → Option V → W → Except ε V) (src : FMap K W)
    (dst : FMap K V) : Except ε (FMap K V) :=
  src.entries.foldlM (fun m e => (f e.1 (m.lookup e.1) e.2).map (m.insert e.1)) dst

/-- A loop over entries with different keys none of whose visits fails leaves, under each
key, what the visit to that key computes. -/
theorem foldlM_insert_eq_ok {ε : Type} {f : K → Option V → W → Except ε V} {g : K → W → V}
    (es : List (Σ _ : K, W)) (hes : es.NodupKeys) (dst : FMap K V)
    (h : ∀ k w, es.dlookup k = some w → f k (dst.lookup k) w = .ok (g k w)) :
    ∃ m : FMap K V,
      es.foldlM (fun m e => (f e.1 (m.lookup e.1) e.2).map (m.insert e.1)) dst = .ok m ∧
      ∀ k, m.lookup k = match es.dlookup k with
        | none => dst.lookup k
        | some w => some (g k w) := by
  induction es generalizing dst with
  | nil => exact ⟨dst, rfl, fun k => rfl⟩
  | cons e es ih =>
    obtain ⟨k', w'⟩ := e
    obtain ⟨hk', hes'⟩ := List.nodupKeys_cons.mp hes
    have hvisit : f k' (dst.lookup k') w' = .ok (g k' w') := by
      apply h
      simp
    -- the rest of the loop does not visit the first key again
    have hrest : ∀ k w, es.dlookup k = some w →
        f k ((dst.insert k' (g k' w')).lookup k) w = .ok (g k w) := by
      intro k w hk
      have hne : k ≠ k' := by
        rintro rfl
        rw [List.dlookup_eq_none.mpr hk'] at hk
        cases hk
      rw [AList.lookup_insert_ne hne]
      apply h
      rwa [List.dlookup_cons_ne es ⟨k', w'⟩ hne]
    obtain ⟨m, hm, hlookup⟩ := ih hes' _ hrest
    refine ⟨m, ?_, ?_⟩
    · rw [List.foldlM_cons, hvisit]
      exact hm
    · intro k
      rw [hlookup k]
      by_cases hk : k = k'
      · subst hk
        simp [List.dlookup_eq_none.mpr hk']
      · simp [List.dlookup_cons_ne es ⟨k', w'⟩ hk, AList.lookup_insert_ne hk]

theorem upsertAllM_eq_ok {ε : Type} {f : K → Option V → W → Except ε V} (src : FMap K W)
    (dst : FMap K V) (g : K → W → V)
    (h : ∀ k w, src.lookup k = some w → f k (dst.lookup k) w = .ok (g k w)) :
    ∃ m, src.upsertAllM f dst = .ok m ∧ ∀ k, m.lookup k =
      match src.lookup k with
      | none => dst.lookup k
      | some w => some (g k w) :=
  foldlM_insert_eq_ok src.entries src.nodupKeys dst h

theorem mem_entries_iff {m : FMap K V} {k : K} {v : V} :
    ⟨k, v⟩ ∈ m.entries ↔ m.lookup k = some v :=
  AList.mem_lookup_iff.symm

theorem all_entries_iff {m : FMap K V} {p : (Σ _ : K, V) → Bool} :
    m.entries.all p = true ↔ ∀ k v, m.lookup k = some v → p ⟨k, v⟩ = true := by
  simp only [List.all_eq_true, Sigma.forall, mem_entries_iff]

theorem mem_iff_exists_lookup {m : FMap K V} {k : K} : k ∈ m ↔ ∃ v, m.lookup k = some v := by
  rw [← AList.lookup_isSome, Option.isSome_iff_exists]

theorem forall_insert {P : K → V → Prop} {m : FMap K V}
    (hm : ∀ k v, m.lookup k = some v → P k v) {k : K} {v : V} (hv : P k v) :
    ∀ k' u, (m.insert k v).lookup k' = some u → P k' u := by
  intro k' u hu
  rw [lookup_insert_eq] at hu
  split_ifs at hu with hk
  · exact hk ▸ Option.some.inj hu ▸ hv
  · exact hm k' u hu

/-- What every visit gives the value it writes, all values have after the loop. -/
theorem upsertAllM_outcome {ε : Type} {E : ε → Prop} {P : K → V → Prop}
    {f : K → Option V → W → Except ε V} {src : FMap K W} {dst : FMap K V}
    (hvisit : ∀ k own w, src.lookup k = some w → (∀ v, own = some v → P k v) →
      Outcome E (P k) (f k own w))
    (hdst : ∀ k v, dst.lookup k = some v → P k v) :
    Outcome E (fun m : FMap K V => ∀ k v, m.lookup k = some v → P k v) (src.upsertAllM f dst) := by
  refine Outcome.foldlM (fun m e he hm => ?_) hdst
  exact (hvisit e.1 _ e.2 (mem_entries_iff.mp he) (hm e.1)).map fun v hv => forall_insert hm hv

@[simp] theorem lookup_singleton (k k' : K) (v : V) :
    (AList.singleton k v : FMap K V).lookup k' = if k' = k then some v else none := by
  rw [← AList.insert_empty, lookup_insert_eq]
  simp

end FMap
end Commute
