import Commute.Crdt.Journal
import Commute.Gossip.Convergence

/-!
# `ORSet`: observed-remove sets

Every element has its own `DVVSet` of add and remove markers. The order lifts
element by element from the order on counters, for which `ORSet` is a lawful
delta value.
-/
namespace Commute.Crdt

open Gossip

/-- `state` maps each element to its markers, `true` for add and `false` for
remove. The zero value of the source has a `nil` map, which reads as empty. -/
structure ORSet (N E : Type) where
  nodeID : N
  state : FMap E (DVVSet N Bool)

namespace ORSet

variable {N E : Type} [DecidableEq E]

def new (nodeID : N) : ORSet N E := ⟨nodeID, ∅⟩

def isZero (s : ORSet N E) : Bool := s.state.entries.isEmpty

/-- The version vector of all writes of `value` observed here, empty if there is none. -/
def causalContext (value : E) (s : ORSet N E) : VV N :=
  match s.state.lookup value with
  | none => ∅
  | some ds => ds.join

def causalContexts (s : ORSet N E) : FMap E (VV N) := FMap.mapVals (fun _ ds => ds.join) s.state

def contains (value : E) (s : ORSet N E) : Bool :=
  match s.state.lookup value with
  | none => false
  | some ds => ds.values.any fun v => v

def values (s : ORSet N E) : List E := s.state.keys.filter fun value => s.contains value

/-- The markers of an element, none for an element that is not tracked. -/
def element (value : E) (s : ORSet N E) : DVVSet N Bool := (s.state.lookup value).getD .new

theorem element_of_some {s : ORSet N E} {value : E} {ds : DVVSet N Bool}
    (h : s.state.lookup value = some ds) : s.element value = ds := by
  simp [element, h]

theorem mem_values (value : E) (s : ORSet N E) : value ∈ s.values ↔ s.contains value = true := by
  unfold values
  rw [List.mem_filter, and_iff_right_iff_imp]
  intro h
  rw [← AList.mem_keys, ← AList.lookup_isSome]
  unfold contains at h
  cases hl : s.state.lookup value with
  | none => simp [hl] at h
  | some ds => rfl

theorem values_nodup (s : ORSet N E) : s.values.Nodup := (AList.keys_nodup s.state).filter _

def All (P : E → DVVSet N Bool → Prop) (s : ORSet N E) : Prop :=
  ∀ value ds, s.state.lookup value = some ds → P value ds

theorem All.new (P : E → DVVSet N Bool → Prop) (nodeID : N) : (ORSet.new nodeID).All P := by
  simp [All, ORSet.new]

theorem All.imp {P Q : E → DVVSet N Bool → Prop} {s : ORSet N E} (h : s.All P)
    (hPQ : ∀ value ds, P value ds → Q value ds) : s.All Q :=
  fun value ds hds => hPQ value ds (h value ds hds)

theorem All.element {P : E → DVVSet N Bool → Prop} {s : ORSet N E} (h : s.All P) {value : E}
    (hnew : P value .new) : P value (s.element value) := by
  unfold ORSet.element
  cases hl : s.state.lookup value with
  | none => exact hnew
  | some ds => exact h value ds hl

variable [DecidableEq N]

def mark [Inhabited N] (marker : Bool) (value : E) (vv : VV N) (s : ORSet N E) : ORSet N E :=
  ⟨default, AList.singleton value ((s.element value).update s.nodeID vv marker)⟩

def add [Inhabited N] (value : E) (vv : VV N) (s : ORSet N E) : ORSet N E := s.mark true value vv

/-- Removing an element that was never added yields the empty delta. -/
def remove [Inhabited N] (value : E) (vv : VV N) (s : ORSet N E) : ORSet N E :=
  match s.state.lookup value with
  | none => ⟨default, ∅⟩
  | some _ => s.mark false value vv

def merge (s other : ORSet N E) : ORSet N E :=
  ⟨s.nodeID, FMap.upsertAll (fun own ds =>
    match own with
    | none => ds
    | some mine => mine.sync ds) other.state s.state⟩

def isLessOrEqual (s other : ORSet N E) : Bool :=
  s.state.entries.all fun e =>
    match other.state.lookup e.1 with
    | none => false
    | some ds => e.2.isLessOrEqual ds

/-- Reading back the encoding, which does not contain the owner. -/
def decoded [Inhabited N] (s : ORSet N E) : ORSet N E := ⟨default, s.state⟩

/-- A delta interval clones sets, so it shares no storage with the log. -/
instance [Inhabited N] : DeltaValue (ORSet N E) where
  merge := merge
  isLessOrEqual := isLessOrEqual
  decoded := decoded
  shared s _ := s

theorem merge_lookup (s other : ORSet N E) (value : E) :
    (s.merge other).state.lookup value =
      match other.state.lookup value with
      | none => s.state.lookup value
      | some ds => some (match s.state.lookup value with
        | none => ds
        | some mine => mine.sync ds) := by
  unfold merge
  rw [FMap.lookup_upsertAll]
  cases other.state.lookup value <;> rfl

theorem mark_lookup [Inhabited N] (marker : Bool) (value other : E) (vv : VV N) (s : ORSet N E) :
    (s.mark marker value vv).state.lookup other =
      if other = value then some ((s.element value).update s.nodeID vv marker) else none := by
  simp [mark]

theorem element_mark [Inhabited N] (marker : Bool) (value : E) (vv : VV N) (s : ORSet N E) :
    (s.mark marker value vv).element value = (s.element value).update s.nodeID vv marker :=
  element_of_some ((mark_lookup marker value value vv s).trans (if_pos rfl))

theorem top_element_merge (s other : ORSet N E) (value : E) (i : N) :
    ((s.merge other).element value).top i =
      max ((s.element value).top i) ((other.element value).top i) := by
  unfold element
  rw [merge_lookup]
  cases other.state.lookup value <;> cases s.state.lookup value <;> simp

theorem element_below_merge {s other : ORSet N E} (hs : s.All fun _ => DVVSet.WellFormed)
    (hother : other.All fun _ => DVVSet.WellFormed) (value : E) :
    (s.element value).Below ((s.merge other).element value) ∧
      (other.element value).Below ((s.merge other).element value) := by
  have hnew : ∀ ds : DVVSet N Bool, DVVSet.new.Below ds := by
    intro ds i
    simp
  unfold element
  rw [merge_lookup]
  cases ho : other.state.lookup value with
  | none => exact ⟨.refl _, hnew _⟩
  | some b =>
    cases ha : s.state.lookup value with
    | none => exact ⟨hnew _, .refl _⟩
    | some a =>
      exact ⟨DVVSet.below_sync_left (hs value a ha) (hother value b ho),
        DVVSet.below_sync_right (hs value a ha) (hother value b ho)⟩

theorem causalContext_get (value : E) (s : ORSet N E) (i : N) :
    (s.causalContext value).get i = (s.element value).top i := by
  unfold causalContext element
  cases s.state.lookup value with
  | none => simp
  | some ds => exact DVVSet.join_get ds i

theorem contains_of_some {s : ORSet N E} {value : E} {ds : DVVSet N Bool}
    (h : s.state.lookup value = some ds) (hwf : ds.WellFormed) :
    s.contains value = true ↔ ∃ i n, ds.sibling i n = some true := by
  unfold contains
  rw [h, ← hwf.mem_values]
  simp

theorem All.merge {P : E → DVVSet N Bool → Prop}
    (hP : ∀ value a b, P value a → P value b → P value (a.sync b)) {s other : ORSet N E}
    (h : s.All P) (h' : other.All P) : (s.merge other).All P := by
  intro value ds hds
  rw [merge_lookup] at hds
  cases ho : other.state.lookup value with
  | none => exact h value ds (by simpa [ho] using hds)
  | some b =>
    cases hs : s.state.lookup value with
    | none =>
      obtain rfl : b = ds := by simpa [ho, hs] using hds
      exact h' value b ho
    | some a =>
      obtain rfl : a.sync b = ds := by simpa [ho, hs] using hds
      exact hP value a b (h value a hs) (h' value b ho)

theorem All.mark [Inhabited N] {P : E → DVVSet N Bool → Prop} {marker : Bool} {value : E}
    {vv : VV N} {s : ORSet N E} (h : P value ((s.element value).update s.nodeID vv marker)) :
    (s.mark marker value vv).All P := by
  intro value' ds hds
  rw [mark_lookup] at hds
  split_ifs at hds with hv
  exact hv ▸ Option.some.inj hds ▸ h

theorem isLessOrEqual_iff (s other : ORSet N E) : s.isLessOrEqual other = true ↔
    s.All fun value ds => ∃ ds', other.state.lookup value = some ds' ∧
      ds.isLessOrEqual ds' = true := by
  unfold isLessOrEqual All
  rw [FMap.all_entries_iff]
  refine forall₃_congr fun value ds _ => ?_
  cases h : other.state.lookup value <;> simp [h]

variable [Inhabited N]

theorem le_iff (s other : ORSet N E) : DeltaValue.Le s other ↔
    s.All fun value ds => ∃ ds', other.state.lookup value = some ds' ∧
      ∀ i, ds.top i ≤ ds'.top i := by
  refine (isLessOrEqual_iff s other).trans ?_
  simp only [DVVSet.isLessOrEqual_iff]

theorem top_element_le {s other : ORSet N E} (h : DeltaValue.Le s other) (value : E) (i : N) :
    (s.element value).top i ≤ (other.element value).top i := by
  rw [le_iff] at h
  unfold element
  cases hs : s.state.lookup value with
  | none => simp
  | some ds =>
    obtain ⟨ds', hds', hle⟩ := h value ds hs
    rw [hds']
    exact hle i

section Agreement

variable {H : E → Journal N Bool} {s other : ORSet N E}

theorem lookup_of_le (h : DeltaValue.Le s other) (h' : DeltaValue.Le other s) {value : E}
    {ds : DVVSet N Bool} (hds : s.state.lookup value = some ds) :
    ∃ ds', other.state.lookup value = some ds' ∧ ∀ i, ds.top i = ds'.top i := by
  rw [le_iff] at h h'
  obtain ⟨ds', hds', hle⟩ := h value ds hds
  obtain ⟨ds'', hds'', hle'⟩ := h' value ds' hds'
  obtain rfl : ds = ds'' := Option.some.inj (hds.symm.trans hds'')
  exact ⟨ds', hds', fun i => le_antisymm (hle i) (hle' i)⟩

theorem contains_of_le (hH : ∀ value, (H value).Chronicle)
    (hs : s.All fun value => (H value).Traced) (hother : other.All fun value => (H value).Traced)
    (h : DeltaValue.Le s other) (h' : DeltaValue.Le other s) {value : E}
    (hc : s.contains value = true) : other.contains value = true := by
  cases hds : s.state.lookup value with
  | none => simp [contains, hds] at hc
  | some ds =>
    obtain ⟨ds', hds', htop⟩ := lookup_of_le h h' hds
    have ht := hs value ds hds
    have ht' := hother value ds' hds'
    rw [contains_of_some hds ht.recorded.wellFormed] at hc
    rw [contains_of_some hds' ht'.recorded.wellFormed]
    obtain ⟨i, n, hsib⟩ := hc
    exact ⟨i, n, ht.sibling_congr (hH value) ht' htop hsib⟩

theorem causalContexts_of_le (hs : s.All fun _ => DVVSet.WellFormed)
    (hother : other.All fun _ => DVVSet.WellFormed) (h : DeltaValue.Le s other)
    (h' : DeltaValue.Le other s) (value : E) :
    (s.causalContexts.lookup value).map (fun vv i => vv.lookup i) =
      (other.causalContexts.lookup value).map fun vv i => vv.lookup i := by
  unfold causalContexts
  rw [FMap.lookup_mapVals, FMap.lookup_mapVals]
  cases hds : s.state.lookup value with
  | none =>
    cases hds' : other.state.lookup value with
    | none => rfl
    | some ds' =>
      obtain ⟨ds, hsome, -⟩ := lookup_of_le h' h hds'
      cases hds.symm.trans hsome
  | some ds =>
    obtain ⟨ds', hds', htop⟩ := lookup_of_le h h' hds
    rw [hds']
    exact congrArg some (funext fun i =>
      DVVSet.join_lookup_congr (hs value ds hds) (hother value ds' hds') (htop i))

/-- Merging a traced set that is dominated changes no counter and no sibling. -/
theorem merge_of_le (hs : s.All fun value => (H value).Traced)
    (hother : other.All fun value => (H value).Traced) (h : DeltaValue.Le other s) (value : E) :
    ((s.merge other).state.lookup value).map (fun ds i => ds.state.lookup i) =
      (s.state.lookup value).map fun ds i => ds.state.lookup i := by
  rw [merge_lookup]
  cases hds' : other.state.lookup value with
  | none => rfl
  | some ds' =>
    obtain ⟨ds, hds, hle⟩ := (le_iff other s).mp h value ds' hds'
    rw [hds]
    exact congrArg some (funext ((hs value ds hds).sync_lookup (hother value ds' hds') hle))

end Agreement

instance : LawfulDeltaValue (ORSet N E) where
  le_refl s := (le_iff s s).mpr fun value ds h => ⟨ds, h, fun _ => le_rfl⟩
  le_trans {a b c} hab hbc := by
    rw [le_iff] at hab hbc ⊢
    intro value ds h
    obtain ⟨ds', h', hle⟩ := hab value ds h
    obtain ⟨ds'', h'', hle'⟩ := hbc value ds' h'
    exact ⟨ds'', h'', fun i => (hle i).trans (hle' i)⟩
  le_merge_left a b := by
    refine (le_iff _ _).mpr fun value ds h => ?_
    change ∃ ds', (a.merge b).state.lookup value = some ds' ∧ _
    rw [merge_lookup, h]
    cases b.state.lookup value with
    | none => exact ⟨ds, rfl, fun _ => le_rfl⟩
    | some ds' => exact ⟨_, rfl, fun i => by rw [DVVSet.top_sync]; exact le_max_left _ _⟩
  le_merge_right a b := by
    refine (le_iff _ _).mpr fun value ds h => ?_
    change ∃ ds', (a.merge b).state.lookup value = some ds' ∧ _
    rw [merge_lookup, h]
    cases a.state.lookup value with
    | none => exact ⟨ds, rfl, fun _ => le_rfl⟩
    | some ds' => exact ⟨_, rfl, fun i => by rw [DVVSet.top_sync]; exact le_max_right _ _⟩
  merge_le {a b c} ha hb := by
    rw [le_iff] at ha hb ⊢
    refine All.merge ?_ ha hb
    rintro value x y ⟨ds, hds, hx⟩ ⟨ds', hds', hy⟩
    obtain rfl : ds = ds' := Option.some.inj (hds.symm.trans hds')
    exact ⟨ds, hds, fun i => (DVVSet.top_sync x y i).trans_le (max_le (hx i) (hy i))⟩
  le_decoded s := (le_iff _ _).mpr fun value ds h => ⟨ds, h, fun _ => le_rfl⟩
  decoded_le s := (le_iff _ _).mpr fun value ds h => ⟨ds, h, fun _ => le_rfl⟩
  le_shared _ := (le_iff _ _).mpr fun value ds h => ⟨ds, h, fun _ => le_rfl⟩
  shared_le hab := hab

end ORSet
end Commute.Crdt
