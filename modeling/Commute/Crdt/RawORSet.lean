import Commute.Crdt.ORSet64

/-!
# `ORSet` with its pointers and maps

The set as it lies in memory: its elements are pointers and its maps may be nil,
as far as the types go. Reading through a nil pointer, writing to a nil map and
slicing out of bounds panic. A set is `Solid` if none of its pointers and maps is
nil; operations on solid sets panic only where the merges and writes of markers do.
-/
namespace Commute.Crdt

open Gossip

inductive Trap where
  | nilPointer
  | nilMap
  | sliceBounds
deriving DecidableEq

namespace Trap

variable {α K V : Type}

def deref : Option α → Except Trap α
  | some a => .ok a
  | none => .error .nilPointer

/-- The map that an assignment to one of its keys changes. -/
def writable : Option (FMap K V) → Except Trap (FMap K V)
  | some m => .ok m
  | none => .error .nilMap

/-- A computation whose only panics are slice bounds. -/
def sliced (x : Except Fault α) : Except Trap α := x.mapError fun _ => .sliceBounds

theorem sliced_outcome {x : Except Fault α} {P : α → Prop} (h : ∀ a, x = .ok a → P a) :
    Outcome (· = .sliceBounds) P (sliced x) := by
  cases x with
  | error e => rfl
  | ok a => exact h a rfl

theorem sliced_returns {x : Except Fault α} {P : α → Prop} (h : Outcome (fun _ => False) P x) :
    Outcome (fun _ => False) P (sliced x) := by
  obtain ⟨a, rfl, ha⟩ := h.exists_ok
  exact ha

end Trap

structure RawDVVSet (N : Type) where
  state : Option (FMap N (DVVEntry64 Bool))

namespace RawDVVSet

variable {N : Type}

def new : RawDVVSet N := ⟨some ∅⟩

def entries (ds : RawDVVSet N) : FMap N (DVVEntry64 Bool) := ds.state.getD ∅

def clone (ds : Option (RawDVVSet N)) : Except Trap (RawDVVSet N) :=
  (Trap.deref ds).map fun ds => ⟨some ds.entries⟩

def values (ds : Option (RawDVVSet N)) : Except Trap (List Bool) :=
  (Trap.deref ds).map fun ds => (⟨ds.entries⟩ : DVVSet64 N Bool).values

def join (ds : Option (RawDVVSet N)) : Except Trap (VV64 N) :=
  (Trap.deref ds).map fun ds => (⟨ds.entries⟩ : DVVSet64 N Bool).join

variable [DecidableEq N]

/-- `event` assigns the writer's entry in any case. -/
def update (nodeID : N) (vv : VV64 N) (value : Bool) (ds : RawDVVSet N) :
    Except Trap (RawDVVSet N) := do
  let state ← Trap.writable ds.state
  (Trap.sliced ((⟨state⟩ : DVVSet64 N Bool).update nodeID vv value)).map fun u => ⟨some u.state⟩

/-- `Sync` assigns an entry for every id of the other side. -/
def sync (ds other : RawDVVSet N) : Except Trap (RawDVVSet N) :=
  if other.entries.entries.isEmpty then .ok ds
  else do
    let state ← Trap.writable ds.state
    (Trap.sliced ((⟨state⟩ : DVVSet64 N Bool).sync ⟨other.entries⟩)).map fun u => ⟨some u.state⟩

def isLessOrEqual (ds other : RawDVVSet N) : Bool :=
  (⟨ds.entries⟩ : DVVSet64 N Bool).isLessOrEqual ⟨other.entries⟩

end RawDVVSet

structure RawORSet (N E : Type) where
  nodeID : N
  state : Option (FMap E (Option (RawDVVSet N)))

namespace RawORSet

variable {N E : Type}

def new (nodeID : N) : RawORSet N E := ⟨nodeID, some ∅⟩

def elements (s : RawORSet N E) : FMap E (Option (RawDVVSet N)) := s.state.getD ∅

def isZero (s : RawORSet N E) : Bool := s.elements.entries.isEmpty

variable [DecidableEq E]

def causalContexts (s : RawORSet N E) : Except Trap (FMap E (VV64 N)) :=
  FMap.upsertAllM (fun _ _ ds => RawDVVSet.join ds) s.elements ∅

def contains (value : E) (s : RawORSet N E) : Except Trap Bool :=
  match s.elements.lookup value with
  | none => .ok false
  | some ds => (RawDVVSet.values ds).map fun vs => vs.any fun v => v

def values (s : RawORSet N E) : Except Trap (List E) :=
  s.elements.keys.foldlM (fun vs value => (s.contains value).map fun found =>
    if found then vs ++ [value] else vs) []

def clone (s : RawORSet N E) : Except Trap (RawORSet N E) :=
  (FMap.upsertAllM (fun _ _ ds => (RawDVVSet.clone ds).map some) s.elements ∅).map fun state =>
    ⟨s.nodeID, some state⟩

def NoNil (s : RawORSet N E) : Prop := ∀ e p, s.elements.lookup e = some p → p ≠ none

theorem noNil_of_forall {s : RawORSet N E} (h : ∀ e ∈ s.elements.entries, e.2 ≠ none) : s.NoNil :=
  fun e p hp => h ⟨e, p⟩ (FMap.mem_entries_iff.mpr hp)

/-- No map and no pointer of the set is nil, and each element has the property `Q`. -/
def Solid (Q : E → FMap N (DVVEntry64 Bool) → Prop) (s : RawORSet N E) : Prop :=
  ∃ m, s.state = some m ∧ ∀ e p, m.lookup e = some p → ∃ d, p = some ⟨some d⟩ ∧ Q e d

/-- The elements that are not nil have the property `Q`. -/
def Markers (Q : E → FMap N (DVVEntry64 Bool) → Prop) (s : RawORSet N E) : Prop :=
  ∀ e d, s.elements.lookup e = some (some ⟨some d⟩) → Q e d

section Elements

variable {F : Trap → Prop} {Q : E → FMap N (DVVEntry64 Bool) → Prop}

theorem Solid.new (nodeID : N) : (RawORSet.new nodeID : RawORSet N E).Solid Q := ⟨∅, rfl, by simp⟩

theorem Solid.lookup {s : RawORSet N E} (h : s.Solid Q) {e : E} {p : Option (RawDVVSet N)}
    (hp : s.elements.lookup e = some p) : ∃ d, p = some ⟨some d⟩ ∧ Q e d := by
  obtain ⟨m, hm, hall⟩ := h
  rw [elements, hm] at hp
  exact hall e p hp

theorem Solid.imp {Q' : E → FMap N (DVVEntry64 Bool) → Prop} {s : RawORSet N E} (h : s.Solid Q)
    (hQ : ∀ e d, Q e d → Q' e d) : s.Solid Q' := by
  obtain ⟨m, hm, hall⟩ := h
  exact ⟨m, hm, fun e p hp => (hall e p hp).imp fun d hd => ⟨hd.1, hQ e d hd.2⟩⟩

theorem Solid.clone {s : RawORSet N E} (h : s.Solid Q) :
    Outcome F (fun r => r.nodeID = s.nodeID ∧ r.Solid Q) s.clone := by
  refine Outcome.map (FMap.upsertAllM_outcome
    (P := fun e p => ∃ d, p = some ⟨some d⟩ ∧ Q e d) ?_ (by simp)) fun m hm => ⟨rfl, m, rfl, hm⟩
  intro e _ p hp _
  obtain ⟨d, rfl, hd⟩ := h.lookup hp
  exact ⟨d, rfl, hd⟩

end Elements

variable [DecidableEq N]

def mark [Inhabited N] (marker : Bool) (value : E) (vv : VV64 N) (s : RawORSet N E) :
    Except Trap (RawORSet N E) := do
  let ds ← match s.elements.lookup value with
    | some ds => RawDVVSet.clone ds
    | none => .ok RawDVVSet.new
  let u ← ds.update s.nodeID vv marker
  .ok ⟨default, some (AList.singleton value (some u))⟩

def add [Inhabited N] (value : E) (vv : VV64 N) (s : RawORSet N E) : Except Trap (RawORSet N E) :=
  s.mark true value vv

/-- Removing an element that was never added yields the empty delta. -/
def remove [Inhabited N] (value : E) (vv : VV64 N) (s : RawORSet N E) :
    Except Trap (RawORSet N E) :=
  match s.elements.lookup value with
  | none => .ok ⟨default, none⟩
  | some _ => s.mark false value vv

/-- What the loop of `Merge` does for an element of the other side. -/
def mergeVisit (state : Option (FMap E (Option (RawDVVSet N))))
    (e : Σ _ : E, Option (RawDVVSet N)) : Except Trap (Option (FMap E (Option (RawDVVSet N)))) :=
  match (state.getD ∅).lookup e.1 with
  | none => do
    let ds ← RawDVVSet.clone e.2
    let m ← Trap.writable state
    .ok (some (m.insert e.1 (some ds)))
  | some own => do
    let mine ← Trap.deref own
    let theirs ← Trap.deref e.2
    let ds ← mine.sync theirs
    .ok (some ((state.getD ∅).insert e.1 (some ds)))

def merge (s other : RawORSet N E) : Except Trap (RawORSet N E) :=
  (other.elements.entries.foldlM mergeVisit s.state).map fun state => ⟨s.nodeID, state⟩

/-- The loop of `IsLessOrEqual`, which returns at the first element that is not covered. -/
def covers (other : RawORSet N E) : List (Σ _ : E, Option (RawDVVSet N)) → Except Trap Bool
  | [] => .ok true
  | e :: es =>
    match other.elements.lookup e.1 with
    | none => .ok false
    | some ds => do
      let ds ← Trap.deref ds
      let v ← Trap.deref e.2
      if v.isLessOrEqual ds then covers other es else .ok false

def isLessOrEqual (s other : RawORSet N E) : Except Trap Bool := covers other s.elements.entries

instance : CheckedValue Trap (RawORSet N E) where
  nilPointer := .nilPointer
  merge := merge
  isLessOrEqual := isLessOrEqual
  clone := clone
  shared s _ := s

section NoNil

theorem mergeVisit_ne_none {state state' : Option (FMap E (Option (RawDVVSet N)))}
    {e : Σ _ : E, Option (RawDVVSet N)} (h : mergeVisit state e = .ok state') : e.2 ≠ none := by
  intro he
  unfold mergeVisit at h
  rw [he] at h
  cases hl : (state.getD ∅).lookup e.1 with
  | none => rw [hl] at h; cases h
  | some own => rw [hl] at h; cases own <;> cases h

/-- A merge that returns has read through every pointer of the other side. -/
theorem noNil_of_merge {s other s' : RawORSet N E} (h : s.merge other = .ok s') :
    other.NoNil := by
  obtain ⟨state, hstate, -⟩ := Fault.map_eq_ok.mp h
  refine noNil_of_forall fun e he => ?_
  obtain ⟨c, c', hc⟩ := Outcome.visited_of_foldlM hstate e he
  exact mergeVisit_ne_none hc

/-- A comparison that finds every element covered has read through every pointer. -/
theorem noNil_of_isLessOrEqual {s other : RawORSet N E} (h : s.isLessOrEqual other = .ok true) :
    s.NoNil := by
  have hloop : ∀ es : List (Σ _ : E, Option (RawDVVSet N)), covers other es = .ok true →
      ∀ e ∈ es, e.2 ≠ none := by
    intro es
    induction es with
    | nil => simp
    | cons e es ih =>
      intro h
      unfold covers at h
      cases hl : other.elements.lookup e.1 with
      | none => rw [hl] at h; cases h
      | some ds =>
        rw [hl] at h
        cases ds with
        | none => cases h
        | some ds =>
          cases he : e.2 with
          | none => rw [he] at h; cases h
          | some v =>
            rw [he] at h
            rintro e' (_ | ⟨_, he'⟩)
            · simp [he]
            · refine ih ?_ e' he'
              change (if v.isLessOrEqual ds then covers other es else .ok false) = .ok true at h
              split_ifs at h with hle
              · exact h
              · cases h
  exact noNil_of_forall (hloop _ h)

end NoNil

/-- Merges of markers keep `Q'`, and a write with a context in `C` turns `Q` into `Q'`, where
`P` holds of the writers; or they fail with an error in `F`. -/
structure Stable (F : Trap → Prop) (P : N → Prop) (C : VV64 N → Prop)
    (Q Q' : E → FMap N (DVVEntry64 Bool) → Prop) : Prop where
  imp : ∀ {e d}, Q e d → Q' e d
  sync : ∀ {e d d'}, Q' e d → Q' e d' →
    Outcome F (fun r => Q' e r.state) (Trap.sliced ((⟨d⟩ : DVVSet64 N Bool).sync ⟨d'⟩))
  update : ∀ {e d nodeID vv}, Q e d → P nodeID → C vv → ∀ value, Outcome F (fun r => Q' e r.state)
    (Trap.sliced ((⟨d⟩ : DVVSet64 N Bool).update nodeID vv value))

section Solid

variable {F : Trap → Prop} {P : N → Prop} {C : VV64 N → Prop}
  {Q₀ Q : E → FMap N (DVVEntry64 Bool) → Prop} {s other : RawORSet N E}

theorem Solid.mergeVisit (hQ : Stable F P C Q₀ Q) {m : FMap E (Option (RawDVVSet N))}
    (hm : ∀ e p, m.lookup e = some p → ∃ d, p = some ⟨some d⟩ ∧ Q e d)
    {e : Σ _ : E, Option (RawDVVSet N)} {d : FMap N (DVVEntry64 Bool)}
    (he : e.2 = some ⟨some d⟩) (hd : Q e.1 d) :
    Outcome F (fun state : Option (FMap E (Option (RawDVVSet N))) =>
      ∃ m', state = some m' ∧ ∀ e p, m'.lookup e = some p → ∃ d, p = some ⟨some d⟩ ∧ Q e d)
      (mergeVisit (some m) e) := by
  have hinsert : ∀ d', Q e.1 d' → ∃ m', some (m.insert e.1 (some ⟨some d'⟩)) = some m' ∧
      ∀ e p, m'.lookup e = some p → ∃ d, p = some ⟨some d⟩ ∧ Q e d := by
    intro d' hd'
    exact ⟨_, rfl, FMap.forall_insert hm ⟨d', rfl, hd'⟩⟩
  unfold RawORSet.mergeVisit
  rw [he, Option.getD_some]
  cases hl : m.lookup e.1 with
  | none => exact hinsert d hd
  | some own =>
    obtain ⟨mine, rfl, hmine⟩ := hm e.1 own hl
    change Outcome _ _ ((⟨some mine⟩ : RawDVVSet N).sync ⟨some d⟩ >>= _)
    unfold RawDVVSet.sync
    split_ifs
    · exact hinsert mine hmine
    · refine Outcome.bind (P := fun ds => ∃ r, ds = ⟨some r⟩ ∧ Q e.1 r) ?_ ?_
      · exact (hQ.sync hmine hd).map fun r hr => ⟨r.state, rfl, hr⟩
      · rintro ds ⟨r, rfl, hr⟩
        exact hinsert r hr

theorem Solid.merge (hQ : Stable F P C Q₀ Q) (h : s.Solid Q) (h' : other.Solid Q) :
    Outcome F (fun r => r.nodeID = s.nodeID ∧ r.Solid Q) (s.merge other) := by
  obtain ⟨m, hm, hall⟩ := h
  refine Outcome.map (P := fun state : Option (FMap E (Option (RawDVVSet N))) =>
    ∃ m', state = some m' ∧ ∀ e p, m'.lookup e = some p → ∃ d, p = some ⟨some d⟩ ∧ Q e d)
    ?_ fun state hstate => ⟨rfl, hstate⟩
  refine Outcome.foldlM ?_ ⟨m, hm, hall⟩
  rintro _ e he ⟨m', rfl, hm'⟩
  obtain ⟨d, hd, hQd⟩ := h'.lookup (FMap.mem_entries_iff.mp he)
  exact Solid.mergeVisit hQ hm' hd hQd

theorem Solid.isLessOrEqual (h : s.Solid Q) (h' : other.Solid Q) :
    ∃ r, s.isLessOrEqual other = .ok r := by
  have hloop : ∀ es : List (Σ _ : E, Option (RawDVVSet N)),
      (∀ e ∈ es, ∃ d, e.2 = some ⟨some d⟩) → ∃ r, covers other es = .ok r := by
    intro es
    induction es with
    | nil => exact fun _ => ⟨true, rfl⟩
    | cons e es ih =>
      intro hes
      obtain ⟨d, hd⟩ := hes e List.mem_cons_self
      unfold covers
      cases hl : other.elements.lookup e.1 with
      | none => exact ⟨false, rfl⟩
      | some p =>
        obtain ⟨d', rfl, -⟩ := h'.lookup hl
        rw [hd]
        change ∃ r, (if RawDVVSet.isLessOrEqual ⟨some d⟩ ⟨some d'⟩ then covers other es
          else .ok false) = .ok r
        split_ifs
        · exact ih fun e' he' => hes e' (List.mem_cons_of_mem _ he')
        · exact ⟨false, rfl⟩
  refine hloop _ fun e he => ?_
  obtain ⟨d, hd, -⟩ := h.lookup (FMap.mem_entries_iff.mp he)
  exact ⟨d, hd⟩

theorem Solid.mark [Inhabited N] (hQ : Stable F P C Q₀ Q) (h : s.Solid Q₀) (hnode : P s.nodeID)
    (marker : Bool) {value : E} (hvalue : Q₀ value ∅) {vv : VV64 N} (hvv : C vv) :
    Outcome F (fun r => r.nodeID = default ∧ r.Solid Q)
      (s.mark marker value vv) := by
  have hupdate : ∀ d, Q₀ value d → Outcome F
      (fun r : RawORSet N E => r.nodeID = default ∧ r.Solid Q)
      ((⟨some d⟩ : RawDVVSet N).update s.nodeID vv marker >>= fun u =>
        .ok ⟨default, some (AList.singleton value (some u))⟩) := by
    intro d hd
    refine Outcome.bind (P := fun ds => ∃ r, ds = ⟨some r⟩ ∧ Q value r) ?_ ?_
    · exact (hQ.update hd hnode hvv marker).map fun r hr => ⟨r.state, rfl, hr⟩
    · rintro ds ⟨r, rfl, hr⟩
      refine ⟨rfl, _, rfl, ?_⟩
      intro e p hp
      rw [FMap.lookup_singleton] at hp
      split_ifs at hp with he
      exact ⟨r, (Option.some.inj hp).symm, he ▸ hr⟩
  unfold RawORSet.mark
  cases hl : s.elements.lookup value with
  | none => exact hupdate ∅ hvalue
  | some p =>
    obtain ⟨d, rfl, hd⟩ := h.lookup hl
    exact hupdate d hd

theorem safe_solid {K : Type} (hQ : Stable F P C Q₀ Q) : Safe F
    fun (_ : K) (s : RawORSet N E) => P s.nodeID ∧ s.Solid Q where
  merge := fun h h' => (h.2.merge hQ h'.2).imp fun _ hr => ⟨hr.1 ▸ h.1, hr.2⟩
  isLessOrEqual := by
    rintro _ a b ⟨-, ha⟩ ⟨-, hb⟩
    obtain ⟨r, hr⟩ := ha.isLessOrEqual hb
    rw [show CheckedValue.isLessOrEqual a b = .ok r from hr]
    trivial
  clone := fun h => h.2.clone.imp fun _ hr => ⟨hr.1 ▸ h.1, hr.2⟩
  shared := fun h _ => h

end Solid

section Bounded

omit [DecidableEq E]

variable {P : N → Prop} {b m c : ℕ}

/-- Counters are below `b`, and no node has more than `m` markers. -/
def Bounded (b m : ℕ) (_ : E) (d : FMap N (DVVEntry64 Bool)) : Prop :=
  (⟨d⟩ : DVVSet64 N Bool).Below b m

end Bounded

end RawORSet
end Commute.Crdt
