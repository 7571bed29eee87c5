import Commute.Foundation.Checked
import Commute.Gossip.Delta

/-!
# Ledgers of values whose operations may panic

The operations of a ledger once more, for values whose merge, comparison and
copy may fail. A payload holds pointers, of which some may be nil. `Safe` says
how the operations on values with a property may fail; every operation of the
ledger then fails in no other way and keeps the property of all its values.
-/
namespace Commute.Gossip

/-- What a value whose operations may fail brings to the algorithm. `clone` is the
copy the accumulator of a delta interval starts from, and `nilPointer` the error
of reading through a nil pointer. -/
class CheckedValue (ε : outParam Type) (V : Type) where
  nilPointer : ε
  merge : V → V → Except ε V
  isLessOrEqual : V → V → Except ε Bool
  clone : V → Except ε V
  shared : V → V → V

open CheckedValue

variable {ε A K V : Type} [CheckedValue ε V]

def deref : Option V → Except ε V
  | some v => .ok v
  | none => .error (nilPointer V)

namespace Ledger

variable [DecidableEq K]

/-- Merge a delta into the value of its key and record it. -/
def joinM (fresh : V) (k : K) (d : V) (l : Ledger A K V) : Except ε (Ledger A K V) :=
  (merge (l.valueOr fresh k) d).map fun v =>
    record k d { l with state := l.state.insert k v }

def writeM (fresh : V) (k : K) (delta : V → Except ε V) (l : Ledger A K V) :
    Except ε (Ledger A K V) := do
  let d ← delta (l.valueOr fresh k)
  l.joinM fresh k d

/-- A known key skips an incoming value that its own value already dominates. -/
def mergeKeyM (fresh : V) (l : Ledger A K V) (k : K) (incoming : Option V) :
    Except ε (Ledger A K V) :=
  match l.state.lookup k with
  | some known => do
    let v ← deref incoming
    let dominated ← isLessOrEqual v known
    if dominated then .ok l else l.joinM fresh k v
  | none => do
    let v ← deref incoming
    l.joinM fresh k v

def mergeAllM (fresh : V) (payload : FMap K (Option V)) (l : Ledger A K V) :
    Except ε (Ledger A K V) :=
  payload.entries.foldlM (fun l e => l.mergeKeyM fresh e.1 e.2) l

end Ledger

namespace Interval

variable [DecidableEq K]

/-- One delta `e` of the log cell `i`, as in `absorb`. -/
def absorbM (i : ℕ) (st : Interval K V) (e : Σ _ : K, V) : Except ε (Interval K V) :=
  match st.merged.lookup e.1 with
  | none => (clone e.2).map fun v => { st with merged := st.merged.insert e.1 (i, v) }
  | some (first, x) => (merge x e.2).map fun y =>
    { merged := st.merged.insert e.1 (first, y)
      deltas := FMap.modify first (FMap.modify e.1 fun old => shared old y) st.deltas }

def scanM (st : Interval K V) (i : ℕ) : Except ε (Interval K V) :=
  ((st.deltas.lookup i).getD ∅).entries.foldlM (absorbM i) st

end Interval

namespace Ledger

variable [DecidableEq K]

def intervalM (l : Ledger A K V) (start : ℕ) : Except ε (Interval K V) :=
  (List.range' start (l.seq - start)).foldlM Interval.scanM ⟨∅, l.deltas⟩

/-- The map to be encoded for a peer under its sequence number, if there is news, and the
ledger with the log that building the map may have modified. -/
def deltaM [DecidableEq A] (peer : A) (l : Ledger A K V) :
    Except ε (Option (ℕ × FMap K V) × Ledger A K V) :=
  if l.acked peer = 0 then .ok (some (l.seq, l.state), l)
  else if l.acked peer < l.seq then
    (l.intervalM (l.acked peer)).map fun r =>
      (some (l.seq, r.payload), { l with deltas := r.deltas })
  else .ok (none, l)

end Ledger

/-- Operations on values with the property `P` keep it, or fail with an error in `E`. -/
structure Safe (E : ε → Prop) (P : K → V → Prop) : Prop where
  merge : ∀ {k : K} {a b : V}, P k a → P k b → Outcome E (P k) (merge a b)
  isLessOrEqual : ∀ {k : K} {a b : V}, P k a → P k b →
    Outcome E (fun _ => True) (isLessOrEqual a b)
  clone : ∀ {k : K} {a : V}, P k a → Outcome E (P k) (clone a)
  shared : ∀ {k : K} {a b : V}, P k a → P k b → P k (shared a b)

theorem Safe.keyed {E : ε → Prop} {P : K → V → Prop} (hP : Safe E P) (I : K → Prop) :
    Safe E fun k v => I k ∧ P k v where
  merge := fun h h' => (hP.merge h.2 h'.2).imp fun _ hv => ⟨h.1, hv⟩
  isLessOrEqual := fun h h' => hP.isLessOrEqual h.2 h'.2
  clone := fun h => (hP.clone h.2).imp fun _ hv => ⟨h.1, hv⟩
  shared := fun h h' => ⟨h.1, hP.shared h.2 h'.2⟩

variable [DecidableEq K] {E : ε → Prop} {P : K → V → Prop}

namespace Ledger

variable {fresh : V} {l : Ledger A K V}

theorem All.joinM (hP : Safe E P) (h : l.All P) {k : K} {d : V} (hfresh : P k fresh)
    (hd : P k d) : Outcome E (fun l' => l'.All P) (l.joinM fresh k d) :=
  (hP.merge (h.valueOr hfresh) hd).map fun _ hv => h.recorded hd hv

theorem All.writeM (hP : Safe E P) (h : l.All P) {k : K} {delta : V → Except ε V}
    (hfresh : P k fresh) (hdelta : Outcome E (P k) (delta (l.valueOr fresh k))) :
    Outcome E (fun l' => l'.All P) (l.writeM fresh k delta) :=
  hdelta.bind fun _ hd => h.joinM hP hfresh hd

theorem All.mergeKeyM (hP : Safe E P) (h : l.All P) {k : K} {v : V} (hfresh : P k fresh)
    (hv : P k v) : Outcome E (fun l' => l'.All P) (l.mergeKeyM fresh k (some v)) := by
  unfold Ledger.mergeKeyM
  cases hk : l.state.lookup k with
  | none => exact h.joinM hP hfresh hv
  | some known =>
    refine (hP.isLessOrEqual hv (h.state k known hk)).bind fun dominated _ => ?_
    split_ifs
    · exact h
    · exact h.joinM hP hfresh hv

theorem All.mergeAllM (hP : Safe E P) (h : l.All P) (hfresh : ∀ k v, P k v → P k fresh)
    {payload : FMap K (Option V)}
    (hpayload : ∀ k p, payload.lookup k = some p → ∃ v, p = some v ∧ P k v) :
    Outcome E (fun l' => l'.All P) (l.mergeAllM fresh payload) := by
  refine Outcome.foldlM (fun l e he h => ?_) h
  obtain ⟨v, hp, hv⟩ := hpayload e.1 e.2 (FMap.mem_entries_iff.mp he)
  rw [hp]
  exact h.mergeKeyM hP (hfresh e.1 v hv) hv

section Returned

variable {Q : V → Prop} (hmerge : ∀ {a b c : V}, CheckedValue.merge a b = .ok c → Q b)
  (hle : ∀ {a b : V}, CheckedValue.isLessOrEqual a b = .ok true → Q a)

include hmerge

theorem of_joinM {l' : Ledger A K V} {k : K} {v : V} (h : l.joinM fresh k v = .ok l') : Q v := by
  obtain ⟨c, hc, -⟩ := Fault.map_eq_ok.mp h
  exact hmerge hc

include hle

theorem of_mergeKeyM {l' : Ledger A K V} {k : K} {p : Option V}
    (h : l.mergeKeyM fresh k p = .ok l') : ∃ v, p = some v ∧ Q v := by
  unfold Ledger.mergeKeyM at h
  cases p with
  | none => cases hk : l.state.lookup k <;> (rw [hk] at h; cases h)
  | some v =>
    refine ⟨v, rfl, ?_⟩
    cases hk : l.state.lookup k with
    | none => rw [hk] at h; exact of_joinM hmerge h
    | some known =>
      rw [hk] at h
      obtain ⟨_, ⟨⟩, hread⟩ := Fault.bind_eq_ok.mp h
      obtain ⟨dominated, hd, hjoin⟩ := Fault.bind_eq_ok.mp hread
      cases dominated with
      | false => exact of_joinM hmerge hjoin
      | true => exact hle hd

/-- A merge that returns has read through every pointer of the payload, and merged or compared
every value. -/
theorem of_mergeAllM {payload : FMap K (Option V)} {l' : Ledger A K V}
    (h : l.mergeAllM fresh payload = .ok l') {k : K} {p : Option V}
    (hp : payload.lookup k = some p) : ∃ v, p = some v ∧ Q v := by
  obtain ⟨c, c', hc⟩ := Outcome.visited_of_foldlM h ⟨k, p⟩ (FMap.mem_entries_iff.mpr hp)
  exact of_mergeKeyM hmerge hle hc

end Returned

end Ledger

namespace Interval

/-- Every accumulator and every delta of the log has the property. -/
structure All (P : K → V → Prop) (st : Interval K V) : Prop where
  merged : ∀ k p, st.merged.lookup k = some p → P k p.2
  cell : ∀ n k v, st.cell n k = some v → P k v

theorem All.insert {st : Interval K V} (h : st.All P) {k : K} {p : ℕ × V} (hp : P k p.2) :
    (⟨st.merged.insert k p, st.deltas⟩ : Interval K V).All P :=
  ⟨FMap.forall_insert h.merged hp, h.cell⟩

/-- What a merge into an accumulator leaves in the log cell it shares storage with. -/
theorem All.modify {st : Interval K V} (h : st.All P) {n : ℕ} {k : K} {f : V → V}
    (hf : ∀ v, P k v → P k (f v)) :
    (⟨st.merged, FMap.modify n (FMap.modify k f) st.deltas⟩ : Interval K V).All P := by
  refine ⟨h.merged, ?_⟩
  intro m k' v hv
  rw [Interval.cell, FMap.lookup_modify] at hv
  obtain ⟨c, hc, hv⟩ := Option.bind_eq_some_iff.mp hv
  obtain ⟨c₀, hc₀, rfl⟩ := Option.map_eq_some_iff.mp hc
  split_ifs at hv
  · rw [FMap.lookup_modify] at hv
    obtain ⟨v₀, hv₀, rfl⟩ := Option.map_eq_some_iff.mp hv
    have hold := h.cell m k' v₀ (by simp [Interval.cell, hc₀, hv₀])
    split_ifs with hk
    · subst hk
      exact hf v₀ hold
    · exact hold
  · exact h.cell m k' v (by simp [Interval.cell, hc₀, hv])

theorem All.absorbM (hP : Safe E P) {st : Interval K V} (h : st.All P) (i : ℕ)
    {e : Σ _ : K, V} (he : P e.1 e.2) : Outcome E (fun st' => st'.All P) (st.absorbM i e) := by
  unfold Interval.absorbM
  cases hp : st.merged.lookup e.1 with
  | none => exact (hP.clone he).map fun v hv => h.insert hv
  | some p =>
    exact (hP.merge (h.merged e.1 p hp) he).map fun y hy =>
      (h.modify fun v hv => hP.shared hv hy).insert hy

theorem All.scanM (hP : Safe E P) {st : Interval K V} (h : st.All P) (i : ℕ) :
    Outcome E (fun st' => st'.All P) (st.scanM i) := by
  refine Outcome.foldlM (fun st' e he h' => h'.absorbM hP i ?_) h
  cases hc : st.deltas.lookup i with
  | none => simp [hc] at he
  | some c =>
    rw [hc, Option.getD_some] at he
    apply h.cell i e.1
    rw [Interval.cell, hc, Option.bind_some]
    exact FMap.mem_entries_iff.mp he

end Interval

/-- The map to be encoded holds only values with the property, and so does the ledger
after it was built. -/
theorem Ledger.All.deltaM [DecidableEq A] (hP : Safe E P) {l : Ledger A K V} (h : l.All P)
    (peer : A) : Outcome E (fun r => r.2.All P ∧ ∀ n payload, r.1 = some (n, payload) →
      ∀ k v, payload.lookup k = some v → P k v) (l.deltaM peer) := by
  unfold Ledger.deltaM
  split_ifs
  · refine ⟨h, ?_⟩
    rintro n payload ⟨⟩
    exact h.state
  · have hstart : (⟨∅, l.deltas⟩ : Interval K V).All P := ⟨by simp, h.logged⟩
    refine (Outcome.foldlM (fun st i _ hst => hst.scanM hP i) hstart).map fun r hr => ⟨?_, ?_⟩
    · exact ⟨h.state, hr.cell, h.history⟩
    · rintro n payload ⟨⟩ k v hv
      rw [Interval.payload, FMap.lookup_mapVals] at hv
      obtain ⟨p, hp, rfl⟩ := Option.map_eq_some_iff.mp hv
      exact hr.merged k p hp
  · exact ⟨h, by simp⟩

end Commute.Gossip
