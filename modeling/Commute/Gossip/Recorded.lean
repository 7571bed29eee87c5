import Commute.Gossip.Delta

/-!
# A log that is edited in place

Building a message part merges later deltas into the log cell of the first one. A
cell then holds more than was recorded under its number, but only what was recorded
from that number on, and every message part that contains the cell contains all of
that. So a message part is, up to the order that is tested, the join of the deltas as
they were recorded.
-/
namespace Commute.Gossip

open DeltaValue

variable {A K V : Type} [DecidableEq K]

namespace Ledger

/-- The deltas recorded for `k` from `start` on, oldest first. -/
def recordedFrom (l : Ledger A K V) (start : ℕ) (k : K) : List V :=
  (List.range' start (l.seq - start)).filterMap fun n => l.history n k

theorem mem_recordedFrom {l : Ledger A K V} {start : ℕ} {k : K} {v : V} :
    v ∈ l.recordedFrom start k ↔ ∃ n, start ≤ n ∧ n < l.seq ∧ l.history n k = some v :=
  mem_filterMap_range'

variable [DeltaValue V]

/-- What bounds everything recorded for `k` from `n` on bounds `v`. -/
def Backed (l : Ledger A K V) (n : ℕ) (k : K) (v : V) : Prop :=
  ∀ u, (∀ m d, n ≤ m → l.history m k = some d → Le d u) → Le v u

theorem Backed.mono {l : Ledger A K V} {m n : ℕ} {k : K} {v : V} (h : l.Backed m k v)
    (hnm : n ≤ m) : l.Backed n k v :=
  fun u hu => h u fun i d hi hd => hu i d (Nat.le_trans hnm hi) hd

/-- Log and history have the same cells, and every log cell is backed by the deltas recorded
from its number on. -/
structure LogBacked (l : Ledger A K V) : Prop where
  isSome_eq : ∀ n k, (l.logged n k).isSome = (l.history n k).isSome
  backed : ∀ n k v, l.logged n k = some v → l.Backed n k v

theorem LogBacked.new : (Ledger.new : Ledger A K V).LogBacked :=
  ⟨fun _ _ => rfl, by simp [Ledger.new, logged]⟩

theorem LogBacked.join {fresh : V} {l : Ledger A K V} (h : l.LogBacked)
    (hc : l.Coherent fresh) (k : K) (d : V) : (l.join fresh k d).LogBacked := by
  refine ⟨?_, ?_⟩
  · intro n k'
    rw [join_logged, join_history]
    split_ifs
    · rfl
    · rfl
    · exact h.isSome_eq n k'
  · intro n k' v hv u hu
    rw [join_logged] at hv
    split_ifs at hv with hn hk
    · subst hn hk
      obtain rfl := Option.some.inj hv
      exact hu l.seq d (Nat.le_refl _) (by rw [join_history, if_pos rfl, if_pos rfl])
    · refine h.backed n k' v hv u fun m e hm he => hu m e hm ?_
      rw [join_history, if_neg (Nat.ne_of_lt (hc.history_lt he).2), he]

end Ledger

namespace Interval

variable [DeltaValue V]

/-- Cells and the accumulators that start there share a property that depends on where
they are. -/
structure Anchored (P : ℕ → K → V → Prop) (st : Interval K V) : Prop where
  merged : ∀ k p, st.merged.lookup k = some p → P p.1 k p.2
  cells : ∀ n k v, st.cell n k = some v → P n k v

variable [LawfulDeltaValue V] {P : ℕ → K → V → Prop} {log : ℕ → K → Option V}
  {st : Interval K V} {i : ℕ}

theorem Anchored.absorb (hP : ∀ n, Closed (P n))
    (hmono : ∀ {m n k v}, n ≤ m → P m k v → P n k v) (h : st.Anchored P)
    (hbelow : st.Inflated (fun _ _ => True) log) {e : Σ _ : K, V}
    (he : st.cell i e.1 = some e.2)
    (hfirst : ∀ p, st.merged.lookup e.1 = some p → p.1 ≤ i) : (st.absorb i e).Anchored P := by
  obtain ⟨k, v⟩ := e
  have hv : P i k v := h.cells i k v he
  -- the accumulator of `k` after the visit
  have hvisit : P (visit i (st.merged.lookup k) v).1 k (visit i (st.merged.lookup k) v).2 := by
    cases hold : st.merged.lookup k with
    | none => exact hv
    | some p => exact (hP p.1).merge (h.merged k p hold) (hmono (hfirst p hold) hv)
  refine ⟨?_, ?_⟩
  · intro k' p hp
    rw [absorb_merged, FMap.lookup_insert_eq] at hp
    split_ifs at hp with hk
    · subst hk
      exact Option.some.inj hp ▸ hvisit
    · exact h.merged k' p hp
  · intro n k' w hw
    rw [absorb_cell] at hw
    cases hold : st.merged.lookup k with
    | none =>
      rw [hold] at hw
      exact h.cells n k' w hw
    | some p =>
      obtain ⟨first, x⟩ := p
      rw [hold] at hw hvisit
      obtain ⟨old, hcell, rfl⟩ := Option.map_eq_some_iff.mp hw
      split_ifs with hn
      · obtain ⟨rfl, rfl⟩ := hn
        obtain ⟨u, hu, hux⟩ := hbelow.below _ _ hold
        obtain rfl : u = old := Option.some.inj (hu.symm.trans hcell)
        refine (hP n).shared ?_ (h.cells n k' u hcell) hvisit
        exact LawfulDeltaValue.le_trans hux (LawfulDeltaValue.le_merge_left x v)
      · exact h.cells n k' old hcell

end Interval

namespace Ledger

variable [DeltaValue V] [LawfulDeltaValue V]

theorem closed_backed (l : Ledger A K V) (n : ℕ) : Closed (l.Backed n) where
  merge ha hb := fun u hu => LawfulDeltaValue.merge_le (ha u hu) (hb u hu)
  decoded ha := fun u hu => LawfulDeltaValue.le_trans (LawfulDeltaValue.decoded_le _) (ha u hu)
  shared hle _ hb := fun u hu =>
    LawfulDeltaValue.le_trans (LawfulDeltaValue.shared_le hle) (hb u hu)

/-- Building a message part moves only what was recorded later into a cell. -/
theorem LogBacked.interval {l : Ledger A K V} (h : l.LogBacked) (start : ℕ) :
    LogBacked { l with deltas := (l.interval start).deltas } := by
  have hanchored : (l.interval start).Inflated (fun _ _ => True) l.logged ∧
      (l.interval start).Anchored l.Backed := by
    refine interval_induction (I := fun st => st.Inflated (fun _ _ => True) l.logged ∧
      st.Anchored l.Backed) l start ?_ ⟨?_, ⟨by simp, h.backed⟩⟩
    · intro i st e hst he hfirst
      refine ⟨hst.1.absorb ⟨fun _ _ => trivial, fun _ => trivial, fun _ _ _ => trivial⟩ he, ?_⟩
      refine hst.2.absorb l.closed_backed (fun hnm hb => hb.mono hnm) hst.1 he ?_
      exact fun p hp => Nat.le_of_lt (hfirst p hp)
    · refine ⟨by simp, ?_, by simp, fun _ _ _ _ => trivial⟩
      exact fun n k v hv => ⟨v, hv, LawfulDeltaValue.le_refl v⟩
  refine ⟨?_, hanchored.2.cells⟩
  intro n k
  refine Eq.trans ?_ (h.isSome_eq n k)
  refine interval_induction (I := fun st => (st.cell n k).isSome = (l.logged n k).isSome)
    l start ?_ rfl
  intro i st e hst _ _
  rw [Interval.absorb_cell]
  cases st.merged.lookup e.1 with
  | none => exact hst
  | some p => rw [Option.isSome_map, hst]

/-- From every start on, the log and the history have the same join. -/
theorem LogBacked.collect_rel {fresh : V} {l : Ledger A K V} (h : l.LogBacked)
    (hc : l.Coherent fresh) (start : ℕ) (k : K) :
    Option.Rel (fun x y => Le x y ∧ Le y x) (collect (l.loggedFrom start k))
      (collect (l.recordedFrom start k)) := by
  have hnil : l.loggedFrom start k = [] ↔ l.recordedFrom start k = [] := by
    unfold loggedFrom recordedFrom
    simp only [List.filterMap_eq_nil_iff, ← Option.isNone_iff_eq_none,
      ← Option.not_isSome, Bool.not_eq_true', h.isSome_eq]
  cases hx : collect (l.loggedFrom start k) with
  | none =>
    rw [collect_eq_none, hnil] at hx
    rw [hx]
    exact .none
  | some x =>
    cases hy : collect (l.recordedFrom start k) with
    | none =>
      rw [collect_eq_none, ← hnil, ← collect_eq_none, hx] at hy
      cases hy
    | some y =>
      refine .some ⟨?_, ?_⟩
      · refine collect_property (p := fun v => Le v y) LawfulDeltaValue.merge_le hx ?_
        intro v hv
        obtain ⟨n, hn, -, hlogged⟩ := mem_loggedFrom.mp hv
        refine h.backed n k v hlogged y fun m d hm hd => le_of_collect hy ?_
        exact mem_recordedFrom.mpr ⟨m, hn.trans hm, (hc.history_lt hd).2, hd⟩
      · refine collect_property (p := fun v => Le v x) LawfulDeltaValue.merge_le hy ?_
        intro d hd
        obtain ⟨n, hn, hlt, hhistory⟩ := mem_recordedFrom.mp hd
        obtain ⟨v, hv, hle⟩ := hc.history_le_logged n k d hhistory
        exact LawfulDeltaValue.le_trans hle
          (le_of_collect hx (mem_loggedFrom.mpr ⟨n, hn, hlt, hv⟩))

/-- The state is the join of everything recorded, if every value starts from nothing. -/
theorem Coherent.state_rel {fresh : V} {l : Ledger A K V} (h : l.Coherent fresh)
    (hfresh : ∀ v : V, Le fresh v) (k : K) :
    Option.Rel (fun x y => Le x y ∧ Le y x) (l.state.lookup k)
      (collect (l.recordedFrom 0 k)) := by
  have hmem : ∀ {n d}, l.history n k = some d → d ∈ l.recordedFrom 0 k := fun hd =>
    mem_recordedFrom.mpr ⟨_, Nat.zero_le _, (h.history_lt hd).2, hd⟩
  cases hv : l.state.lookup k with
  | none =>
    cases hy : collect (l.recordedFrom 0 k) with
    | none => exact .none
    | some y =>
      obtain ⟨d, hd⟩ := List.exists_mem_of_ne_nil _ fun hnil =>
        Option.some_ne_none y (hy.symm.trans (collect_eq_none.mpr hnil))
      obtain ⟨n, -, -, hhistory⟩ := mem_recordedFrom.mp hd
      obtain ⟨v, hv', -⟩ := h.history_holds hhistory
      rw [hv] at hv'
      cases hv'
  | some v =>
    obtain ⟨n, d, hd⟩ := h.state_has_history k v hv
    obtain ⟨y, hy, -⟩ := le_collect (hmem hd)
    rw [hy]
    refine .some ⟨?_, ?_⟩
    · exact h.state_le k v hv y (hfresh y) fun m e he => le_of_collect hy (hmem he)
    · refine collect_property (p := fun u => Le u v) LawfulDeltaValue.merge_le hy ?_
      intro e he
      obtain ⟨m, -, -, hhistory⟩ := mem_recordedFrom.mp he
      exact (h.history_holds hhistory).le_of_lookup hv

variable [DecidableEq A]

theorem LogBacked.delta {l : Ledger A K V} (h : l.LogBacked) (peer : A) :
    (l.delta peer).2.LogBacked := by
  rcases delta_cases peer l with ⟨-, he⟩ | ⟨-, -, he⟩ | ⟨-, -, he⟩ <;> rw [he]
  · exact h
  · exact h.interval _
  · exact h

/-- A message part is the join of the deltas recorded from the acknowledgement on. -/
theorem LogBacked.delta_rel {fresh : V} {l : Ledger A K V} (h : l.LogBacked)
    (hc : l.Coherent fresh) (hfresh : ∀ v : V, Le fresh v) (peer : A) (k : K) :
    Option.Rel (fun x y => Le x y ∧ Le y x) (((l.delta peer).1.getD (0, ∅)).2.lookup k)
      (collect (l.recordedFrom (l.acked peer) k)) := by
  have hdecoded : ∀ {x y : Option V}, Option.Rel (fun x y => Le x y ∧ Le y x) x y →
      Option.Rel (fun x y => Le x y ∧ Le y x) (x.map decoded) y := by
    intro x y hxy
    cases hxy with
    | none => exact .none
    | some hle =>
      exact .some ⟨LawfulDeltaValue.le_trans (LawfulDeltaValue.decoded_le _) hle.1,
        LawfulDeltaValue.le_trans hle.2 (LawfulDeltaValue.le_decoded _)⟩
  rcases delta_cases peer l with ⟨hzero, he⟩ | ⟨-, -, he⟩ | ⟨-, hle, he⟩ <;> rw [he]
  · rw [Option.getD_some, FMap.lookup_mapVals, hzero]
    exact hdecoded (hc.state_rel hfresh k)
  · rw [Option.getD_some, FMap.lookup_mapVals, interval_merged_lookup]
    exact hdecoded (h.collect_rel hc _ k)
  · have hempty : l.recordedFrom (l.acked peer) k = [] := by
      rw [recordedFrom, Nat.sub_eq_zero_of_le hle]
      rfl
    rw [hempty]
    exact .none

end Ledger
end Commute.Gossip
