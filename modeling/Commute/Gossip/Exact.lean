import Commute.Gossip.Convergence

/-!
# Values that a merge selects exactly

Where merging is associative, ignores what is dominated and shares no storage
with the log, a value is the merge of its log, and a message part carries a
receiver to exactly the state that the sender's value would. The order alone
does not give that: it may identify values that differ.
-/
namespace Commute.Gossip

open DeltaValue

class ExactDeltaValue (V : Type) [DeltaValue V] : Prop extends LawfulDeltaValue V where
  merge_assoc : ∀ a b c : V, merge (merge a b) c = merge a (merge b c)
  merge_eq_left : ∀ {a b : V}, Le b a → merge a b = a
  merge_decoded : ∀ a b : V, merge a (decoded b) = merge a b
  shared_eq : ∀ a b : V, shared a b = a

variable {A K V Γ : Type} [DecidableEq K]

namespace Ledger

def loggedBelow (l : Ledger A K V) (n : ℕ) (k : K) : List V :=
  (List.range' 1 (n - 1)).filterMap fun m => l.logged m k

theorem mem_loggedBelow {l : Ledger A K V} {n : ℕ} {k : K} {v : V}
    (h : v ∈ l.loggedBelow n k) : ∃ m, m < n ∧ l.logged m k = some v := by
  obtain ⟨m, hm, hv⟩ := List.mem_filterMap.mp h
  rw [List.mem_range'_1] at hm
  exact ⟨m, by omega, hv⟩

theorem loggedFrom_one {l : Ledger A K V} {n : ℕ} (hpos : 0 < n) (hn : n ≤ l.seq) (k : K) :
    l.loggedFrom 1 k = l.loggedBelow n k ++ l.loggedFrom n k := by
  have hsplit : List.range' 1 (l.seq - 1) =
      List.range' 1 (n - 1) ++ List.range' n (l.seq - n) := by
    have hstart : 1 + (n - 1) = n := by omega
    have hlen : l.seq - 1 = (n - 1) + (l.seq - n) := by omega
    rw [hlen, ← List.range'_append_1, hstart]
  unfold loggedFrom loggedBelow
  rw [hsplit, List.filterMap_append]

variable [DeltaValue V]

/-- The log is the history, and every value is the merge of its log. -/
structure Exact (fresh : V) (l : Ledger A K V) : Prop where
  seq_pos : 0 < l.seq
  logged_eq : ∀ n k, l.logged n k = l.history n k
  value_eq : ∀ k, l.valueOr fresh k = (l.loggedFrom 1 k).foldl merge fresh

theorem Exact.new (fresh : V) : (Ledger.new : Ledger A K V).Exact fresh :=
  ⟨Nat.one_pos, fun _ _ => rfl, fun _ => rfl⟩

theorem join_loggedFrom (fresh d : V) (k k' : K) {l : Ledger A K V} {start : ℕ}
    (h : start ≤ l.seq) : (l.join fresh k d).loggedFrom start k' =
      l.loggedFrom start k' ++ if k' = k then [d] else [] := by
  have hsucc : l.seq + 1 - start = (l.seq - start) + 1 := by omega
  have hlast : start + (l.seq - start) = l.seq := by omega
  unfold loggedFrom
  rw [join_seq, hsucc, List.range'_concat, List.filterMap_append, Nat.one_mul, hlast]
  congr 1
  · refine List.filterMap_congr fun n hn => ?_
    rw [join_logged, if_neg]
    rw [List.mem_range'_1] at hn
    omega
  · rw [List.filterMap_cons, join_logged, if_pos rfl]
    split_ifs <;> rfl

theorem Exact.join {fresh : V} {l : Ledger A K V} (h : l.Exact fresh) (k : K) (d : V) :
    (l.join fresh k d).Exact fresh := by
  refine ⟨Nat.succ_pos _, ?_, ?_⟩
  · intro n k'
    rw [join_logged, join_history, h.logged_eq]
  · intro k'
    rw [join_loggedFrom fresh d k k' h.seq_pos, List.foldl_append, ← h.value_eq, join_valueOr]
    split_ifs with hk
    · rw [hk]
      rfl
    · rfl

variable [ExactDeltaValue V]

theorem merge_foldl (a b : V) (vs : List V) :
    merge a (vs.foldl merge b) = vs.foldl merge (merge a b) := by
  induction vs generalizing b with
  | nil => rfl
  | cons v vs ih => rw [List.foldl_cons, List.foldl_cons, ih, ExactDeltaValue.merge_assoc]

theorem foldl_merge_collect {vs : List V} {x : V} (p : V) (h : collect vs = some x) :
    vs.foldl merge p = merge p x := by
  cases vs with
  | nil => simp [collect] at h
  | cons v vs =>
    rw [collect_cons] at h
    obtain rfl := Option.some.inj h
    exact (merge_foldl p v vs).symm

theorem mergeAll_valueOr (fresh : V) (payload : FMap K V) (l : Ledger A K V) (k : K) :
    (l.mergeAll fresh payload).valueOr fresh k =
      match payload.lookup k with
      | none => l.valueOr fresh k
      | some x => merge (l.valueOr fresh k) x := by
  unfold valueOr
  rw [mergeAll_state_lookup]
  cases payload.lookup k with
  | none => rfl
  | some x =>
    dsimp only
    rcases mergeKey_cases fresh l k x with ⟨he, v, hv, hle⟩ | he <;> rw [he]
    · rw [hv, Option.getD_some, ExactDeltaValue.merge_eq_left hle]
    · rw [join_state_lookup, if_pos rfl]
      rfl

theorem absorb_cell_eq (i : ℕ) (st : Interval K V) (e : Σ _ : K, V) (n : ℕ) (k : K) :
    (st.absorb i e).cell n k = st.cell n k := by
  rw [Interval.absorb_cell]
  cases st.merged.lookup e.1 with
  | none => rfl
  | some p => simp [ExactDeltaValue.shared_eq]

theorem interval_cell (l : Ledger A K V) (start n : ℕ) (k : K) :
    (l.interval start).cell n k = l.logged n k := by
  have habsorb : ∀ (i : ℕ) (es : List (Σ _ : K, V)) (st : Interval K V),
      (es.foldl (Interval.absorb i) st).cell n k = st.cell n k := by
    intro i es
    induction es with
    | nil => exact fun _ => rfl
    | cons e es ih => exact fun st => (ih _).trans (absorb_cell_eq i st e n k)
  have hscan : ∀ (is : List ℕ) (st : Interval K V),
      (is.foldl Interval.scan st).cell n k = st.cell n k := by
    intro is
    induction is with
    | nil => exact fun _ => rfl
    | cons i is ih => exact fun st => (ih _).trans (habsorb i _ st)
  exact hscan _ _

theorem Exact.delta [DecidableEq A] {fresh : V} {l : Ledger A K V} (h : l.Exact fresh)
    (peer : A) : (l.delta peer).2.Exact fresh := by
  rcases delta_cases peer l with ⟨-, he⟩ | ⟨-, -, he⟩ | ⟨-, -, he⟩ <;> rw [he]
  · exact h
  · have hlogged : ∀ n k, Ledger.logged
        { l with deltas := (l.interval (l.acked peer)).deltas } n k = l.logged n k :=
      fun n k => interval_cell l _ n k
    refine ⟨h.seq_pos, fun n k => (hlogged n k).trans (h.logged_eq n k),
      fun k => (h.value_eq k).trans ?_⟩
    unfold loggedFrom
    simp only [hlogged]
  · exact h

end Ledger

namespace Network

variable [DecidableEq A] [DeltaValue V] [ExactDeltaValue V]

theorem Reachable.exact {R : Rules A K V Γ} {g : Γ} {w : Network A K V Γ} (h : Reachable R g w)
    (a : A) : (w.ledger a).Exact (R.fresh a) := by
  refine h.invariant (I := fun w => ∀ a, (w.ledger a).Exact (R.fresh a)) ?_ ?_ a
  · exact fun a => .new _
  intro w w' _ ih hs
  cases hs with
  | write a k f g _ =>
    exact put_forall (P := fun a l => l.Exact (R.fresh a)) ih ((ih a).join k _)
  | note g _ => exact ih
  | delta a b => exact put_forall (P := fun a l => l.Exact (R.fresh a)) ih ((ih a).delta b)
  | merge env payload _ _ =>
    exact put_forall (P := fun a l => l.Exact (R.fresh a)) ih
      (Ledger.mergeAll_invariant (fun _ k v _ h => h.join k v) (ih env.dst))
  | ack r _ =>
    have hl := ih r.dst
    exact put_forall (P := fun a l => l.Exact (R.fresh a)) ih { hl with }

/-- What a message part lacks, its receiver has: together they make up exactly
the sender's value. -/
theorem Sound.part_exact {R : Rules A K V Γ} {w : Network A K V Γ} (h : Sound R w)
    (hfresh : ∀ i j, Le (R.fresh i) (R.fresh j)) {i j : A}
    (hi : (w.ledger i).Exact (R.fresh i)) {k : K} {x : V}
    (hx : (w.part i j).2.lookup k = some x) :
    ∃ p, Le p ((w.ledger j).valueOr (R.fresh j) k) ∧
      DeltaValue.merge p x = (w.ledger i).valueOr (R.fresh i) k := by
  have hfresh_le : Le (R.fresh i) ((w.ledger j).valueOr (R.fresh j) k) :=
    LawfulDeltaValue.le_trans (hfresh i j) ((h.coherent j).fresh_le_valueOr k)
  unfold part at hx
  rcases Ledger.delta_cases j (w.ledger i) with ⟨-, he⟩ | ⟨hpos, hlt, he⟩ | ⟨-, -, he⟩ <;>
    rw [he] at hx
  · -- the full state: the value absorbs what every value starts from
    simp only [Option.getD_some, FMap.lookup_mapVals, Option.map_eq_some_iff] at hx
    obtain ⟨v, hv, rfl⟩ := hx
    refine ⟨R.fresh i, hfresh_le, ?_⟩
    rw [ExactDeltaValue.merge_decoded, ← Ledger.valueOr_of_some (R.fresh i) hv, hi.value_eq,
      Ledger.merge_foldl,
      ExactDeltaValue.merge_eq_left (LawfulDeltaValue.le_refl (R.fresh i))]
  · simp only [Option.getD_some, FMap.lookup_mapVals, Option.map_eq_some_iff,
      Ledger.interval_merged_lookup] at hx
    obtain ⟨y, hy, rfl⟩ := hx
    refine ⟨((w.ledger i).loggedBelow ((w.ledger i).acked j) k).foldl DeltaValue.merge
      (R.fresh i), ?_, ?_⟩
    · refine foldl_merge_property (p := fun v => Le v ((w.ledger j).valueOr (R.fresh j) k))
        (fun ha hb => LawfulDeltaValue.merge_le ha hb) _ hfresh_le ?_
      intro v hv
      obtain ⟨m, hm, hlogged⟩ := Ledger.mem_loggedBelow hv
      rw [hi.logged_eq] at hlogged
      obtain ⟨u, hu, hle⟩ := h.acked i j m k v hlogged hm
      rwa [Ledger.valueOr_of_some _ hu]
    · rw [ExactDeltaValue.merge_decoded, hi.value_eq, Ledger.loggedFrom_one hpos hlt.le,
        List.foldl_append, Ledger.foldl_merge_collect _ hy]
  · simp at hx

end Network
end Commute.Gossip
