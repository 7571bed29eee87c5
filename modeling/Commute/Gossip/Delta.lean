import Commute.Gossip.Interval

/-!
# What a ledger sends

`delta_spec` is the one lemma later modules use about the message part for a
peer: it covers every recorded delta the peer has not acknowledged and nothing
beyond the state. `Coherent.delta` and `All.delta` say that building it, which
may modify the log, keeps the ledger's invariants.
-/
namespace Commute.Gossip

open DeltaValue

variable {A K V : Type} [DecidableEq K]

namespace Ledger

/-- Every value in state, log and history has the property `P`. -/
structure All (P : K → V → Prop) (l : Ledger A K V) : Prop where
  state : ∀ k v, l.state.lookup k = some v → P k v
  logged : ∀ n k v, l.logged n k = some v → P k v
  history : ∀ n k v, l.history n k = some v → P k v

theorem All.imp {P Q : K → V → Prop} (h : ∀ k v, P k v → Q k v) {l : Ledger A K V}
    (hl : l.All P) : l.All Q :=
  ⟨fun k v hv => h k v (hl.state k v hv), fun n k v hv => h k v (hl.logged n k v hv),
    fun n k v hv => h k v (hl.history n k v hv)⟩

theorem All.new (P : K → V → Prop) : (Ledger.new : Ledger A K V).All P :=
  ⟨by simp [Ledger.new], by simp [Ledger.new, Ledger.logged], by simp [Ledger.new, Ledger.history]⟩

theorem All.valueOr {P : K → V → Prop} {l : Ledger A K V} (h : l.All P) {fresh : V} {k : K}
    (hfresh : P k fresh) : P k (l.valueOr fresh k) := by
  unfold Ledger.valueOr
  cases hv : l.state.lookup k with
  | none => exact hfresh
  | some v => exact h.state k v hv

theorem All.recorded {P : K → V → Prop} {l : Ledger A K V} (h : l.All P) {k : K} {d v : V}
    (hd : P k d) (hv : P k v) : (record k d { l with state := l.state.insert k v }).All P := by
  have hcell : ∀ k' u, (AList.singleton k d : FMap K V).lookup k' = some u → P k' u := by
    intro k' u hu
    rw [FMap.lookup_singleton] at hu
    split_ifs at hu with hk
    exact hk ▸ Option.some.inj hu ▸ hd
  refine ⟨FMap.forall_insert h.state hv, ?_, ?_⟩
  · intro n k' u hu
    rw [Ledger.logged, record, FMap.lookup_insert_eq] at hu
    split_ifs at hu
    · exact hcell k' u hu
    · exact h.logged n k' u hu
  · intro n k' u hu
    rw [Ledger.history, record, FMap.lookup_insert_eq] at hu
    split_ifs at hu
    · exact hcell k' u hu
    · exact h.history n k' u hu

variable [DeltaValue V]

theorem All.join {P : K → V → Prop} (hP : Closed P) {fresh : V} {l : Ledger A K V} (h : l.All P)
    {k : K} {d : V} (hfresh : P k fresh) (hd : P k d) : (l.join fresh k d).All P :=
  h.recorded hd (hP.merge (h.valueOr hfresh) hd)

theorem All.mergeAll {P : K → V → Prop} (hP : Closed P) {fresh : V} (hfresh : ∀ k, P k fresh)
    {l : Ledger A K V} (h : l.All P) (payload : FMap K V)
    (hp : ∀ k v, payload.lookup k = some v → P k v) : (l.mergeAll fresh payload).All P :=
  mergeAll_invariant (fun _ k v hv h => h.join hP (hfresh k) (hp k v hv)) h

theorem delta_cases [DecidableEq A] (peer : A) (l : Ledger A K V) :
    (l.acked peer = 0 ∧
      l.delta peer = (some (l.seq, FMap.mapVals (fun _ => decoded) l.state), l)) ∨
    (0 < l.acked peer ∧ l.acked peer < l.seq ∧
      l.delta peer = (some (l.seq, FMap.mapVals (fun _ => decoded)
        (l.interval (l.acked peer)).payload),
        { l with deltas := (l.interval (l.acked peer)).deltas })) ∨
    (0 < l.acked peer ∧ l.seq ≤ l.acked peer ∧ l.delta peer = (none, l)) := by
  unfold delta
  dsimp only
  split_ifs with h0 h1
  · exact Or.inl ⟨h0, rfl⟩
  · exact Or.inr (Or.inl ⟨Nat.pos_of_ne_zero h0, h1, rfl⟩)
  · exact Or.inr (Or.inr ⟨Nat.pos_of_ne_zero h0, Nat.le_of_not_lt h1, rfl⟩)

theorem delta_state [DecidableEq A] (peer : A) (l : Ledger A K V) :
    (l.delta peer).2.state = l.state := by
  rcases delta_cases peer l with ⟨-, h⟩ | ⟨-, -, h⟩ | ⟨-, -, h⟩ <;> rw [h]

theorem delta_acks [DecidableEq A] (peer : A) (l : Ledger A K V) :
    (l.delta peer).2.acks = l.acks := by
  rcases delta_cases peer l with ⟨-, h⟩ | ⟨-, -, h⟩ | ⟨-, -, h⟩ <;> rw [h]

theorem delta_snd_of_none [DecidableEq A] {peer : A} {l : Ledger A K V}
    (h : (l.delta peer).1.isNone = true) : (l.delta peer).2 = l := by
  rcases delta_cases peer l with ⟨-, he⟩ | ⟨-, -, he⟩ | ⟨-, -, he⟩ <;> rw [he] at h ⊢
  cases h

theorem delta_seq_le [DecidableEq A] (l : Ledger A K V) (peer : A) :
    ((l.delta peer).1.getD (0, ∅)).1 ≤ l.seq := by
  rcases delta_cases peer l with ⟨-, he⟩ | ⟨-, -, he⟩ | ⟨-, -, he⟩ <;> rw [he]
  · exact le_rfl
  · exact le_rfl
  · exact Nat.zero_le _

theorem All.payload [DecidableEq A] {P : K → V → Prop} (hP : Closed P) {l : Ledger A K V}
    (h : l.All P) {peer : A} {n : ℕ} {payload : FMap K V}
    (hd : (l.delta peer).1 = some (n, payload)) {k : K} {v : V}
    (hv : payload.lookup k = some v) : P k v := by
  rcases delta_cases peer l with ⟨-, he⟩ | ⟨-, -, he⟩ | ⟨-, -, he⟩ <;> rw [he] at hd
  · obtain ⟨-, rfl⟩ := Prod.mk.inj (Option.some.inj hd)
    rw [FMap.lookup_mapVals, Option.map_eq_some_iff] at hv
    obtain ⟨u, hu, rfl⟩ := hv
    exact hP.decoded (h.state k u hu)
  · obtain ⟨-, rfl⟩ := Prod.mk.inj (Option.some.inj hd)
    rw [FMap.lookup_mapVals, Option.map_eq_some_iff] at hv
    obtain ⟨u, hu, rfl⟩ := hv
    rw [interval_merged_lookup] at hu
    refine hP.decoded (collect_property hP.merge hu ?_)
    intro w hw
    obtain ⟨m, -, -, hm⟩ := mem_loggedFrom.mp hw
    exact h.logged m k w hm
  · simp at hd

variable [LawfulDeltaValue V]

theorem closed_holds (l : Ledger A K V) : Closed l.Holds where
  merge := by
    rintro k a b ⟨v, hv, ha⟩ ⟨w, hw, hb⟩
    obtain rfl : v = w := Option.some.inj (hv.symm.trans hw)
    exact ⟨v, hv, LawfulDeltaValue.merge_le ha hb⟩
  decoded := fun h => h.of_le (LawfulDeltaValue.decoded_le _)
  shared := fun hle _ hb => hb.of_le (LawfulDeltaValue.shared_le hle)

theorem interval_evolves (l : Ledger A K V) (start : ℕ) :
    l.Evolves { l with deltas := (l.interval start).deltas } :=
  { Evolves.refl l with }

theorem Coherent.interval {fresh : V} {l : Ledger A K V} (h : l.Coherent fresh) (start : ℕ) :
    Coherent fresh { l with deltas := (l.interval start).deltas } := by
  have hi := interval_inflated l.closed_holds h.logged_le_state start
  refine { h with
    mem_deltas := fun n => (interval_mem_deltas l start n).trans (h.mem_deltas n)
    history_le_logged := ?_
    logged_le_state := hi.cells_all }
  intro n k d hd
  obtain ⟨v, hv, hle⟩ := h.history_le_logged n k d hd
  obtain ⟨v', hv', hle'⟩ := hi.grows n k v hv
  exact ⟨v', hv', LawfulDeltaValue.le_trans hle hle'⟩

variable [DecidableEq A]

theorem delta_evolves (peer : A) (l : Ledger A K V) : l.Evolves (l.delta peer).2 := by
  rcases delta_cases peer l with ⟨-, h⟩ | ⟨-, -, h⟩ | ⟨-, -, h⟩ <;> rw [h]
  · exact .refl l
  · exact interval_evolves l _
  · exact .refl l

theorem Coherent.delta {fresh : V} {l : Ledger A K V} (h : l.Coherent fresh) (peer : A) :
    (l.delta peer).2.Coherent fresh := by
  rcases delta_cases peer l with ⟨-, he⟩ | ⟨-, -, he⟩ | ⟨-, -, he⟩ <;> rw [he]
  · exact h
  · exact h.interval _
  · exact h

theorem All.delta {P : K → V → Prop} (hP : Closed P) {l : Ledger A K V} (h : l.All P)
    (peer : A) : (l.delta peer).2.All P := by
  rcases delta_cases peer l with ⟨-, he⟩ | ⟨-, -, he⟩ | ⟨-, -, he⟩ <;> rw [he]
  · exact h
  · exact { h with logged := (interval_inflated hP h.logged _).cells_all }
  · exact h

/-- The message part covers every recorded delta the peer has not acknowledged
and is dominated by the sender's state. -/
theorem delta_spec {fresh : V} {l : Ledger A K V} (h : l.Coherent fresh) {peer : A} {n : ℕ}
    {payload : FMap K V} (hd : (l.delta peer).1 = some (n, payload)) :
    n = l.seq ∧
      (∀ m k d, l.history m k = some d → m < l.acked peer ∨
        ∃ x, payload.lookup k = some x ∧ Le d x) ∧
      ∀ k x, payload.lookup k = some x → l.Holds k x := by
  have hall : l.All l.Holds := by
    refine ⟨fun k v hv => ⟨v, hv, LawfulDeltaValue.le_refl v⟩, h.logged_le_state, ?_⟩
    exact fun n k v hv => h.history_holds hv
  refine ⟨?_, ?_, fun k x hx => hall.payload l.closed_holds hd hx⟩
  · rcases delta_cases peer l with ⟨-, he⟩ | ⟨-, -, he⟩ | ⟨-, -, he⟩ <;> rw [he] at hd
    · exact (Prod.mk.inj (Option.some.inj hd)).1.symm
    · exact (Prod.mk.inj (Option.some.inj hd)).1.symm
    · simp at hd
  · intro m k d hm
    rcases delta_cases peer l with ⟨-, he⟩ | ⟨-, -, he⟩ | ⟨-, -, he⟩ <;> rw [he] at hd
    · obtain ⟨-, rfl⟩ := Prod.mk.inj (Option.some.inj hd)
      obtain ⟨v, hv, hle⟩ := h.history_holds hm
      exact Or.inr ⟨decoded v, by simp [hv],
        LawfulDeltaValue.le_trans hle (LawfulDeltaValue.le_decoded v)⟩
    · obtain ⟨-, rfl⟩ := Prod.mk.inj (Option.some.inj hd)
      by_cases hlt : m < l.acked peer
      · exact Or.inl hlt
      · obtain ⟨v, hv, hle⟩ := h.history_le_logged m k d hm
        have hmem : v ∈ l.loggedFrom (l.acked peer) k :=
          mem_loggedFrom.mpr ⟨m, Nat.le_of_not_lt hlt, (h.logged_lt hv).2, hv⟩
        obtain ⟨x, hx, hvx⟩ := le_collect hmem
        refine Or.inr ⟨decoded x, by simp [interval_merged_lookup, hx], ?_⟩
        exact LawfulDeltaValue.le_trans hle
          (LawfulDeltaValue.le_trans hvx (LawfulDeltaValue.le_decoded x))
    · simp at hd

end Ledger
end Commute.Gossip
