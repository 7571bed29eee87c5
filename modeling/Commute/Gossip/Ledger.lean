import Commute.Foundation.FiniteMap
import Mathlib.Tactic

/-!
# One node's ledger in delta-interval anti-entropy

A ledger holds, for one type of replicated value, the current value of every
key, a log of the deltas that produced it, numbered from one, and the highest
sequence number every peer has acknowledged. Peers that never acknowledged
receive the full state, all others the join of the log from their
acknowledgement on.

The module says once what an operation can do to a ledger. `Ledger.Evolves` is
what every operation does, `Ledger.Coherent` relates state, log and
history, and both are proved for the one primitive `Ledger.join` that local
writes and merges share.
-/
namespace Commute.Gossip

/-- What a replicated value brings to the algorithm. `decoded` is what a peer
reads back from the encoding of a value. `shared old merged` is what remains of
a logged delta `old` whose storage was shared with an accumulator that ended as
`merged`. -/
class DeltaValue (V : Type) where
  merge : V → V → V
  isLessOrEqual : V → V → Bool
  decoded : V → V
  shared : V → V → V

namespace DeltaValue

/-- The order the algorithm tests before it skips a merge. -/
def Le {V : Type} [DeltaValue V] (a b : V) : Prop := isLessOrEqual a b = true

end DeltaValue

open DeltaValue

/-- Merging computes least upper bounds of the tested order, and neither the
encoding nor shared storage changes a value in that order beyond the accumulator. -/
class LawfulDeltaValue (V : Type) [DeltaValue V] : Prop where
  le_refl : ∀ a : V, Le a a
  le_trans : ∀ {a b c : V}, Le a b → Le b c → Le a c
  le_merge_left : ∀ a b : V, Le a (merge a b)
  le_merge_right : ∀ a b : V, Le b (merge a b)
  merge_le : ∀ {a b c : V}, Le a c → Le b c → Le (merge a b) c
  le_decoded : ∀ a : V, Le a (decoded a)
  decoded_le : ∀ a : V, Le (decoded a) a
  le_shared : ∀ {a b : V}, Le a b → Le a (shared a b)
  shared_le : ∀ {a b : V}, Le a b → Le (shared a b) b

/-- State, log and acknowledgements of one node. `recorded` is a history
variable: it receives what `deltas` receives when a delta is recorded, and no
operation reads it or writes it afterwards. -/
structure Ledger (A K V : Type) where
  state : FMap K V
  seq : ℕ
  deltas : FMap ℕ (FMap K V)
  acks : FMap A ℕ
  recorded : FMap ℕ (FMap K V)

namespace Ledger

variable {A K V : Type}

/-- Sequence numbers start at one; zero means that a peer never acknowledged. -/
def new : Ledger A K V := ⟨∅, 1, ∅, ∅, ∅⟩

def acked [DecidableEq A] (l : Ledger A K V) (peer : A) : ℕ := (l.acks.lookup peer).getD 0

def ack [DecidableEq A] (peer : A) (n : ℕ) (l : Ledger A K V) : Ledger A K V :=
  { l with acks := l.acks.insert peer (max (l.acked peer) n) }

theorem ack_acked [DecidableEq A] (peer other : A) (n : ℕ) (l : Ledger A K V) :
    (l.ack peer n).acked other = if other = peer then max (l.acked peer) n else l.acked other := by
  unfold ack acked
  dsimp only
  rw [FMap.lookup_insert_eq]
  split_ifs <;> rfl

variable [DecidableEq K]

def logged (l : Ledger A K V) (n : ℕ) (k : K) : Option V :=
  (l.deltas.lookup n).bind fun cell => cell.lookup k

/-- The delta for `k` under the sequence number `n`, as it was recorded. -/
def history (l : Ledger A K V) (n : ℕ) (k : K) : Option V :=
  (l.recorded.lookup n).bind fun cell => cell.lookup k

def record (k : K) (d : V) (l : Ledger A K V) : Ledger A K V :=
  { l with
    deltas := l.deltas.insert l.seq (AList.singleton k d)
    recorded := l.recorded.insert l.seq (AList.singleton k d)
    seq := l.seq + 1 }

def valueOr (l : Ledger A K V) (fresh : V) (k : K) : V := (l.state.lookup k).getD fresh

theorem valueOr_of_some {l : Ledger A K V} {k : K} {v : V} (fresh : V)
    (h : l.state.lookup k = some v) : l.valueOr fresh k = v := by
  simp [valueOr, h]

variable [DeltaValue V]

/-- Merge a delta into the value of its key and record it. -/
def join (fresh : V) (k : K) (d : V) (l : Ledger A K V) : Ledger A K V :=
  record k d { l with state := l.state.insert k (merge (l.valueOr fresh k) d) }

/-- A local write computes a delta from the current value and joins it. -/
def write (fresh : V) (k : K) (delta : V → V) (l : Ledger A K V) : Ledger A K V :=
  l.join fresh k (delta (l.valueOr fresh k))

/-- A known key skips an incoming value that its own value already dominates. -/
def mergeKey (fresh : V) (l : Ledger A K V) (k : K) (incoming : V) : Ledger A K V :=
  match l.state.lookup k with
  | some known => if isLessOrEqual incoming known then l else l.join fresh k incoming
  | none => l.join fresh k incoming

def mergeAll (fresh : V) (payload : FMap K V) (l : Ledger A K V) : Ledger A K V :=
  payload.entries.foldl (fun l e => l.mergeKey fresh e.1 e.2) l

section Fields

variable (l : Ledger A K V) (fresh d : V) (k k' : K) (n : ℕ)

@[simp] theorem join_seq : (l.join fresh k d).seq = l.seq + 1 := rfl

theorem join_state_lookup : (l.join fresh k d).state.lookup k' =
    if k' = k then some (merge (l.valueOr fresh k) d) else l.state.lookup k' :=
  FMap.lookup_insert_eq _ _ _ _

theorem join_valueOr : (l.join fresh k d).valueOr fresh k' =
    if k' = k then merge (l.valueOr fresh k) d else l.valueOr fresh k' := by
  unfold valueOr
  rw [join_state_lookup]
  split_ifs <;> rfl

theorem join_logged : (l.join fresh k d).logged n k' =
    if n = l.seq then (if k' = k then some d else none) else l.logged n k' := by
  unfold logged
  rw [show (l.join fresh k d).deltas = l.deltas.insert l.seq (AList.singleton k d) from rfl,
    FMap.lookup_insert_eq]
  split_ifs <;> simp [*]

theorem join_history : (l.join fresh k d).history n k' =
    if n = l.seq then (if k' = k then some d else none) else l.history n k' := by
  unfold history
  rw [show (l.join fresh k d).recorded = l.recorded.insert l.seq (AList.singleton k d) from rfl,
    FMap.lookup_insert_eq]
  split_ifs <;> simp [*]

theorem join_mem_deltas : n ∈ (l.join fresh k d).deltas ↔ n = l.seq ∨ n ∈ l.deltas :=
  AList.mem_insert _

theorem join_mem_recorded : n ∈ (l.join fresh k d).recorded ↔ n = l.seq ∨ n ∈ l.recorded :=
  AList.mem_insert _

end Fields

/-- The value of `k` exists and dominates `d`. -/
def Holds (l : Ledger A K V) (k : K) (d : V) : Prop := ∃ v, l.state.lookup k = some v ∧ Le d v

theorem Holds.le_of_lookup {l : Ledger A K V} {k : K} {d v : V} (h : l.Holds k d)
    (hv : l.state.lookup k = some v) : Le d v := by
  obtain ⟨u, hu, hle⟩ := h
  exact Option.some.inj (hu.symm.trans hv) ▸ hle

/-- What every operation does to a ledger: values only grow, the history below
the old sequence number is final. -/
structure Evolves (l l' : Ledger A K V) : Prop where
  seq_le : l.seq ≤ l'.seq
  grows : ∀ k v, l.state.lookup k = some v → l'.Holds k v
  history_eq : ∀ n k, n < l.seq → l'.history n k = l.history n k

theorem mergeKey_cases (fresh : V) (l : Ledger A K V) (k : K) (incoming : V) :
    (l.mergeKey fresh k incoming = l ∧ l.Holds k incoming) ∨
      l.mergeKey fresh k incoming = l.join fresh k incoming := by
  unfold mergeKey
  cases h : l.state.lookup k with
  | none => exact Or.inr rfl
  | some known =>
    by_cases hle : isLessOrEqual incoming known = true
    · exact Or.inl ⟨by simp [hle], known, h, hle⟩
    · exact Or.inr (by simp [hle])

theorem mergeKey_state_of_ne (fresh : V) (l : Ledger A K V) {k k' : K} (incoming : V)
    (h : k' ≠ k) : (l.mergeKey fresh k incoming).state.lookup k' = l.state.lookup k' := by
  rcases mergeKey_cases fresh l k incoming with ⟨he, -⟩ | he <;> rw [he]
  rw [join_state_lookup, if_neg h]

theorem mergeKey_state_congr (fresh : V) {l l' : Ledger A K V} {k : K} (incoming : V)
    (h : l'.state.lookup k = l.state.lookup k) :
    (l'.mergeKey fresh k incoming).state.lookup k =
      (l.mergeKey fresh k incoming).state.lookup k := by
  unfold mergeKey
  rw [h]
  cases hv : l.state.lookup k with
  | none => simp only [join_state_lookup, valueOr, h, hv]
  | some v =>
    dsimp only
    split_ifs
    · rw [h, hv]
    · simp only [join_state_lookup, valueOr, h, hv]

theorem mergeAll_state_lookup (fresh : V) (payload : FMap K V) (l : Ledger A K V) (k : K) :
    (l.mergeAll fresh payload).state.lookup k =
      match payload.lookup k with
      | none => l.state.lookup k
      | some x => (l.mergeKey fresh k x).state.lookup k := by
  suffices h : ∀ es : List (Σ _ : K, V), es.NodupKeys → ∀ l : Ledger A K V,
      (es.foldl (fun l e => l.mergeKey fresh e.1 e.2) l).state.lookup k =
        match es.dlookup k with
        | none => l.state.lookup k
        | some x => (l.mergeKey fresh k x).state.lookup k from h _ payload.nodupKeys l
  intro es hes
  induction es with
  | nil => exact fun l => rfl
  | cons e es ih =>
    intro l
    obtain ⟨k', v⟩ := e
    obtain ⟨hk', hes'⟩ := List.nodupKeys_cons.mp hes
    rw [List.foldl_cons, ih hes']
    by_cases hk : k = k'
    · subst hk
      simp [List.dlookup_eq_none.mpr hk']
    · have hl := mergeKey_state_of_ne fresh l v hk
      rw [List.dlookup_cons_ne es ⟨k', v⟩ hk]
      cases es.dlookup k with
      | none => exact hl
      | some x => exact mergeKey_state_congr fresh x hl

/-- What every join of an entry of the payload keeps, the whole merge keeps. -/
theorem mergeAll_invariant {I : Ledger A K V → Prop} {fresh : V} {payload : FMap K V}
    (hjoin : ∀ l k v, payload.lookup k = some v → I l → I (l.join fresh k v))
    {l : Ledger A K V} (h : I l) : I (l.mergeAll fresh payload) := by
  have hes : ∀ e ∈ payload.entries, payload.lookup e.1 = some e.2 :=
    fun e he => FMap.mem_entries_iff.mp he
  unfold mergeAll
  generalize payload.entries = es at hes
  induction es generalizing l with
  | nil => exact h
  | cons e es ih =>
    rw [List.foldl_cons]
    refine ih ?_ fun e' he' => hes e' (List.mem_cons_of_mem _ he')
    rcases mergeKey_cases fresh l e.1 e.2 with ⟨he, -⟩ | he <;> rw [he]
    · exact h
    · exact hjoin l e.1 e.2 (hes e List.mem_cons_self) h

theorem mergeAll_acks (fresh : V) (payload : FMap K V) (l : Ledger A K V) :
    (l.mergeAll fresh payload).acks = l.acks :=
  mergeAll_invariant (I := fun l' => l'.acks = l.acks) (fun _ _ _ _ h => h) rfl

/-- Every value agrees with a new one in `tag`. -/
def Owned {X : Type} (tag : V → X) (fresh : V) (l : Ledger A K V) : Prop :=
  ∀ k, tag (l.valueOr fresh k) = tag fresh

theorem Owned.join {X : Type} {tag : V → X} (htag : ∀ a b, tag (merge a b) = tag a) {fresh : V}
    {l : Ledger A K V} (h : l.Owned tag fresh) (k : K) (d : V) :
    (l.join fresh k d).Owned tag fresh := by
  intro k'
  rw [join_valueOr]
  split_ifs with hk
  · exact (htag _ _).trans (h k)
  · exact h k'

/-- State, log and history of one node describe the same joins: both logs have
exactly the sequence numbers below `seq`, a logged delta lies between the delta
as recorded and the value of its key, and that value is the least one above
`fresh` and the recorded deltas of the key. -/
structure Coherent (fresh : V) (l : Ledger A K V) : Prop where
  seq_pos : 0 < l.seq
  mem_deltas : ∀ n, n ∈ l.deltas ↔ 1 ≤ n ∧ n < l.seq
  mem_recorded : ∀ n, n ∈ l.recorded ↔ 1 ≤ n ∧ n < l.seq
  history_le_logged : ∀ n k d, l.history n k = some d → ∃ v, l.logged n k = some v ∧ Le d v
  logged_le_state : ∀ n k v, l.logged n k = some v → l.Holds k v
  fresh_le_state : ∀ k v, l.state.lookup k = some v → Le fresh v
  state_has_history : ∀ k v, l.state.lookup k = some v → ∃ n d, l.history n k = some d
  state_le : ∀ k v, l.state.lookup k = some v →
    ∀ u, Le fresh u → (∀ n d, l.history n k = some d → Le d u) → Le v u

theorem Coherent.new (fresh : V) : Coherent fresh (Ledger.new : Ledger A K V) where
  seq_pos := Nat.one_pos
  mem_deltas := fun n => by
    simp only [Ledger.new, AList.notMem_empty, false_iff]
    omega
  mem_recorded := fun n => by
    simp only [Ledger.new, AList.notMem_empty, false_iff]
    omega
  history_le_logged := by simp [Ledger.new, history]
  logged_le_state := by simp [Ledger.new, logged]
  fresh_le_state := by simp [Ledger.new]
  state_has_history := by simp [Ledger.new]
  state_le := by simp [Ledger.new]

theorem Coherent.history_lt {fresh : V} {l : Ledger A K V} (h : l.Coherent fresh) {n : ℕ} {k : K}
    {d : V} (hd : l.history n k = some d) : 1 ≤ n ∧ n < l.seq := by
  obtain ⟨cell, hcell, -⟩ := Option.bind_eq_some_iff.mp hd
  exact (h.mem_recorded n).mp (FMap.mem_iff_exists_lookup.mpr ⟨cell, hcell⟩)

theorem Coherent.logged_lt {fresh : V} {l : Ledger A K V} (h : l.Coherent fresh) {n : ℕ} {k : K}
    {d : V} (hd : l.logged n k = some d) : 1 ≤ n ∧ n < l.seq := by
  obtain ⟨cell, hcell, -⟩ := Option.bind_eq_some_iff.mp hd
  exact (h.mem_deltas n).mp (FMap.mem_iff_exists_lookup.mpr ⟨cell, hcell⟩)

theorem Coherent.valueOr_le {fresh : V} {l : Ledger A K V} (h : l.Coherent fresh) (k : K) {u : V}
    (hu : Le fresh u) (hd : ∀ n d, l.history n k = some d → Le d u) :
    Le (l.valueOr fresh k) u := by
  unfold valueOr
  cases hv : l.state.lookup k with
  | none => exact hu
  | some v => exact h.state_le k v hv u hu hd

theorem Coherent.ack [DecidableEq A] {fresh : V} {l : Ledger A K V} (h : l.Coherent fresh)
    (peer : A) (n : ℕ) :
    (l.ack peer n).Coherent fresh := { h with }

variable [LawfulDeltaValue V]

theorem Holds.of_le {l : Ledger A K V} {k : K} {d v : V} (hd : Le d v) (h : l.Holds k v) :
    l.Holds k d := by
  obtain ⟨w, hw, hv⟩ := h
  exact ⟨w, hw, LawfulDeltaValue.le_trans hd hv⟩

theorem Evolves.holds {l l' : Ledger A K V} (h : l.Evolves l') {k : K} {d : V}
    (hd : l.Holds k d) : l'.Holds k d := by
  obtain ⟨v, hv, hle⟩ := hd
  exact (h.grows k v hv).of_le hle

theorem Evolves.refl (l : Ledger A K V) : l.Evolves l where
  seq_le := le_rfl
  grows := fun _ v hv => ⟨v, hv, LawfulDeltaValue.le_refl v⟩
  history_eq := fun _ _ _ => rfl

theorem Evolves.trans {l₁ l₂ l₃ : Ledger A K V} (h : l₁.Evolves l₂) (h' : l₂.Evolves l₃) :
    l₁.Evolves l₃ where
  seq_le := h.seq_le.trans h'.seq_le
  grows := fun k v hv => h'.holds (h.grows k v hv)
  history_eq := fun n k hn =>
    (h'.history_eq n k (hn.trans_le h.seq_le)).trans (h.history_eq n k hn)

theorem join_evolves (fresh : V) (k : K) (d : V) (l : Ledger A K V) :
    l.Evolves (l.join fresh k d) where
  seq_le := Nat.le_succ _
  grows := by
    intro k' v hv
    unfold Holds
    rw [join_state_lookup]
    split_ifs with h
    · subst h
      exact ⟨_, rfl, by rw [valueOr_of_some fresh hv]; exact LawfulDeltaValue.le_merge_left v d⟩
    · exact ⟨v, hv, LawfulDeltaValue.le_refl v⟩
  history_eq := by
    intro n k' hn
    rw [join_history, if_neg (Nat.ne_of_lt hn)]

theorem join_holds (fresh : V) (k : K) (d : V) (l : Ledger A K V) :
    (l.join fresh k d).Holds k d :=
  ⟨_, by rw [join_state_lookup, if_pos rfl], LawfulDeltaValue.le_merge_right _ _⟩

theorem mergeKey_holds (fresh : V) (l : Ledger A K V) (k : K) (incoming : V) :
    (l.mergeKey fresh k incoming).Holds k incoming := by
  rcases mergeKey_cases fresh l k incoming with ⟨h, hd⟩ | h <;> rw [h]
  · exact hd
  · exact join_holds fresh k incoming l

theorem ack_evolves [DecidableEq A] (peer : A) (n : ℕ) (l : Ledger A K V) :
    l.Evolves (l.ack peer n) := { Evolves.refl l with }

theorem mergeAll_evolves (fresh : V) (payload : FMap K V) (l : Ledger A K V) :
    l.Evolves (l.mergeAll fresh payload) :=
  mergeAll_invariant (I := fun l' => l.Evolves l')
    (fun l' k v _ h => h.trans (join_evolves fresh k v l')) (.refl l)

theorem mergeAll_holds (fresh : V) (payload : FMap K V) (l : Ledger A K V) {k : K} {v : V}
    (h : payload.lookup k = some v) : (l.mergeAll fresh payload).Holds k v := by
  have hkey := mergeAll_state_lookup fresh payload l k
  rw [h] at hkey
  obtain ⟨u, hu, hle⟩ := mergeKey_holds fresh l k v
  exact ⟨u, hkey.trans hu, hle⟩

theorem Coherent.history_holds {fresh : V} {l : Ledger A K V} (h : l.Coherent fresh) {n : ℕ}
    {k : K} {d : V} (hd : l.history n k = some d) : l.Holds k d := by
  obtain ⟨v, hv, hle⟩ := h.history_le_logged n k d hd
  exact (h.logged_le_state n k v hv).of_le hle

theorem Coherent.fresh_le_valueOr {fresh : V} {l : Ledger A K V} (h : l.Coherent fresh) (k : K) :
    Le fresh (l.valueOr fresh k) := by
  unfold valueOr
  cases hv : l.state.lookup k with
  | none => exact LawfulDeltaValue.le_refl fresh
  | some v => exact h.fresh_le_state k v hv

theorem Evolves.valueOr_le {fresh : V} {l l' : Ledger A K V} (h : l.Evolves l')
    (hc : l'.Coherent fresh) (k : K) : Le (l.valueOr fresh k) (l'.valueOr fresh k) := by
  cases hv : l.state.lookup k with
  | none =>
    rw [Ledger.valueOr, hv, Option.getD_none]
    exact hc.fresh_le_valueOr k
  | some v =>
    obtain ⟨v', hv', hle⟩ := h.grows k v hv
    rwa [valueOr_of_some _ hv, valueOr_of_some _ hv']

theorem Coherent.join {fresh : V} {l : Ledger A K V} (h : l.Coherent fresh) (k : K) (d : V) :
    (l.join fresh k d).Coherent fresh where
  seq_pos := Nat.succ_pos _
  mem_deltas := fun n => by
    rw [join_mem_deltas, h.mem_deltas, join_seq]
    have := h.seq_pos
    omega
  mem_recorded := fun n => by
    rw [join_mem_recorded, h.mem_recorded, join_seq]
    have := h.seq_pos
    omega
  history_le_logged := by
    intro n k' e he
    rw [join_history] at he
    rw [join_logged]
    split_ifs at he ⊢ with hn hk
    · exact ⟨e, he, LawfulDeltaValue.le_refl e⟩
    · exact h.history_le_logged n k' e he
  logged_le_state := by
    intro n k' v hv
    rw [join_logged] at hv
    split_ifs at hv with hn hk
    · subst hk
      obtain rfl := Option.some.inj hv
      exact join_holds fresh k' d l
    · exact (join_evolves fresh k d l).holds (h.logged_le_state n k' v hv)
  fresh_le_state := by
    intro k' v hv
    rw [join_state_lookup] at hv
    split_ifs at hv with hk
    · obtain rfl := Option.some.inj hv
      exact LawfulDeltaValue.le_trans (h.fresh_le_valueOr k) (LawfulDeltaValue.le_merge_left _ _)
    · exact h.fresh_le_state k' v hv
  state_has_history := by
    intro k' v hv
    by_cases hk : k' = k
    · exact ⟨l.seq, d, by rw [join_history, if_pos rfl, if_pos hk]⟩
    · rw [join_state_lookup, if_neg hk] at hv
      obtain ⟨n, e, he⟩ := h.state_has_history k' v hv
      refine ⟨n, e, ?_⟩
      rw [join_history, if_neg (Nat.ne_of_lt (h.history_lt he).2), he]
  state_le := by
    intro k' v hv u hu hd
    have hold : ∀ n e, l.history n k' = some e → Le e u := by
      intro n e he
      apply hd n e
      rw [join_history, if_neg (Nat.ne_of_lt (h.history_lt he).2), he]
    rw [join_state_lookup] at hv
    split_ifs at hv with hk
    · subst hk
      obtain rfl := Option.some.inj hv
      refine LawfulDeltaValue.merge_le (h.valueOr_le k' hu hold) (hd l.seq d ?_)
      rw [join_history, if_pos rfl, if_pos rfl]
    · exact h.state_le k' v hv u hu hold

theorem Coherent.mergeAll {fresh : V} {l : Ledger A K V} (h : l.Coherent fresh)
    (payload : FMap K V) : (l.mergeAll fresh payload).Coherent fresh :=
  mergeAll_invariant (fun _ k v _ h => h.join k v) h

end Ledger
end Commute.Gossip
