import Commute.Gossip.CheckedLedger

/-!
# Ledgers of machine values behave like ledgers of plain values

A relation between two representations of a value that the operations on values
respect is respected by every operation of a ledger, the log and its shared
storage included. None of the checked operations fails on related ledgers.

Maps are related by lookups, since an encoding does not keep their order. The
loops that number deltas depend on the order, so a payload is first brought into
the order of its counterpart: `Rel.exists_aligned`.
-/
namespace Commute

namespace FMap

section Aligned

variable {K V W : Type} {r : V → W → Prop} {m : FMap K V} {m' : FMap K W}

/-- The maps have the same keys in the same order, with related values. -/
def Aligned (r : V → W → Prop) (m : FMap K V) (m' : FMap K W) : Prop :=
  List.Forall₂ (fun e e' => e.1 = e'.1 ∧ r e.2 e'.2) m.entries m'.entries

theorem Aligned.mono {s : V → W → Prop} (hrs : ∀ v w, r v w → s v w) (h : Aligned r m m') :
    Aligned s m m' :=
  List.Forall₂.imp (fun _ _ he => ⟨he.1, hrs _ _ he.2⟩) h

theorem Aligned.singleton {k : K} {v : V} {w : W} (hv : r v w) :
    Aligned r (AList.singleton k v) (AList.singleton k w) :=
  .cons ⟨rfl, hv⟩ .nil

theorem Aligned.foldlM {ε S S' : Type} {E : ε → Prop} {R : S → S' → Prop}
    {f : S → (Σ _ : K, V) → Except ε S} {g : S' → (Σ _ : K, W) → S'} (h : Aligned r m m')
    (hvisit : ∀ s s' k v w, R s s' → r v w → Outcome E (fun t => R t (g s' ⟨k, w⟩)) (f s ⟨k, v⟩))
    {s : S} {s' : S'} (hs : R s s') :
    Outcome E (fun t => R t (m'.entries.foldl g s')) (m.entries.foldlM f s) := by
  unfold Aligned at h
  generalize m.entries = es at h
  generalize m'.entries = es' at h
  induction h generalizing s s' with
  | nil => exact hs
  | @cons e e' es es' he _ ih =>
    obtain ⟨k, v⟩ := e
    obtain ⟨k', w⟩ := e'
    obtain ⟨rfl, hv⟩ := he
    rw [List.foldlM_cons, List.foldl_cons]
    exact (hvisit s s' _ v w hs hv).bind fun t ht => ih ht

theorem Aligned.modify [DecidableEq K] (h : Aligned r m m') (k : K) {f : V → V} {g : W → W}
    (hs : ∀ v w, r v w → r (f v) (g w)) : Aligned r (m.modify k f) (m'.modify k g) := by
  unfold Aligned FMap.modify FMap.mapVals
  rw [List.forall₂_map_left_iff, List.forall₂_map_right_iff]
  apply List.Forall₂.imp _ h
  rintro e e' ⟨hkey, hv⟩
  refine ⟨hkey, ?_⟩
  dsimp only
  rw [hkey]
  split_ifs
  · exact hs _ _ hv
  · exact hv

end Aligned

variable {K V W : Type} [DecidableEq K] {r : V → W → Prop} {m : FMap K V} {m' : FMap K W}

/-- Under each key both maps have related values, or neither has one. -/
def Rel (r : V → W → Prop) (m : FMap K V) (m' : FMap K W) : Prop :=
  ∀ k, Option.Rel r (m.lookup k) (m'.lookup k)

theorem Rel.cases (h : Rel r m m') (k : K) :
    (m.lookup k = none ∧ m'.lookup k = none) ∨
      ∃ v w, m.lookup k = some v ∧ m'.lookup k = some w ∧ r v w := by
  have hk := h k
  generalize m.lookup k = a at hk
  generalize m'.lookup k = b at hk
  cases hk with
  | none => exact Or.inl ⟨rfl, rfl⟩
  | some hv => exact Or.inr ⟨_, _, rfl, rfl, hv⟩

theorem Rel.empty : Rel r (∅ : FMap K V) ∅ := fun _ => .none

theorem Rel.insert (h : Rel r m m') (k : K) {v : V} {w : W} (hv : r v w) :
    Rel r (m.insert k v) (m'.insert k w) := by
  intro k'
  rw [lookup_insert_eq, lookup_insert_eq]
  split_ifs
  · exact .some hv
  · exact h k'

theorem Rel.mapVals {V' W' : Type} {s : V' → W' → Prop} {f : K → V → V'} {g : K → W → W'}
    (h : Rel r m m') (hs : ∀ k v w, r v w → s (f k v) (g k w)) :
    Rel s (m.mapVals f) (m'.mapVals g) := by
  intro k
  rw [lookup_mapVals, lookup_mapVals]
  rcases h.cases k with ⟨hm, hm'⟩ | ⟨v, w, hm, hm', hv⟩ <;> rw [hm, hm']
  · exact .none
  · exact .some (hs k v w hv)

theorem Rel.mono {s : V → W → Prop} (hrs : ∀ v w, r v w → s v w) (h : Rel r m m') :
    Rel s m m' := by
  intro k
  rcases h.cases k with ⟨hm, hm'⟩ | ⟨v, w, hm, hm', hv⟩ <;> rw [hm, hm']
  · exact .none
  · exact .some (hrs v w hv)

theorem Rel.modify (h : Rel r m m') (k : K) {f : V → V} {g : W → W}
    (hs : ∀ v w, r v w → r (f v) (g w)) : Rel r (m.modify k f) (m'.modify k g) := by
  apply h.mapVals
  intro k' v w hv
  split_ifs
  · exact hs v w hv
  · exact hv

theorem Rel.of_lookup (h : Rel r m m') {k : K} {v : V} (hv : m.lookup k = some v) :
    ∃ w, m'.lookup k = some w ∧ r v w := by
  rcases h.cases k with ⟨hm, -⟩ | ⟨v', w, hm, hm', hr⟩
  · cases hm.symm.trans hv
  · exact ⟨w, hm', Option.some.inj (hm.symm.trans hv) ▸ hr⟩

theorem Rel.exists_aligned (h : Rel r m m') :
    ∃ m'' : FMap K W, m''.entries.Perm m'.entries ∧ Aligned r m m'' := by
  have hpick : ∀ es : List (Σ _ : K, V), (∀ e ∈ es, m.lookup e.1 = some e.2) →
      ∃ es' : List (Σ _ : K, W), List.Forall₂ (fun e e' => e.1 = e'.1 ∧ r e.2 e'.2) es es' ∧
        es'.keys = es.keys ∧ ∀ e ∈ es', m'.lookup e.1 = some e.2 := by
    intro es
    induction es with
    | nil => exact fun _ => ⟨[], .nil, rfl, by simp⟩
    | cons e es ih =>
      intro hes
      obtain ⟨es', hrel, hkeys, hmem⟩ := ih fun e' he' => hes e' (List.mem_cons_of_mem _ he')
      obtain ⟨w, hw, hr⟩ := h.of_lookup (hes e List.mem_cons_self)
      refine ⟨⟨e.1, w⟩ :: es', .cons ⟨rfl, hr⟩ hrel, ?_, ?_⟩
      · rw [List.keys_cons, List.keys_cons, hkeys]
      · exact List.forall_mem_cons.mpr ⟨hw, hmem⟩
  obtain ⟨es', hrel, hkeys, hmem⟩ := hpick m.entries fun e he => mem_entries_iff.mp he
  have hnodup : es'.NodupKeys := by
    unfold List.NodupKeys
    rw [hkeys]
    exact m.nodupKeys
  refine ⟨⟨es', hnodup⟩, ?_, hrel⟩
  apply List.lookup_ext hnodup m'.nodupKeys
  intro k w
  constructor
  · intro hw
    exact hmem ⟨k, w⟩ (List.of_mem_dlookup hw)
  · intro hw
    -- the key of `w` is one of `m`, so it was picked together with its value in `m'`
    have hkey : k ∈ es'.keys := by
      rw [hkeys]
      rcases h.cases k with ⟨-, hm'⟩ | ⟨v, -, hm, -⟩
      · cases hm'.symm.trans hw
      · exact List.mem_keys_of_mem (mem_entries_iff.mpr hm)
    obtain ⟨⟨k', w'⟩, he, rfl⟩ := List.mem_map.mp hkey
    have hw' : m'.lookup k' = some w' := hmem ⟨k', w'⟩ he
    obtain rfl : w' = w := Option.some.inj (hw'.symm.trans hw)
    exact List.mem_dlookup hnodup he

end FMap

namespace Gossip

open DeltaValue

variable {ε A K V W : Type} [DecidableEq K] {r : V → W → Prop}

/-- Two ledgers with related values and logs and with the same numbers. The history is not
compared. -/
structure Ledger.Sim (r : V → W → Prop) (l : Ledger A K V) (l' : Ledger A K W) : Prop where
  state : FMap.Rel r l.state l'.state
  seq : l.seq = l'.seq
  deltas : FMap.Rel (FMap.Aligned r) l.deltas l'.deltas
  acks : l.acks = l'.acks

structure Interval.Sim (r : V → W → Prop) (st : Interval K V) (st' : Interval K W) : Prop where
  merged : FMap.Rel (fun p q => p.1 = q.1 ∧ r p.2 q.2) st.merged st'.merged
  deltas : FMap.Rel (FMap.Aligned r) st.deltas st'.deltas

namespace Ledger

variable {l : Ledger A K V} {l' : Ledger A K W} {fresh : V} {fresh' : W}

theorem Sim.new : Sim r (Ledger.new : Ledger A K V) (Ledger.new : Ledger A K W) :=
  ⟨.empty, rfl, .empty, rfl⟩

theorem Sim.mono {s : V → W → Prop} (hrs : ∀ v w, r v w → s v w) (h : Sim r l l') :
    Sim s l l' where
  state := h.state.mono hrs
  seq := h.seq
  deltas := h.deltas.mono fun _ _ hc => hc.mono hrs
  acks := h.acks

theorem Sim.valueOr (h : Sim r l l') (hfresh : r fresh fresh') (k : K) :
    r (l.valueOr fresh k) (l'.valueOr fresh' k) := by
  unfold Ledger.valueOr
  rcases h.state.cases k with ⟨hv, hw⟩ | ⟨v, w, hv, hw, hr⟩ <;> rw [hv, hw]
  · exact hfresh
  · exact hr

theorem Sim.acked [DecidableEq A] (h : Sim r l l') (peer : A) : l.acked peer = l'.acked peer := by
  unfold Ledger.acked
  rw [h.acks]

theorem Sim.acked_eq_seq [DecidableEq A] (h : Sim r l l') {peer : A}
    (hacked : l.acked peer = l.seq) : l'.acked peer = l'.seq :=
  (h.acked peer).symm.trans (hacked.trans h.seq)

theorem Sim.ack [DecidableEq A] (h : Sim r l l') (peer : A) (n : ℕ) :
    Sim r (l.ack peer n) (l'.ack peer n) where
  state := h.state
  seq := h.seq
  deltas := h.deltas
  acks := by simp only [Ledger.ack, h.acked, h.acks]

end Ledger

variable [CheckedValue ε V] [DeltaValue W]

/-- The checked operations on the values that `r` relates return, and what they return is
related to the results of the plain operations. -/
structure Simulates (r : V → W → Prop) : Prop where
  merge : ∀ {a b x y}, r a x → r b y →
    Outcome (fun _ => False) (fun c => r c (merge x y)) (CheckedValue.merge a b)
  isLessOrEqual : ∀ {a b x y}, r a x → r b y →
    CheckedValue.isLessOrEqual a b = .ok (isLessOrEqual x y)
  clone : ∀ {a x}, r a x → Outcome (fun _ => False) (fun c => r c x) (CheckedValue.clone a)
  shared : ∀ {a b x y}, r a x → r b y → r (CheckedValue.shared a b) (shared x y)

/-- What a peer is meant to read from the encoding of a value. -/
def Encodes (r : V → W → Prop) (v : V) (w : W) : Prop := ∃ x, r v x ∧ w = decoded x

omit [CheckedValue ε V] in
theorem encodes_decoded {m : FMap K V} {m' : FMap K W} (h : FMap.Rel r m m') :
    FMap.Rel (Encodes r) m (FMap.mapVals (fun _ => decoded) m') := by
  intro k
  rw [FMap.lookup_mapVals]
  rcases h.cases k with ⟨hv, hw⟩ | ⟨v, w, hv, hw, hr⟩ <;> rw [hv, hw]
  · exact .none
  · exact .some ⟨w, hr, rfl⟩

namespace Ledger

variable {l : Ledger A K V} {l' : Ledger A K W} {fresh : V} {fresh' : W}

theorem Sim.joinM (hr : Simulates r) (h : Sim r l l') (hfresh : r fresh fresh') (k : K) {d : V}
    {d' : W} (hd : r d d') :
    Outcome (fun _ => False) (fun l₁ => Sim r l₁ (l'.join fresh' k d')) (l.joinM fresh k d) := by
  apply (hr.merge (h.valueOr hfresh k) hd).map
  intro v hv
  refine ⟨h.state.insert k hv, congrArg (· + 1) h.seq, ?_, h.acks⟩
  change FMap.Rel _ (l.deltas.insert l.seq _) (l'.deltas.insert l'.seq _)
  rw [h.seq]
  exact h.deltas.insert _ (.singleton hd)

theorem Sim.writeM (hr : Simulates r) (h : Sim r l l') (hfresh : r fresh fresh') (k : K)
    {f : V → Except ε V} {g : W → W}
    (hf : ∀ {v w}, r v w → Outcome (fun _ => False) (fun d => r d (g w)) (f v)) :
    Outcome (fun _ => False) (fun l₁ => Sim r l₁ (l'.write fresh' k g)) (l.writeM fresh k f) :=
  (hf (h.valueOr hfresh k)).bind fun _ hd => h.joinM hr hfresh k hd

theorem Sim.mergeKeyM (hr : Simulates r) (h : Sim r l l') (hfresh : r fresh fresh') (k : K)
    {v : V} {w : W} (hv : r v w) :
    Outcome (fun _ => False) (fun l₁ => Sim r l₁ (l'.mergeKey fresh' k w))
      (l.mergeKeyM fresh k (some v)) := by
  unfold Ledger.mergeKeyM Ledger.mergeKey
  rcases h.state.cases k with ⟨hx, hy⟩ | ⟨x, y, hx, hy, hxy⟩ <;> rw [hx, hy] <;> dsimp only
  · exact h.joinM hr hfresh k hv
  · change Outcome _ _ (CheckedValue.isLessOrEqual v x >>= _)
    rw [hr.isLessOrEqual hv hxy]
    change Outcome _ _ (if isLessOrEqual w y = true then _ else _)
    split_ifs
    · exact h
    · exact h.joinM hr hfresh k hv

theorem Sim.mergeAllM (hr : Simulates r) (h : Sim r l l') (hfresh : r fresh fresh')
    {payload : FMap K (Option V)} {payload' : FMap K W}
    (hp : FMap.Rel (fun p w => ∃ v, p = some v ∧ r v w) payload payload') :
    ∃ visited : FMap K W, visited.entries.Perm payload'.entries ∧
      Outcome (fun _ => False) (fun l₁ => Sim r l₁ (l'.mergeAll fresh' visited))
        (l.mergeAllM fresh payload) := by
  obtain ⟨visited, hperm, haligned⟩ := hp.exists_aligned
  refine ⟨visited, hperm, haligned.foldlM ?_ h⟩
  rintro s s' k _ w hs ⟨v, rfl, hv⟩
  exact hs.mergeKeyM hr hfresh k hv

end Ledger

namespace Interval

variable {st : Interval K V} {st' : Interval K W}

theorem Sim.absorbM (hr : Simulates r) (h : Sim r st st') (i : ℕ) (k : K) {v : V} {w : W}
    (hv : r v w) : Outcome (fun _ => False) (fun s => Sim r s (st'.absorb i ⟨k, w⟩))
      (st.absorbM i ⟨k, v⟩) := by
  unfold Interval.absorbM Interval.absorb
  dsimp only
  rcases h.merged.cases k with ⟨hx, hy⟩ | ⟨⟨first, x⟩, ⟨_, y⟩, hx, hy, rfl, hxy⟩ <;> rw [hx, hy]
  · exact (hr.clone hv).map fun c hc => ⟨h.merged.insert k ⟨rfl, hc⟩, h.deltas⟩
  · apply (hr.merge hxy hv).map
    intro c hc
    refine ⟨h.merged.insert k ⟨rfl, hc⟩, h.deltas.modify first fun cell cell' hcell => ?_⟩
    exact hcell.modify k fun old old' hold => hr.shared hold hc

theorem Sim.scanM (hr : Simulates r) (h : Sim r st st') (i : ℕ) :
    Outcome (fun _ => False) (fun s => Sim r s (st'.scan i)) (st.scanM i) := by
  have hcell : FMap.Aligned r ((st.deltas.lookup i).getD ∅) ((st'.deltas.lookup i).getD ∅) := by
    rcases h.deltas.cases i with ⟨hc, hc'⟩ | ⟨c, c', hc, hc', hcc⟩ <;> rw [hc, hc']
    · exact .nil
    · exact hcc
  exact hcell.foldlM (fun s s' k v w hs hv => hs.absorbM hr i k hv) h

end Interval

namespace Ledger

variable {l : Ledger A K V} {l' : Ledger A K W}

theorem Sim.intervalM (hr : Simulates r) (h : Sim r l l') (start : ℕ) :
    Outcome (fun _ => False) (fun s => s.Sim r (l'.interval start)) (l.intervalM start) := by
  have hscan : ∀ (ns : List ℕ) {st : Interval K V} {st' : Interval K W}, st.Sim r st' →
      Outcome (fun _ => False) (fun s => s.Sim r (ns.foldl Interval.scan st'))
        (ns.foldlM Interval.scanM st) := by
    intro ns
    induction ns with
    | nil => exact fun hst => hst
    | cons n ns ih => exact fun hst => (hst.scanM hr n).bind fun s hs => ih hs
  unfold Ledger.intervalM Ledger.interval
  rw [h.seq]
  exact hscan _ ⟨.empty, h.deltas⟩

theorem Sim.deltaM [DecidableEq A] (hr : Simulates r) (h : Sim r l l') (peer : A) :
    Outcome (fun _ => False)
      (fun p => p.2.Sim r (l'.delta peer).2 ∧ Option.Rel
        (fun a b => a.1 = b.1 ∧ FMap.Rel (Encodes r) a.2 b.2) p.1 (l'.delta peer).1)
      (l.deltaM peer) := by
  unfold Ledger.deltaM
  rw [h.acked]
  rcases Ledger.delta_cases peer l' with ⟨hzero, he⟩ | ⟨hpos, hlt, he⟩ | ⟨hpos, hle, he⟩ <;> rw [he]
  · rw [if_pos hzero]
    exact ⟨h, .some ⟨h.seq, encodes_decoded h.state⟩⟩
  · rw [if_neg hpos.ne', if_pos (h.seq ▸ hlt)]
    apply (h.intervalM hr _).map
    intro st hst
    have hpayload : FMap.Rel r st.payload (l'.interval (l'.acked peer)).payload :=
      hst.merged.mapVals fun _ _ _ hp => hp.2
    exact ⟨⟨h.state, h.seq, hst.deltas, h.acks⟩, .some ⟨h.seq, encodes_decoded hpayload⟩⟩
  · rw [if_neg hpos.ne', if_neg (h.seq ▸ hle.not_gt)]
    exact ⟨h, .none⟩

end Ledger

end Gossip
end Commute
