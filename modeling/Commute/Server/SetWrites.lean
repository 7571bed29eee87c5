import Commute.Server.SetStore

/-!
# Set writes take effect locally and only where asked

A write clones the markers of its element, updates the clone and merges it back.
`Written` is the effect of a write on a store: the markers of the element are
the old ones with `Update` applied, and nothing else changed. A set request is a
sequence of such writes, removals first, so that an element it adds is among the
values it returns.
-/
namespace Commute.Server

open Crdt Gossip

/-- The runtime allocates no more bytes at once, so no slice has more elements. -/
def maxAlloc : ℕ := 2 ^ 48

structure SetRequestBody (S : Type) where
  add : List S
  remove : List S
  contexts : FMap S S

/-- The answer to a set request, with its contexts before they are encoded. -/
inductive SetResponse (S : Type) where
  | badRequest
  | notFound
  | ok (values : List S) (contexts : FMap S (VV64 S))

namespace SetStore

variable {A S : Type} [DecidableEq S]

/-- Every set belongs to the node of the store, its counters are below `b` and none of its
slices is longer than `m`. -/
structure Bounded (b m : ℕ) (st : SetStore A S) : Prop where
  owned : ∀ key set, st.sets.state.lookup key = some set → set.nodeID = st.nodeID
  below : ∀ key set, st.sets.state.lookup key = some set → set.All (DVVSet64.Below b m)

/-- The effect of a write that marks `value` in the set under `key`. -/
structure Written (marker : Bool) (key value : S) (vv : VV64 S) (st st' : SetStore A S) :
    Prop where
  nodeID : st'.nodeID = st.nodeID
  owned : ∀ set, st'.sets.state.lookup key = some set → set.nodeID = st.nodeID
  exact : ∃ u w, ((st.markers key value).getD .new).update st.nodeID vv marker = .ok u ∧
    st'.markers key value = some w ∧ ∀ i, w.state.lookup i = u.state.lookup i
  elements : ∀ other, other ≠ value → st'.markers key other = st.markers key other
  keys : ∀ other, other ≠ key → st'.sets.state.lookup other = st.sets.state.lookup other

section Writes

variable {b m : ℕ} {marker : Bool} {key value : S} {vv : VV64 S} {st st' : SetStore A S}

theorem Bounded.mono {b' m' : ℕ} (h : st.Bounded b m) (hb : b ≤ b') (hm : m ≤ m') :
    st.Bounded b' m' where
  owned := h.owned
  below := fun key set hset value ds hds i e he =>
    ⟨(h.below key set hset value ds hds i e he).1.trans_le hb,
      (h.below key set hset value ds hds i e he).2.trans hm⟩

theorem Bounded.markers (h : st.Bounded b m) {ds : DVVSet64 S Bool}
    (hds : st.markers key value = some ds) : ds.Below b m := by
  obtain ⟨set, hset, hds⟩ := Option.bind_eq_some_iff.mp hds
  exact h.below key set hset value ds hds

theorem Bounded.getD_markers (h : st.Bounded b m) (key value : S) :
    ((st.markers key value).getD .new).Below b m := by
  cases hds : st.markers key value with
  | none => simp [DVVSet64.Below, DVVSet64.new]
  | some ds => exact h.markers hds

theorem getD_markers (key value : S) (st : SetStore A S) : (st.markers key value).getD .new =
    (st.sets.valueOr (.new st.nodeID) key).element value := by
  unfold SetStore.markers Ledger.valueOr
  cases st.sets.state.lookup key <;> rfl

theorem lookup_valueOr (key value : S) (st : SetStore A S) :
    (st.sets.valueOr (.new st.nodeID) key).state.lookup value = st.markers key value := by
  unfold SetStore.markers Ledger.valueOr
  cases st.sets.state.lookup key <;> rfl

theorem Bounded.valueOr_nodeID (h : st.Bounded b m) (key : S) :
    (st.sets.valueOr (.new st.nodeID) key).nodeID = st.nodeID := by
  unfold Ledger.valueOr
  cases hset : st.sets.state.lookup key with
  | none => rfl
  | some set => exact h.owned key set hset

theorem mem_getSet : value ∈ (st.getSet key).1 ↔
    ∃ ds, st.markers key value = some ds ∧ ∃ i e, ds.state.lookup i = some e ∧ true ∈ e.values := by
  unfold getSet SetStore.markers
  cases st.sets.state.lookup key with
  | none => simp
  | some set =>
    rw [ORSet64.mem_values, Option.bind_some]
    cases hds : set.state.lookup value with
    | none => simp [ORSet64.contains, hds]
    | some ds => simp [ORSet64.contains_eq_true_iff hds]

theorem getSet_context {ctx : VV64 S} (h : (st.getSet key).2.1.lookup value = some ctx) :
    ∃ ds, st.markers key value = some ds ∧ ctx = ds.join := by
  unfold getSet at h
  unfold SetStore.markers
  cases hset : st.sets.state.lookup key with
  | none => simp [hset] at h
  | some set =>
    rw [hset] at h
    dsimp only at h
    rw [ORSet64.causalContexts, FMap.lookup_mapVals] at h
    obtain ⟨ds, hds, rfl⟩ := Option.map_eq_some_iff.mp h
    exact ⟨ds, hds, rfl⟩

theorem markSet_written [Inhabited S] (marker : Bool) (key value : S) (h : st.Bounded b m)
    (hb : b ≤ 2 ^ 63) (hm : m < 2 ^ 62) (hvv : VV64.Below (2 ^ 62) vv) :
    ∃ st', st.markSet marker key value vv = .ok st' ∧ Written marker key value vv st st' := by
  have hbelow : ((st.sets.valueOr (.new st.nodeID) key).element value).Below (2 ^ 63) m := by
    rw [← getD_markers]
    exact (h.mono hb le_rfl).getD_markers key value
  obtain ⟨d, set', hd, hset', hmarked⟩ := ORSet64.merge_mark marker value vv hbelow hm hvv
  have hnode := h.valueOr_nodeID key
  refine ⟨⟨st.nodeID, .record key d { st.sets with state := st.sets.state.insert key set' }⟩,
    ?_, rfl, ?_, ?_, ?_, ?_⟩
  · unfold markSet Ledger.writeM Ledger.joinM
    rw [hd, Fault.ok_bind]
    change Except.map _ (Except.map _ (ORSet64.merge _ d)) = _
    rw [hset']
    rfl
  · intro set hset
    rw [Ledger.record, AList.lookup_insert] at hset
    rw [← Option.some.inj hset, hmarked.nodeID, hnode]
  · obtain ⟨u, w, hu, hw, hlookup⟩ := hmarked.exact
    rw [hnode] at hu
    refine ⟨u, w, ?_, ?_, hlookup⟩
    · rw [getD_markers]
      exact hu
    · rw [SetStore.markers, Ledger.record, AList.lookup_insert]
      exact hw
  · intro other hother
    rw [← lookup_valueOr key other st, ← hmarked.others other hother, SetStore.markers,
      Ledger.record, AList.lookup_insert]
    rfl
  · intro other hother
    exact AList.lookup_insert_ne hother

theorem Written.bounded (hw : Written marker key value vv st st') (h : st.Bounded b m)
    (hpos : 0 < b) (hb : b ≤ 2 ^ 63) (hvv : VV64.Below b vv) : st'.Bounded (b + 1) (m + 1) := by
  obtain ⟨u, w, hu, hmarkers, hlookup⟩ := hw.exact
  refine ⟨?_, ?_⟩
  · intro key' set hset
    by_cases hk : key' = key
    · rw [hw.nodeID]
      exact hw.owned set (hk ▸ hset)
    · rw [hw.nodeID]
      exact h.owned key' set (hw.keys key' hk ▸ hset)
  · intro key' set hset value' ds hds
    by_cases hk : key' = key
    · subst hk
      have hds' : st'.markers key' value' = some ds := by simp [SetStore.markers, hset, hds]
      by_cases hv : value' = value
      · subst hv
        obtain rfl := Option.some.inj (hmarkers.symm.trans hds')
        intro i e he
        exact (h.getD_markers key' value').update hpos hb hvv hu i e (hlookup i ▸ he)
      · rw [hw.elements value' hv] at hds'
        exact (h.mono (Nat.le_succ b) (Nat.le_succ m)).markers hds'
    · rw [hw.keys key' hk] at hset
      exact (h.mono (Nat.le_succ b) (Nat.le_succ m)).below key' set hset value' ds hds

theorem Written.mem_getSet (hw : Written true key value vv st st') (h : st.Bounded b m)
    (hb : b ≤ 2 ^ 63) : value ∈ (st'.getSet key).1 := by
  obtain ⟨u, w, hu, hmarkers, hlookup⟩ := hw.exact
  obtain ⟨u', hu', hself, -⟩ :=
    DVVSet64.update_eq_ok st.nodeID vv true ((h.getD_markers key value).small hb)
  obtain rfl := Except.ok.inj (hu.symm.trans hu')
  rw [SetStore.mem_getSet]
  refine ⟨w, hmarkers, st.nodeID, _, (hlookup _).trans hself, ?_⟩
  cases (((st.markers key value).getD .new).state.lookup st.nodeID) <;> simp [DVVSet64.ownEntry]

/-- A removal with the context that the store returns leaves no add marker. -/
theorem Written.notMem_getSet (hw : Written false key value vv st st') (h : st.Bounded b m)
    (hb : b ≤ 2 ^ 63) {ctx : VV64 S} (hctx : (st.getSet key).2.1.lookup value = some ctx)
    (hvv : ∀ i, vv.lookup i = ctx.lookup i) : value ∉ (st'.getSet key).1 := by
  obtain ⟨ds, hds, rfl⟩ := getSet_context hctx
  obtain ⟨u, w, hu, hmarkers, hlookup⟩ := hw.exact
  rw [hds, Option.getD_some] at hu
  have hkept : ∀ i e, ds.state.lookup i = some e → DVVSet64.kept vv i e = [] := by
    intro i e he
    refine DVVSet64.kept_eq_nil (c := e.counter) ?_ (UInt64.le_refl _)
    rw [hvv, DVVSet64.join, FMap.lookup_mapVals, he]
    rfl
  rw [SetStore.mem_getSet]
  rintro ⟨w', hw', i, e', he', htrue⟩
  obtain rfl := Option.some.inj (hmarkers.symm.trans hw')
  rw [hlookup] at he'
  rcases DVVSet64.update_cases ((h.markers hds).small hb) hu he' with
    ⟨-, rfl⟩ | ⟨e, he, rfl⟩ | ⟨e, he, rfl⟩
  · simp at htrue
  · simp [hkept i e he] at htrue
  · simp [hkept i e he] at htrue

theorem Written.mem_getSet_of_mem (hw : Written true key value vv st st') (h : st.Bounded b m)
    (hb : b ≤ 2 ^ 63) {other : S} (hmem : other ∈ (st.getSet key).1) :
    other ∈ (st'.getSet key).1 := by
  by_cases ho : other = value
  · exact ho ▸ hw.mem_getSet h hb
  · rw [SetStore.mem_getSet, hw.elements other ho]
    exact SetStore.mem_getSet.mp hmem

end Writes

section Requests

theorem contexts_decoded {decodeContext : S → Except String (VV64 S)} {contexts : FMap S S}
    {vvs : FMap S (VV64 S)}
    (h : FMap.upsertAllM (fun _ _ raw => decodeContext raw) contexts ∅ = .ok vvs) {v : S}
    {vv : VV64 S} (hvv : vvs.lookup v = some vv) :
    ∃ raw, contexts.lookup v = some raw ∧ decodeContext raw = .ok vv := by
  have hloop : Outcome (fun _ => True) (fun vvs : FMap S (VV64 S) => ∀ v vv,
      vvs.lookup v = some vv → ∃ raw, contexts.lookup v = some raw ∧ decodeContext raw = .ok vv)
      (FMap.upsertAllM (fun _ _ raw => decodeContext raw) contexts ∅) := by
    refine FMap.upsertAllM_outcome ?_ (by simp)
    intro v _ raw hraw _
    cases hd : decodeContext raw with
    | error text => exact trivial
    | ok vv => exact ⟨raw, hraw, hd⟩
  exact hloop.of_ok h v vv hvv

variable [Inhabited S]

/-- Answer a set request whose body was read; `decodeContext` reads one encoded context.
Every write finds the context of its element, or the empty one. -/
def postSet (decodeContext : S → Except String (VV64 S)) (key : S) (body : SetRequestBody S)
    (st : SetStore A S) : Except Fault (SetResponse S × SetStore A S) :=
  if key = default then .ok (.badRequest, st)
  else if body.add.isEmpty ∧ body.remove.isEmpty then .ok (.badRequest, st)
  else match FMap.upsertAllM (fun _ _ raw => decodeContext raw) body.contexts ∅ with
  | .error _ => .ok (.badRequest, st)
  | .ok vvs => do
    let st ← body.remove.foldlM (fun st v => st.removeSet key v ((vvs.lookup v).getD ∅)) st
    let st ← body.add.foldlM (fun st v => st.addSet key v ((vvs.lookup v).getD ∅)) st
    match st.getSet key with
    | (_, _, false) => .ok (.notFound, st)
    | (values, contexts, true) => .ok (.ok values contexts, st)

variable {b m : ℕ} {vvs : S → VV64 S} {st : SetStore A S}

theorem foldlM_removeSet (key : S) (hvvs : ∀ v, VV64.Below (2 ^ 62) (vvs v)) (vs : List S)
    (h : st.Bounded b m) (hpos : 2 ^ 62 ≤ b) (hb : b + vs.length ≤ 2 ^ 63)
    (hm : m + vs.length < 2 ^ 62) :
    ∃ st', vs.foldlM (fun st v => st.removeSet key v (vvs v)) st = .ok st' ∧
      st'.Bounded (b + vs.length) (m + vs.length) := by
  induction vs generalizing st b m with
  | nil => exact ⟨st, rfl, h⟩
  | cons v vs ih =>
    rw [List.length_cons] at hb hm ⊢
    have hstep : ∃ st', st.removeSet key v (vvs v) = .ok st' ∧ st'.Bounded (b + 1) (m + 1) := by
      cases hds : st.markers key v with
      | none => exact ⟨st, removeSet_of_none hds _, h.mono (Nat.le_succ b) (Nat.le_succ m)⟩
      | some ds =>
        obtain ⟨st', hst', hw⟩ := markSet_written false key v h (by omega) (by omega) (hvvs v)
        refine ⟨st', (removeSet_of_markers hds _).trans hst', hw.bounded h (by omega) (by omega) ?_⟩
        exact fun i c hc => (hvvs v i c hc).trans_le hpos
    obtain ⟨st₁, hst₁, h₁⟩ := hstep
    obtain ⟨st₂, hst₂, h₂⟩ := ih h₁ (by omega) (by omega) (by omega)
    refine ⟨st₂, ?_, ?_⟩
    · rw [List.foldlM_cons, hst₁]
      exact hst₂
    · rwa [Nat.add_right_comm b, Nat.add_right_comm m] at h₂

theorem foldlM_addSet (key : S) (hvvs : ∀ v, VV64.Below (2 ^ 62) (vvs v)) (vs : List S)
    (h : st.Bounded b m) (hpos : 2 ^ 62 ≤ b) (hb : b + vs.length ≤ 2 ^ 63)
    (hm : m + vs.length < 2 ^ 62) :
    ∃ st', vs.foldlM (fun st v => st.addSet key v (vvs v)) st = .ok st' ∧
      ∀ v, v ∈ vs ∨ v ∈ (st.getSet key).1 → v ∈ (st'.getSet key).1 := by
  induction vs generalizing st b m with
  | nil => exact ⟨st, rfl, fun v hv => by simpa using hv⟩
  | cons v vs ih =>
    rw [List.length_cons] at hb hm
    obtain ⟨st₁, hst₁, hw⟩ := markSet_written true key v h (by omega) (by omega) (hvvs v)
    have h₁ := hw.bounded h (by omega) (by omega) fun i c hc => (hvvs v i c hc).trans_le hpos
    obtain ⟨st₂, hst₂, hmem⟩ := ih h₁ (by omega) (by omega) (by omega)
    refine ⟨st₂, ?_, ?_⟩
    · rw [List.foldlM_cons, addSet_eq_markSet, hst₁]
      exact hst₂
    · rintro u (hu | hu)
      · rcases List.mem_cons.mp hu with rfl | hu
        · exact hmem u (Or.inr (hw.mem_getSet h (by omega)))
        · exact hmem u (Or.inl hu)
      · exact hmem u (Or.inr (hw.mem_getSet_of_mem h (by omega) hu))

/-- A request whose writes stay in range is answered, and if it succeeds it returns every
element it adds. -/
theorem postSet_mem {key : S} {decodeContext : S → Except String (VV64 S)} {body : SetRequestBody S}
    (hcontexts : ∀ v raw vv, body.contexts.lookup v = some raw → decodeContext raw = .ok vv →
      VV64.Below (2 ^ 62) vv)
    (h : st.Bounded b m) (hpos : 2 ^ 62 ≤ b)
    (hb : b + body.remove.length + body.add.length ≤ 2 ^ 63)
    (hm : m + body.remove.length + body.add.length < 2 ^ 62) :
    ∃ resp st', st.postSet decodeContext key body = .ok (resp, st') ∧
      ∀ values contexts, resp = .ok values contexts → ∀ v ∈ body.add, v ∈ values := by
  unfold postSet
  split_ifs
  · exact ⟨.badRequest, st, rfl, by simp⟩
  · exact ⟨.badRequest, st, rfl, by simp⟩
  cases hdecode : FMap.upsertAllM (fun _ _ raw => decodeContext raw) body.contexts ∅ with
  | error text => exact ⟨.badRequest, st, rfl, by simp⟩
  | ok vvs =>
    have hvvs : ∀ v, VV64.Below (2 ^ 62) ((vvs.lookup v).getD ∅) := by
      intro v
      cases hvv : vvs.lookup v with
      | none => simp [VV64.Below]
      | some vv =>
        obtain ⟨raw, hraw, hvv⟩ := contexts_decoded hdecode hvv
        exact hcontexts v raw vv hraw hvv
    obtain ⟨st₁, hst₁, h₁⟩ :=
      foldlM_removeSet key hvvs body.remove h hpos (by omega) (by omega)
    obtain ⟨st₂, hst₂, hmem⟩ := foldlM_addSet key hvvs body.add h₁ (by omega) hb hm
    dsimp only
    rw [hst₁, Fault.ok_bind, hst₂, Fault.ok_bind]
    rcases hget : st₂.getSet key with ⟨values, contexts, found⟩
    cases found with
    | false => exact ⟨.notFound, st₂, rfl, by simp⟩
    | true =>
      refine ⟨.ok values contexts, st₂, rfl, ?_⟩
      rintro _ _ ⟨⟩ v hv
      have := hmem v (Or.inl hv)
      rwa [hget] at this

/-- Writes of sets are exact and local, and a request returns what it adds. -/
theorem setWrites_local (st : SetStore A S) (h : st.Bounded (2 ^ 62) maxAlloc) (key value : S)
    (vv : VV64 S) (hvv : VV64.Below (2 ^ 62) vv) :
    (∃ st', st.addSet key value vv = .ok st' ∧ Written true key value vv st st' ∧
      value ∈ (st'.getSet key).1) ∧
    (∀ ds, st.markers key value = some ds → ∃ st', st.removeSet key value vv = .ok st' ∧
      Written false key value vv st st' ∧
      ∀ ctx, (st.getSet key).2.1.lookup value = some ctx → (∀ i, vv.lookup i = ctx.lookup i) →
        value ∉ (st'.getSet key).1) ∧
    (st.markers key value = none → st.removeSet key value vv = .ok st) ∧
    ∀ (decodeContext : S → Except String (VV64 S)) (body : SetRequestBody S),
      (∀ v raw vv, body.contexts.lookup v = some raw → decodeContext raw = .ok vv →
        VV64.Below (2 ^ 62) vv) →
      body.add.length ≤ maxAlloc → body.remove.length ≤ maxAlloc →
      ∃ resp st', st.postSet decodeContext key body = .ok (resp, st') ∧
        ∀ values contexts, resp = .ok values contexts → ∀ v ∈ body.add, v ∈ values := by
  have hb : (2 : ℕ) ^ 62 ≤ 2 ^ 63 := by decide
  have hm : maxAlloc < 2 ^ 62 := by decide
  refine ⟨?_, ?_, ?_, ?_⟩
  · obtain ⟨st', hst', hw⟩ := markSet_written true key value h hb hm hvv
    exact ⟨st', hst', hw, hw.mem_getSet h hb⟩
  · intro ds hds
    obtain ⟨st', hst', hw⟩ := markSet_written false key value h hb hm hvv
    refine ⟨st', (removeSet_of_markers hds vv).trans hst', hw, ?_⟩
    intro ctx hctx hlookup
    exact hw.notMem_getSet h hb hctx hlookup
  · exact fun hnone => removeSet_of_none hnone vv
  · intro decodeContext body hcontexts hadd hremove
    unfold maxAlloc at hadd hremove
    refine postSet_mem hcontexts h le_rfl ?_ ?_
    · omega
    · unfold maxAlloc
      omega

/-- A store with one set, whose only element was added by another node. -/
def seeded : SetStore Bool String :=
  ⟨"a", { Ledger.new with
    state := AList.singleton "k" ⟨"a", AList.singleton "x" ⟨AList.singleton "b" ⟨1, [true]⟩⟩⟩ }⟩

theorem seeded_bounded : seeded.Bounded (2 ^ 62) maxAlloc := by
  refine ⟨?_, ?_⟩
  · intro key set hset
    simp only [seeded, FMap.lookup_singleton, Option.ite_none_right_eq_some, Option.some.injEq]
      at hset
    simp [← hset.2, seeded]
  · intro key set hset value ds hds i e he
    simp only [seeded, FMap.lookup_singleton, Option.ite_none_right_eq_some, Option.some.injEq]
      at hset
    simp only [← hset.2, FMap.lookup_singleton, Option.ite_none_right_eq_some, Option.some.injEq]
      at hds
    simp only [← hds.2, FMap.lookup_singleton, Option.ite_none_right_eq_some, Option.some.injEq]
      at he
    rw [← he.2]
    decide

/-- The element is removed with the context that the store returns for it, and a request that
removes and adds it returns it. -/
theorem setWrites_local_seeded :
    (∃ st', seeded.removeSet "k" "x" (AList.singleton "b" 1) = .ok st' ∧
      "x" ∈ (seeded.getSet "k").1 ∧ "x" ∉ (st'.getSet "k").1) ∧
    ∃ values contexts st', seeded.postSet (fun _ => .ok ∅) "k" ⟨["x"], ["x", "y"], ∅⟩ =
      .ok (.ok values contexts, st') ∧ "x" ∈ values := by
  have hvv : VV64.Below (2 ^ 62) (AList.singleton "b" 1 : VV64 String) := by
    intro i c hc
    simp only [FMap.lookup_singleton, Option.ite_none_right_eq_some, Option.some.injEq] at hc
    rw [← hc.2]
    decide
  obtain ⟨-, hremove, -, hpost⟩ := setWrites_local seeded seeded_bounded "k" "x" _ hvv
  constructor
  · obtain ⟨st', hst', -, hnot⟩ := hremove _ rfl
    exact ⟨st', hst', by decide, hnot _ rfl fun _ => rfl⟩
  · obtain ⟨resp, st', hresp, hmem⟩ :=
      hpost (fun _ => .ok ∅) ⟨["x"], ["x", "y"], ∅⟩ (by simp) (by decide) (by decide)
    have hok : ∃ values contexts st'', seeded.postSet (fun _ => .ok ∅) "k" ⟨["x"], ["x", "y"], ∅⟩ =
      .ok (.ok values contexts, st'') := ⟨_, _, _, rfl⟩
    obtain ⟨values, contexts, st'', hok⟩ := hok
    have hpair := Prod.mk.inj (Except.ok.inj (hresp.symm.trans hok))
    exact ⟨values, contexts, st'', hok, hmem values contexts hpair.1 "x" (by simp)⟩

end Requests

end SetStore
end Commute.Server
