import Commute.Server.Quiescence
import Commute.Server.StoreSimulation

/-!
# Stores that exchange documents refine stores that exchange values

Every run of the stores of pointers and words is matched, call by call, by a run of
the plain stores, and no call of it panics. So what is proved of plain clusters holds
of what the getters return on the machine.

The matching run is one of clients that pass on contexts of the same store. A context
may have lost its order on the way to a client and back; only its counters matter.
-/
namespace Commute.Server

open Crdt Gossip Json

theorem mem_read_iff {A X : Type} {P : Prop} [Decidable P] {o : Option X} {l : List (A × X)}
    {a c : A} {x : X} : (c, x) ∈ (if P then (o.map fun x => (a, x)).toList ++ l else l) ↔
      (P ∧ c = a ∧ o = some x) ∨ (c, x) ∈ l := by
  split_ifs with hP
  · cases o with
    | none => simp
    | some y => simp [hP, eq_comm]
  · simp [hP]

theorem SetHistory.mem_read {A S : Type} [LinearOrder S] {g : SetHistory A S} {a c : A} {key : S}
    {vvs : FMap S (VV S)} {e : S × S} {vv : VV S} : (c, vv) ∈ (g.read a key vvs).contexts e ↔
      (e.1 = key ∧ c = a ∧ vvs.lookup e.2 = some vv) ∨ (c, vv) ∈ g.contexts e :=
  mem_read_iff

namespace RawStore

variable {A T : Type}

/-- A context names only nodes that the markers of its element name. -/
theorem Over.getSet_ids {V : ByteString → Prop} {st : RawStore A T} (h : st.Over V)
    {key value : ByteString} {r : List ByteString × FMap ByteString (VV64 ByteString) × Bool}
    (hr : st.getSet key = .ok r) {vv : VV64 ByteString} (hvv : r.2.1.lookup value = some vv) :
    ∀ i n, vv.lookup i = some n → V i := by
  unfold RawStore.getSet at hr
  cases hs : st.sets.state.lookup key with
  | none =>
    rw [hs] at hr
    obtain rfl := Except.ok.inj hr
    cases hvv
  | some set =>
    rw [hs] at hr
    obtain ⟨values, -, hr⟩ := Fault.bind_eq_ok.mp hr
    obtain ⟨vvs, hvvs, hr⟩ := Fault.bind_eq_ok.mp hr
    obtain rfl := Except.ok.inj hr
    have hsolid := (h.sets.state key set hs).2.2
    have hids : Outcome (fun _ => True) (fun vvs : FMap ByteString (VV64 ByteString) =>
        ∀ e vv, vvs.lookup e = some vv → ∀ i n, vv.lookup i = some n → V i)
        set.causalContexts := by
      apply FMap.upsertAllM_outcome _ (by simp)
      intro e _ p hp _
      obtain ⟨d, rfl, hd⟩ := hsolid.lookup hp
      intro i n hn
      change (FMap.mapVals (fun _ (e : DVVEntry64 Bool) => e.counter) d).lookup i = some n at hn
      rw [FMap.lookup_mapVals] at hn
      obtain ⟨entry, hentry, -⟩ := Option.map_eq_some_iff.mp hn
      exact hd.2 i entry hentry
    exact hids.of_ok hvvs value vv hvv

/-- Every getter returns what it returns of the plain store. Values come in any order, contexts
have the same counters, and a nil value is the document `null`. -/
structure Answers (st : RawStore A T) (st' : Store A ByteString T RawMessage) : Prop where
  getCounter : ∀ key, st.getCounter key = st'.getCounter key
  getRegister : ∀ key, (st.getRegister key).1.getD .null = (st'.getRegister key).1.getD .null ∧
    (st.getRegister key).2 = (st'.getRegister key).2
  getSet : ∀ key, Outcome (fun _ => False) (fun r => r.1.Perm (st'.getSet key).1 ∧
    FMap.Rel DVVSet64.SameVV r.2.1 (st'.getSet key).2.1 ∧ r.2.2 = (st'.getSet key).2.2)
      (st.getSet key)

/-- No getter tells the two stores apart; values come in any order. -/
structure SameReads (st st' : RawStore A T) : Prop where
  getCounter : ∀ key, st.getCounter key = st'.getCounter key
  getRegister : ∀ key, (st.getRegister key).1.getD .null = (st'.getRegister key).1.getD .null ∧
    (st.getRegister key).2 = (st'.getRegister key).2
  getSet : ∀ key, ∃ r r', st.getSet key = .ok r ∧ st'.getSet key = .ok r' ∧ r.1.Perm r'.1 ∧
    (∀ value, (r.2.1.lookup value).map (fun vv i => vv.lookup i) =
      (r'.2.1.lookup value).map fun vv i => vv.lookup i) ∧ r.2.2 = r'.2.2

theorem Sim.answers [TimeText T] {b : ℕ} {st : RawStore A T} {st' : Store A ByteString T RawMessage}
    (h : st.Sim b st') : st.Answers st' where
  getCounter := h.getCounter
  getRegister := h.getRegister
  getSet key := (h.getSet key).imp fun _ hr => ⟨hr.1, hr.2.1.mono fun _ _ hvv => hvv.2, hr.2.2⟩

theorem contexts_congr {m m' : FMap ByteString (VV64 ByteString)}
    {u u' : FMap ByteString (VV ByteString)} (h : FMap.Rel DVVSet64.SameVV m u)
    (h' : FMap.Rel DVVSet64.SameVV m' u') {value : ByteString}
    (hu : (u.lookup value).map (fun vv i => vv.lookup i) =
      (u'.lookup value).map fun vv i => vv.lookup i) :
    (m.lookup value).map (fun vv i => vv.lookup i) =
      (m'.lookup value).map fun vv i => vv.lookup i := by
  rcases h.cases value with ⟨hm, hn⟩ | ⟨vv, wv, hm, hn, hsame⟩ <;>
    rcases h'.cases value with ⟨hm', hn'⟩ | ⟨vv', wv', hm', hn', hsame'⟩ <;>
    rw [hn, hn'] at hu <;> rw [hm, hm']
  · cases hu
  · cases hu
  · apply congrArg some
    funext i
    have hi : (wv.lookup i) = wv'.lookup i := congrFun (Option.some.inj hu) i
    have hwords : (vv.lookup i).map UInt64.toNat = (vv'.lookup i).map UInt64.toNat := by
      rw [← hsame i, ← hsame' i, DVVSet64.toVV, DVVSet64.toVV, FMap.lookup_mapVals,
        FMap.lookup_mapVals] at hi
      exact hi
    exact Option.map_injective (fun _ _ => UInt64.toNat_inj.mp) hwords

theorem Answers.sameReads {st₁ st₂ : RawStore A T} {st₁' st₂' : Store A ByteString T RawMessage}
    (h₁ : st₁.Answers st₁') (h₂ : st₂.Answers st₂') (h : Store.SameReads st₁' st₂') :
    st₁.SameReads st₂ where
  getCounter key := (h₁.getCounter key).trans ((h.getCounter key).trans (h₂.getCounter key).symm)
  getRegister key := by
    rw [(h₁.getRegister key).1, (h₁.getRegister key).2, (h₂.getRegister key).1,
      (h₂.getRegister key).2, h.getRegister]
    exact ⟨rfl, rfl⟩
  getSet key := by
    obtain ⟨r₁, hr₁, hvalues₁, hcontexts₁, hfound₁⟩ := (h₁.getSet key).exists_ok
    obtain ⟨r₂, hr₂, hvalues₂, hcontexts₂, hfound₂⟩ := (h₂.getSet key).exists_ok
    obtain ⟨hvalues, hcontexts, hfound⟩ := h.getSet key
    rw [decidableEq_byteString] at hcontexts
    refine ⟨r₁, r₂, hr₁, hr₂, hvalues₁.trans (hvalues.trans hvalues₂.symm), fun value => ?_,
      hfound₁.trans (hfound.trans hfound₂.symm)⟩
    exact contexts_congr hcontexts₁ hcontexts₂ (hcontexts value)

end RawStore

namespace RawCluster

variable {A T : Type} [TimeText T] {b : ℕ}

/-- Every node id in a context that was returned is valid. -/
def ValidContexts (w : RawCluster A T) : Prop :=
  ∀ e a vv, (a, vv) ∈ w.contexts e → ∀ i n, vv.lookup i = some n → Valid i

/-- The plain cluster that a cluster stands for. -/
structure Sim (b : ℕ) (w : RawCluster A T) (w' : Cluster A ByteString T RawMessage) : Prop where
  store : ∀ a, (w.store a).Sim b (w'.store a)
  valid : ∀ a, (w.store a).Over Valid
  sent : ∀ p ∈ w.sent, ∃ msg, ⟨p.src, p.dst, msg⟩ ∈ w'.sent ∧
    ∃ m, WireMessage.unmarshalJSON p.body = .ok m ∧ m.Sim b msg
  acks : ∀ p ∈ w.acks, ∃ ack, ⟨p.src, p.dst, ack⟩ ∈ w'.acks ∧
    AckMessage.unmarshalJSON p.body = .ok ack
  contexts : ∀ e a vv, (a, vv) ∈ w.contexts e → VV64.Below (b + 1) vv ∧
    ∃ vv', (a, vv') ∈ w'.history.contexts e ∧ DVVSet64.SameVV vv vv'
  validContexts : w.ValidContexts

variable {w : RawCluster A T} {w' v' : Cluster A ByteString T RawMessage} {a : A}

theorem Sim.init {id : A → ByteString} (hid : ∀ a, Valid (id a)) :
    Sim b (RawCluster.init id : RawCluster A T) (.init id) where
  store a := .new (id a)
  valid a := .new (hid a)
  sent _ hp := absurd hp List.not_mem_nil
  acks _ hp := absurd hp List.not_mem_nil
  contexts _ _ _ hc := absurd hc List.not_mem_nil
  validContexts _ _ _ hc := absurd hc List.not_mem_nil

theorem Sim.mono {c : ℕ} (hb : b ≤ c) (h : Sim b w w') : Sim c w w' where
  store a := (h.store a).mono hb
  valid := h.valid
  sent p hp := by
    obtain ⟨msg, hmem, m, hm, hsim⟩ := h.sent p hp
    exact ⟨msg, hmem, m, hm, hsim.mono hb⟩
  acks := h.acks
  contexts e a vv hc := by
    obtain ⟨hbelow, hvv'⟩ := h.contexts e a vv hc
    exact ⟨fun i x hx => (hbelow i x hx).trans_le (Nat.succ_le_succ hb), hvv'⟩
  validContexts := h.validContexts

theorem Sim.context (h : Sim b w w') {e : ByteString × ByteString} {vv : VV64 ByteString}
    (hvv : w.OwnReturned a e vv) : VV64.Below (b + 1) vv ∧
      ∃ vv', OwnContext w'.sets a e vv' ∧ DVVSet64.SameVV vv vv' := by
  have hlookup : ∀ (m : VV64 ByteString) i,
      (DVVSet64.toVV m).lookup i = (m.lookup i).map UInt64.toNat := fun m i =>
    FMap.lookup_mapVals _ _ _
  rcases hvv with hnone | ⟨u, hu, hsame⟩
  · refine ⟨?_, ∅, Or.inl rfl, ?_⟩
    · intro i x hx
      cases (hnone i).symm.trans hx
    · intro i
      rw [hlookup, hnone]
      rfl
  · obtain ⟨hbelow, vv', hmem, hvv'⟩ := h.contexts e a u hu
    refine ⟨?_, vv', Or.inr hmem, ?_⟩
    · intro i x hx
      exact hbelow i x ((hsame i).symm.trans hx)
    · intro i
      rw [hlookup, hsame, ← hlookup]
      exact hvv' i

variable [DecidableEq A]

section Step

theorem Sim.put (h : Sim b w w') {st : RawStore A T} {st' : Store A ByteString T RawMessage}
    (hst : st.Sim b st') (hover : st.Over Valid)
    (hstore : v'.store = Function.update w'.store a st') (hsent : v'.sent = w'.sent)
    (hacks : v'.acks = w'.acks) (hcontexts : v'.history.contexts = w'.history.contexts) :
    Sim b (w.put a st) v' where
  store i := by
    rw [hstore]
    change RawStore.Sim b (Function.update w.store a st i) _
    rcases eq_or_ne i a with rfl | hne
    · rwa [Function.update_self, Function.update_self]
    · rw [Function.update_of_ne hne, Function.update_of_ne hne]
      exact h.store i
  valid i := by
    change RawStore.Over Valid (Function.update w.store a st i)
    rcases eq_or_ne i a with rfl | hne
    · rwa [Function.update_self]
    · rw [Function.update_of_ne hne]
      exact h.valid i
  sent := hsent ▸ h.sent
  acks := hacks ▸ h.acks
  contexts := hcontexts ▸ h.contexts
  validContexts := h.validContexts

theorem Sim.write (h : Sim b w w') {x : Except Trap (RawStore A T)}
    {st' : Store A ByteString T RawMessage} (hx : Outcome (fun _ => False) (RawStore.Sim b · st') x)
    (hover : Outcome (· = .sliceBounds) (RawStore.Over Valid) x)
    (hstore : v'.store = Function.update w'.store a st') (hsent : v'.sent = w'.sent)
    (hacks : v'.acks = w'.acks) (hcontexts : v'.history.contexts = w'.history.contexts) :
    Outcome (fun _ => False) (fun v => Sim b v v') (x.map fun st => w.put a st) := by
  obtain ⟨st, rfl, hst⟩ := hx.exists_ok
  exact h.put hst (hover.of_ok rfl) hstore hsent hacks hcontexts

theorem Sim.getSet (h : Sim b w w') (a : A) (key : ByteString) :
    Outcome (fun _ => False) (fun v => Sim b v (w'.getSet a key)) (call (.getSet a key) w) := by
  obtain ⟨r, hr, -, hrel, -⟩ := ((h.store a).getSet key).exists_ok
  change Outcome _ _ (((w.store a).getSet key).map _)
  rw [hr]
  refine ⟨h.store, h.valid, h.sent, h.acks, fun e c vv hc => ?_, fun e c vv hc => ?_⟩ <;>
    rcases mem_read_iff.mp hc with ⟨hkey, rfl, hvv⟩ | hc
  · obtain ⟨vv', hvv', hbelow, hsame⟩ := hrel.of_lookup hvv
    refine ⟨hbelow, vv', SetHistory.mem_read.mpr (Or.inl ⟨hkey, rfl, ?_⟩), hsame⟩
    rwa [decidableEq_byteString]
  · obtain ⟨hbelow, vv', hmem, hsame⟩ := h.contexts e c vv hc
    exact ⟨hbelow, vv', SetHistory.mem_read.mpr (Or.inr hmem), hsame⟩
  · exact (h.valid _).getSet_ids hr hvv
  · exact h.validContexts e c vv hc

/-- The document of `Delta` is read as the message of the plain store. -/
theorem Sim.delta (hb : b < 2 ^ 63) (h : Sim b w w') {a : A} (hseqs : w.SeqsFit a) (peer : A) :
    Outcome (fun _ => False) (fun v => Sim b v (w'.delta a peer)) (call (.delta a peer) w) := by
  obtain ⟨r, hr, hsim, hout⟩ := ((h.store a).delta hb peer).exists_ok
  obtain ⟨hover, houtOver⟩ := ((h.valid a).delta peer).of_ok hr
  change Outcome _ _ (((w.store a).delta peer).map _)
  rw [hr]
  obtain ⟨out, st⟩ := r
  unfold Cluster.delta
  have hfit : ∀ {out : Outgoing T} {msg}, ((w'.store a).delta peer).1 = some msg →
      out.Sim b msg → out.SeqsFit :=
    fun hm ho => (h.store a).seqsFit hm ho hseqs.1 hseqs.2.1 hseqs.2.2
  generalize (w'.store a).delta peer = d at hsim hout hfit
  obtain ⟨msg, st'⟩ := d
  dsimp only at hsim hout hover houtOver
  have hput : Sim b (w.put a st) (w'.put a st') := h.put hsim hover rfl rfl rfl rfl
  cases hout with
  | none => exact hput
  | @some out msg ho =>
    refine { hput with sent := ?_ }
    intro p hp
    rcases List.mem_cons.mp hp with rfl | hp
    · obtain ⟨m, hm, hmsim⟩ := ho.unmarshalJSON (houtOver out rfl) (hfit rfl ho)
      exact ⟨msg, List.mem_cons_self, m, hm, hmsim⟩
    · obtain ⟨msg', hmem, hm⟩ := h.sent p hp
      exact ⟨msg', List.mem_cons_of_mem _ hmem, hm⟩

/-- A document is merged like the plain message it stands for, in the same order, and the
answer is read as the plain acknowledgement. -/
theorem Sim.gossip (hb : b < 2 ^ 63) (h : Sim b w w') {p : Posted A} {msg m : WireMessage T}
    (hp : p ∈ w.sent) (hm : WireMessage.unmarshalJSON p.body = .ok m) (hperm : msg.Perm m) :
    ∃ q visited, q ∈ w'.sent ∧ visited.Perm q.msg ∧ Outcome (fun _ => False)
      (fun v => Sim b v (w'.merge q visited)) (call (.gossip p msg) w) := by
  obtain ⟨msg', hmem, _, hm', hsim⟩ := h.sent p hp
  obtain rfl := Except.ok.inj (hm.symm.trans hm')
  have hmsg := hsim.perm hperm
  have hvalid := (WireMessage.unmarshalJSON_accepts (fun _ => id) p.body).of_ok hm
  obtain ⟨visited, hvisited, hmerge⟩ := (h.store p.dst).merge hb hmsg
  refine ⟨⟨p.src, p.dst, msg'⟩, visited, hmem, hvisited, ?_⟩
  obtain ⟨r, hr, hack, hst⟩ := hmerge.exists_ok
  have hover := ((h.valid p.dst).merge (fun _ => id) (hvalid.perm hperm) hmsg.noNil).of_ok hr
  change Outcome _ _ (((w.store p.dst).merge msg).map _)
  rw [hr]
  have hput : Sim b (w.put p.dst r.2) (w'.put p.dst ((w'.store p.dst).merge visited).2) :=
    h.put hst hover rfl rfl rfl rfl
  refine { hput with acks := ?_ }
  intro q hq
  rcases List.mem_cons.mp hq with rfl | hq
  · refine ⟨((w'.store p.dst).merge visited).1, List.mem_cons_self, ?_⟩
    rw [hack]
    refine AckMessage.unmarshalJSON_marshalJSON ?_ ?_ ?_
    · exact ((hvisited.countersSeq.trans hmsg.countersSeq.symm) ▸ msg.countersSeq.toNat_lt :)
    · exact ((hvisited.registersSeq.trans hmsg.registersSeq.symm) ▸ msg.registersSeq.toNat_lt :)
    · exact ((hvisited.setsSeq.trans hmsg.setsSeq.symm) ▸ msg.setsSeq.toNat_lt :)
  · obtain ⟨ack, hack, hread⟩ := h.acks q hq
    exact ⟨ack, List.mem_cons_of_mem _ hack, hread⟩

theorem Sim.ack (h : Sim b w w') {p : Posted A} (hp : p ∈ w.acks) :
    ∃ q ∈ w'.acks, Outcome (fun _ => False) (fun v => Sim b v (w'.ack q)) (call (.ack p) w) := by
  obtain ⟨ack, hmem, hread⟩ := h.acks p hp
  refine ⟨⟨p.src, p.dst, ack⟩, hmem, ?_⟩
  have hcall : RawCluster.call (.ack p) w =
      .ok (w.put p.dst ((w.store p.dst).ack p.src ack)) := by
    simp only [RawCluster.call, hread]
  rw [hcall]
  have hvalid := h.valid p.dst
  exact h.put ((h.store p.dst).ack p.src ack) ⟨hvalid.nodeID,
    ⟨hvalid.counters.state, hvalid.counters.logged, hvalid.counters.history⟩,
    ⟨hvalid.registers.state, hvalid.registers.logged, hvalid.registers.history⟩,
    ⟨hvalid.sets.state, hvalid.sets.logged, hvalid.sets.history⟩⟩ rfl rfl rfl rfl

/-- The bound on the counters of sets after a call. -/
def boundAfter (k : RawCall A T) (b : ℕ) : ℕ := if k.isSetWrite then b + 2 else b

theorem Sim.call {k : RawCall A T} (hb : boundAfter k b < 2 ^ 63) (h : Sim b w w')
    (henabled : Enabled k w) (hk : Ordinary k w) :
    ∃ v', Cluster.Step OwnContext w' v' ∧
      Outcome (fun _ => False) (fun v => Sim (boundAfter k b) v v') (call k w) := by
  cases k with
  | incrementCounter a key value =>
    refine ⟨_, .incrementCounter a key value, ?_⟩
    exact h.write ((h.store a).incrementCounter key value)
      ((h.valid a).incrementCounter (fun _ => id) hk value) rfl rfl rfl rfl
  | decrementCounter a key value =>
    refine ⟨_, .decrementCounter a key value, ?_⟩
    exact h.write ((h.store a).decrementCounter key value)
      ((h.valid a).decrementCounter (fun _ => id) hk value) rfl rfl rfl rfl
  | setRegister a key value now =>
    refine ⟨_, .setRegister a key (some value) now, ?_⟩
    exact h.write ((h.store a).setRegister key value now)
      ((h.valid a).setRegister (fun _ => id) hk value now) rfl rfl rfl rfl
  | addSet a key value vv =>
    obtain ⟨hkey, hvv⟩ := hk
    obtain ⟨hbelow, vv', hallowed, hsame⟩ := h.context hvv
    refine ⟨_, .addSet a key (decodeString value) vv' hallowed, ?_⟩
    exact (h.mono (Nat.le_add_right b 2)).write
      ((h.store a).addSet hb hsame hbelow key (decodeString value))
      ((h.valid a).addSet (fun _ => id) hkey (valid_decodeString value) vv) rfl rfl rfl rfl
  | removeSet a key value vv =>
    obtain ⟨hkey, hvv⟩ := hk
    obtain ⟨hbelow, vv', hallowed, hsame⟩ := h.context hvv
    refine ⟨_, .removeSet a key (decodeString value) vv' hallowed, ?_⟩
    have hcontexts : (w'.removeSet a key (decodeString value) vv').history.contexts =
        w'.history.contexts := by
      unfold Cluster.removeSet
      dsimp only
      split_ifs <;> rfl
    exact (h.mono (Nat.le_add_right b 2)).write
      ((h.store a).removeSet hb hsame hbelow key (decodeString value))
      ((h.valid a).removeSet (fun _ => id) hkey (valid_decodeString value) vv) rfl rfl rfl hcontexts
  | getSet a key => exact ⟨_, .getSet a key, h.getSet a key⟩
  | delta a peer => exact ⟨_, .delta a peer, h.delta hb hk peer⟩
  | gossip p msg =>
    obtain ⟨hp, m, hm, hperm⟩ := henabled
    obtain ⟨q, visited, hq, hvisited, hsim⟩ := h.gossip hb hp hm hperm
    exact ⟨_, .merge q visited hq hvisited, hsim⟩
  | ack p =>
    obtain ⟨q, hq, hsim⟩ := h.ack henabled
    exact ⟨_, .ack q hq, hsim⟩

end Step

/-- What a run does: it returns, and a run of the plain cluster matches it. -/
theorem Sim.run {calls : List (RawCall A T)} (hlegal : ordinaryRuns.Legal (.ok w) calls)
    (hb : b + 2 * calls.countP RawCall.isSetWrite < 2 ^ 63) (h : Sim b w w') :
    ∃ v v', machine.after (.ok w) calls = .ok v ∧
      Relation.ReflTransGen (Cluster.Step OwnContext) w' v' ∧
      Sim (b + 2 * calls.countP RawCall.isSetWrite) v v' := by
  induction calls generalizing b w w' with
  | nil => exact ⟨w, w', rfl, .refl, h⟩
  | cons k calls ih =>
    obtain ⟨⟨henabled, hk⟩, hrest⟩ := hlegal
    have hbound : b + 2 * (k :: calls).countP RawCall.isSetWrite =
        boundAfter k b + 2 * calls.countP RawCall.isSetWrite := by
      unfold boundAfter
      rw [List.countP_cons]
      split_ifs <;> omega
    rw [hbound] at hb ⊢
    obtain ⟨u', hstep, hcall⟩ := h.call (by omega) (henabled w rfl) (hk w rfl)
    obtain ⟨u, hu, hsim⟩ := hcall.exists_ok
    have hexec : machine.exec k (.ok w) = .ok u := hu
    change Machine.Legal _ (machine.exec k (.ok w)) calls at hrest
    rw [hexec] at hrest
    obtain ⟨v, v', hv, hreaches, hvsim⟩ := ih hrest hb hsim
    refine ⟨v, v', ?_, .head hstep hreaches, hvsim⟩
    rw [Machine.after_cons, hexec]
    exact hv

section Scripts

/-- A part of a script that is left out once a store has panicked. -/
def unlessPanic {α : Type} (part : RawCluster A T → List α) (s : Except Trap (RawCluster A T)) :
    List α :=
  s.toOption.elim [] part

omit [TimeText T] [DecidableEq A] in
theorem legal_script {α : Type} {M : Machine (Except Trap (RawCluster A T)) α}
    {parts : List (RawCluster A T → List α)}
    (hparts : ∀ part ∈ parts, ∀ u, M.Legal (.ok u) (part u)) (s : Except Trap (RawCluster A T)) :
    M.Legal s (M.script (parts.map unlessPanic) s) := by
  apply Machine.script_legal
  intro _ hmem s
  obtain ⟨part, hpart, rfl⟩ := List.mem_map.mp hmem
  cases s with
  | error e => exact trivial
  | ok u => exact hparts part hpart u

instance (a : A) (w : RawCluster A T) : Decidable (w.SeqsFit a) :=
  inferInstanceAs (Decidable (_ < _ ∧ _ < _ ∧ _ < _))

def send (a b : A) (w : RawCluster A T) : List (RawCall A T) :=
  if w.SeqsFit a then [.delta a b] else []

def deliver (w : RawCluster A T) : List (RawCall A T) :=
  w.sent.head?.elim [] fun p =>
    (WireMessage.unmarshalJSON p.body).toOption.elim [] fun msg => [.gossip p msg]

def confirm (w : RawCluster A T) : List (RawCall A T) := w.acks.head?.elim [] fun p => [.ack p]

/-- Remove an element with the context that was returned last. -/
def removeRead (key : ByteString) (value : List Char) (w : RawCluster A T) : List (RawCall A T) :=
  (w.contexts (key, decodeString value)).head?.elim [] fun c => [.removeSet c.1 key value c.2]

theorem legal_singleton {k : RawCall A T} {w : RawCluster A T} (henabled : Enabled k w)
    (hk : Ordinary k w) : ordinaryRuns.Legal (.ok w) [k] := by
  refine ⟨⟨?_, ?_⟩, trivial⟩
  · intro u hu
    obtain rfl := Except.ok.inj hu
    exact henabled
  · intro u hu
    obtain rfl := Except.ok.inj hu
    exact hk

theorem send_legal (a b : A) (w : RawCluster A T) : ordinaryRuns.Legal (.ok w) (send a b w) := by
  unfold send
  split_ifs with hseqs
  · exact legal_singleton trivial hseqs
  · exact trivial

theorem deliver_legal (w : RawCluster A T) : ordinaryRuns.Legal (.ok w) (deliver w) := by
  unfold deliver
  cases hp : w.sent.head? with
  | none => exact trivial
  | some p =>
    change ordinaryRuns.Legal _ ((WireMessage.unmarshalJSON p.body).toOption.elim [] _)
    cases hm : WireMessage.unmarshalJSON (T := T) p.body with
    | error e => exact trivial
    | ok msg =>
      have hrefl : msg.Perm msg := ⟨rfl, .refl _, rfl, .refl _, rfl, .refl _⟩
      exact legal_singleton ⟨List.mem_of_mem_head? hp, msg, hm, hrefl⟩ trivial

theorem confirm_legal (w : RawCluster A T) : ordinaryRuns.Legal (.ok w) (confirm w) := by
  unfold confirm
  cases hp : w.acks.head? with
  | none => exact trivial
  | some p => exact legal_singleton (k := .ack p) (List.mem_of_mem_head? hp) trivial

theorem removeRead_legal {key : ByteString} (hkey : Valid key) (value : List Char)
    (w : RawCluster A T) : ordinaryRuns.Legal (.ok w) (removeRead key value w) := by
  unfold removeRead
  cases hc : (w.contexts (key, decodeString value)).head? with
  | none => exact trivial
  | some c =>
    have hmem : (c.1, c.2) ∈ w.contexts (key, decodeString value) := List.mem_of_mem_head? hc
    exact legal_singleton (k := .removeSet c.1 key value c.2) trivial
      ⟨hkey, Or.inr ⟨c.2, hmem, fun _ => rfl⟩⟩

end Scripts

def pairID (a : Bool) : ByteString := decodeString (if a then "a" else "b").toList

def keyK : ByteString := decodeString "k".toList

/-- Writes of every kind at two stores, the removal of an element that was read, and two
exchanges in both directions. -/
def exchangeParts : List (RawCluster Bool ℕ → List (RawCall Bool ℕ)) :=
  [fun _ => [.incrementCounter true keyK 5], fun _ => [.decrementCounter false keyK 2],
    fun _ => [.setRegister true keyK (.bool true) 7],
    fun _ => [.addSet true keyK "x".toList ∅], fun _ => [.addSet false keyK "y".toList ∅],
    fun _ => [.getSet true keyK], removeRead keyK "x".toList,
    send true false, deliver, confirm, send false true, deliver, confirm,
    send true false, deliver, confirm, send false true, deliver, confirm]

def exchanged : List (RawCall Bool ℕ) :=
  machine.script (exchangeParts.map unlessPanic) (.ok (RawCluster.init pairID))

theorem pairID_valid (a : Bool) : Valid (pairID a) := valid_decodeString _

theorem exchanged_legal : ordinaryRuns.Legal (.ok (RawCluster.init pairID)) exchanged := by
  have hkey : Valid keyK := valid_decodeString _
  have hnone : ∀ (a : Bool) e (w : RawCluster Bool ℕ), w.OwnReturned a e ∅ :=
    fun _ _ _ => Or.inl fun _ => rfl
  apply legal_script (M := ordinaryRuns)
  simp only [exchangeParts, List.forall_mem_cons, send_legal, deliver_legal, confirm_legal,
    removeRead_legal hkey, implies_true, true_and]
  refine ⟨?_, ?_, ?_, ?_, ?_, ?_, by simp⟩
  · exact fun u => legal_singleton trivial hkey
  · exact fun u => legal_singleton trivial hkey
  · exact fun u => legal_singleton trivial hkey
  · exact fun u => legal_singleton trivial ⟨hkey, hnone _ _ _⟩
  · exact fun u => legal_singleton trivial ⟨hkey, hnone _ _ _⟩
  · exact fun u => legal_singleton trivial trivial

/-- Every store has an acknowledgement of all it has from every other store. -/
def Acknowledged (w : RawCluster A T) : Prop :=
  ∀ i j, i ≠ j → (w.store i).counters.acked j = (w.store i).counters.seq ∧
    (w.store i).registers.acked j = (w.store i).registers.seq ∧
    (w.store i).sets.acked j = (w.store i).sets.seq

instance [Fintype A] (w : RawCluster A T) : Decidable w.Acknowledged :=
  inferInstanceAs (Decidable (∀ i j, i ≠ j → _ ∧ _ ∧ _))

/-- Once everything is acknowledged, no getter tells two stores apart. -/
theorem converged [LinearOrder T] [LinearInstant T] {id : A → ByteString}
    (hid : ∀ a, Valid (id a)) (hinj : Function.Injective id) {calls : List (RawCall A T)}
    (hlegal : ordinaryRuns.Legal (.ok (RawCluster.init id)) calls)
    (hroom : calls.countP RawCall.isSetWrite < 2 ^ 62) {w : RawCluster A T}
    (hw : machine.after (.ok (RawCluster.init id)) calls = .ok w) (hacked : w.Acknowledged)
    (i j : A) : (w.store i).SameReads (w.store j) := by
  obtain ⟨u, w', hu, hreaches, hsim⟩ := (Sim.init (b := 0) hid).run hlegal (by omega)
  obtain rfl := Except.ok.inj (hw.symm.trans hu)
  have hreachable : Cluster.Reachable id OwnContext w' := hreaches
  apply (hsim.store i).answers.sameReads (hsim.store j).answers
  apply hreachable.sameReads hinj
  · exact fun i j hij => (hsim.store i).counters.acked_eq_seq (hacked i j hij).1
  · exact fun i j hij => (hsim.store i).registers.acked_eq_seq (hacked i j hij).2.1
  · exact fun i j hij => (hsim.store i).sets.acked_eq_seq (hacked i j hij).2.2

theorem converged_exchanged : ∃ w,
    machine.after (.ok (RawCluster.init pairID)) exchanged = .ok w ∧ w.Acknowledged ∧
      (w.store true).SameReads (w.store false) := by
  have hacked : (machine.after (.ok (RawCluster.init pairID)) exchanged).toOption.any
      (fun w => decide w.Acknowledged) = true := by decide +kernel
  have hinj : Function.Injective pairID := by decide
  cases hw : machine.after (.ok (RawCluster.init pairID)) exchanged with
  | error e =>
    rw [hw] at hacked
    cases hacked
  | ok w =>
    rw [hw] at hacked
    have hall : w.Acknowledged := of_decide_eq_true hacked
    exact ⟨w, rfl, hall, converged pairID_valid hinj exchanged_legal (by decide +kernel) hw hall
      true false⟩

end RawCluster
end Commute.Server
