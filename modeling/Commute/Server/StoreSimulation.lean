import Commute.Crdt.RawSimulation
import Commute.Server.Cluster
import Commute.Server.RawCluster
import Commute.Server.WireFormat

/-!
# A store on the machine is a store on paper

`RawStore.Sim` says which plain store a store of pointers and words stands for. As
long as the counters of its sets stay below `2 ^ 63`, every operation returns, and
it does what the plain operation does. A peer reads from the document of `Delta`
a message that stands for the plain message.
-/
namespace Commute.Server

open Crdt Gossip Json

section Values

/-- A plain store decides the equality of strings by their order, a store of pointers does not. -/
theorem decidableEq_byteString :
    (fun a b => LinearOrder.toDecidableEq a b : DecidableEq ByteString) =
      instDecidableEqByteString :=
  Subsingleton.elim _ _

theorem simulates_of_plain {W : Type} [DeltaValue W] {r : W → W → Prop}
    (hmerge : ∀ {a b x y}, r a x → r b y → r (DeltaValue.merge a b) (DeltaValue.merge x y))
    (hle : ∀ {a b x y}, r a x → r b y →
      DeltaValue.isLessOrEqual a b = DeltaValue.isLessOrEqual x y)
    (hshared : ∀ {a b x y}, r a x → r b y → r (DeltaValue.shared a b) (DeltaValue.shared x y)) :
    Simulates (ε := Trap) r where
  merge h h' := hmerge h h'
  isLessOrEqual h h' := congrArg Except.ok (hle h h')
  clone h := h
  shared := hshared

theorem simulates_counters :
    Simulates (ε := Trap) (PNCounter.Like : PNCounter ByteString → PNCounter ByteString → Prop) :=
  simulates_of_plain (fun h h' => h.merge h') (fun h h' => h.isLessOrEqual h')
    fun h h' => h.shared h'

theorem simulates_registers {T : Type} [TimeText T] : Simulates (ε := Trap)
    (LWWRegister.Like : LWWRegister ByteString T RawMessage → _ → Prop) :=
  simulates_of_plain (fun h h' => h.merge h') (fun h h' => h.isLessOrEqual h') fun h _ => h

theorem unmarshal_part_sim {V W : Type} [DeltaValue W] {r : V → W → Prop} {f : V → Json}
    {element : Decoder V} (hf : ∀ v, ∃ members, f v = .obj members)
    {m : Option (FMap ByteString V)} {m' : FMap ByteString W}
    (hrel : FMap.Rel (Encodes r) (m.getD ∅) m')
    (hvalid : ∀ k v, (m.getD ∅).lookup k = some v → Valid k)
    (hread : ∀ k v x, (m.getD ∅).lookup k = some v → r v x →
      ∃ v', element (f v) = .ok v' ∧ r v' (DeltaValue.decoded x)) :
    ∃ p, map (pointer element) none (marshalMap f m) = .ok p ∧
      FMap.Rel (fun p w => ∃ v, p = some v ∧ r v w) (p.getD ∅) m' := by
  have helement : ∀ k v, (m.getD ∅).lookup k = some v →
      ∃ v', element (f v) = .ok v' ∧ element (f v) = .ok v' := by
    intro k v hv
    obtain ⟨_, -, x, hx, -⟩ := hrel.of_lookup hv
    obtain ⟨v', hv', -⟩ := hread k v x hv hx
    exact ⟨v', hv', hv'⟩
  obtain ⟨p, hp, hlookup⟩ := unmarshal_part hf hvalid helement
  refine ⟨p, hp, fun k => ?_⟩
  have hk := hlookup k
  rcases hrel.cases k with ⟨hv, hw⟩ | ⟨v, _, hv, hw, x, hx, rfl⟩ <;> rw [hv] at hk <;> rw [hw]
  · generalize AList.lookup k (p.getD ∅) = q at hk
    cases hk
    exact .none
  · obtain ⟨v', hv', hsim⟩ := hread k v x hv hx
    generalize AList.lookup k (p.getD ∅) = q at hk
    cases hk with
    | some hq =>
      obtain ⟨u, rfl, hu⟩ := hq
      obtain rfl := Except.ok.inj (hu.symm.trans hv')
      exact .some ⟨u, rfl, hsim⟩

end Values

section Messages

variable {T : Type} {b c : ℕ}

structure WireMessage.Sim (b : ℕ) (msg : WireMessage T)
    (msg' : Message ByteString T RawMessage) : Prop where
  countersSeq : msg.countersSeq.toNat = msg'.countersSeq
  counters : FMap.Rel (fun p w => ∃ v, p = some v ∧ v.Like w) (msg.counters.getD ∅) msg'.counters
  registersSeq : msg.registersSeq.toNat = msg'.registersSeq
  registers :
    FMap.Rel (fun p w => ∃ v, p = some v ∧ v.Like w) (msg.registers.getD ∅) msg'.registers
  setsSeq : msg.setsSeq.toNat = msg'.setsSeq
  sets : FMap.Rel (fun p w => ∃ v, p = some v ∧ v.Sim b w) (msg.sets.getD ∅) msg'.sets

variable {msg msg₁ : WireMessage T} {msg' : Message ByteString T RawMessage}

theorem WireMessage.Sim.mono (hb : b ≤ c) (h : msg.Sim b msg') : msg.Sim c msg' := by
  refine { h with sets := h.sets.mono ?_ }
  rintro _ w ⟨v, rfl, hv⟩
  exact ⟨v, rfl, hv.mono hb⟩

theorem WireMessage.Sim.perm (h : msg.Sim b msg') (hperm : msg₁.Perm msg) : msg₁.Sim b msg' where
  countersSeq := hperm.countersSeq ▸ h.countersSeq
  counters k := by
    rw [AList.perm_lookup hperm.counters]
    exact h.counters k
  registersSeq := hperm.registersSeq ▸ h.registersSeq
  registers k := by
    rw [AList.perm_lookup hperm.registers]
    exact h.registers k
  setsSeq := hperm.setsSeq ▸ h.setsSeq
  sets k := by
    rw [AList.perm_lookup hperm.sets]
    exact h.sets k

theorem WireMessage.Over.perm {V : ByteString → Prop} (h : msg.Over V) (hperm : msg₁.Perm msg) :
    msg₁.Over V where
  counters k p hp := h.counters k p (AList.perm_lookup hperm.counters ▸ hp)
  registers k p hp := h.registers k p (AList.perm_lookup hperm.registers ▸ hp)
  sets k p hp := h.sets k p (AList.perm_lookup hperm.sets ▸ hp)

theorem WireMessage.Sim.noNil (h : msg.Sim b msg') : msg.NoNil := by
  refine ⟨?_, ?_, ?_⟩
  · intro k p hp
    obtain ⟨_, -, v, rfl, -⟩ := h.counters.of_lookup hp
    exact Option.some_ne_none v
  · intro k p hp
    obtain ⟨_, -, v, rfl, -⟩ := h.registers.of_lookup hp
    exact Option.some_ne_none v
  · intro k p hp
    obtain ⟨_, -, v, rfl, hv⟩ := h.sets.of_lookup hp
    refine ⟨v, rfl, ?_⟩
    intro e q hq
    obtain ⟨_, -, d, rfl, -⟩ := hv.elements.of_lookup hq
    exact Option.some_ne_none _

variable [TimeText T]

/-- What is encoded stands for what the plain message has, before it is decoded. -/
structure Outgoing.Sim (b : ℕ) (out : Outgoing T) (msg' : Message ByteString T RawMessage) :
    Prop where
  countersSeq : out.countersSeq = msg'.countersSeq
  counters : FMap.Rel (Encodes PNCounter.Like) (out.counters.getD ∅) msg'.counters
  registersSeq : out.registersSeq = msg'.registersSeq
  registers : FMap.Rel (Encodes LWWRegister.Like) (out.registers.getD ∅) msg'.registers
  setsSeq : out.setsSeq = msg'.setsSeq
  sets : FMap.Rel (Encodes (RawORSet.Sim b)) (out.sets.getD ∅) msg'.sets

def Outgoing.SeqsFit (out : Outgoing T) : Prop :=
  out.countersSeq < 2 ^ 64 ∧ out.registersSeq < 2 ^ 64 ∧ out.setsSeq < 2 ^ 64

/-- A peer reads the plain message. -/
theorem Outgoing.Sim.unmarshalJSON {out : Outgoing T} (h : out.Sim b msg')
    (hover : out.Over Valid) (hseqs : out.SeqsFit) :
    ∃ msg, WireMessage.unmarshalJSON out.marshalJSON = .ok msg ∧ msg.Sim b msg' := by
  obtain ⟨counters, hcounters, hcounters'⟩ := unmarshal_part_sim
    (f := PNCounter.marshalJSON) (fun _ => ⟨_, rfl⟩) h.counters
    (fun k c hc => (hover.counters k c hc).1)
    fun k c x hc hx => PNCounter.unmarshalJSON_like (hover.counters k c hc).2 hx
  obtain ⟨registers, hregisters, hregisters'⟩ := unmarshal_part_sim
    (f := LWWRegister.marshalJSON) (fun _ => ⟨_, rfl⟩) h.registers
    (fun k r hr => (hover.registers k r hr).1)
    fun k r x hr hx => LWWRegister.unmarshalJSON_like (hover.registers k r hr).2 hx
  obtain ⟨sets, hsets, hsets'⟩ := unmarshal_part_sim
    (f := RawORSet.marshalJSON) (fun _ => ⟨_, rfl⟩) h.sets
    (fun k s hs => (hover.sets k s hs).1)
    fun k s x hs hx => RawORSet.unmarshalJSON_sim (hover.sets k s hs).2.2 hx
  refine ⟨_, Outgoing.unmarshalJSON_of_parts hcounters hregisters hsets, ?_⟩
  have hword : ∀ {n : ℕ}, n < 2 ^ 64 → (UInt64.ofNat n).toNat = n := UInt64.toNat_ofNat_of_lt'
  exact ⟨(hword hseqs.1).trans h.countersSeq, hcounters',
    (hword hseqs.2.1).trans h.registersSeq, hregisters',
    (hword hseqs.2.2).trans h.setsSeq, hsets'⟩

end Messages

/-- An acknowledgement is read back as it was sent. -/
theorem AckMessage.unmarshalJSON_marshalJSON {ack : AckMessage} (hc : ack.countersSeq < 2 ^ 64)
    (hr : ack.registersSeq < 2 ^ 64) (hs : ack.setsSeq < 2 ^ 64) :
    unmarshalJSON ack.marshalJSON = .ok ack := by
  change (uint64 _ (.nat (UInt64.ofNat ack.countersSeq).toNat)).map _ >>= _ = _
  rw [uint64_nat]
  change (uint64 _ (.nat (UInt64.ofNat ack.registersSeq).toNat)).map _ >>= _ = _
  rw [uint64_nat]
  change (uint64 _ (.nat (UInt64.ofNat ack.setsSeq).toNat)).map _ >>= _ = _
  rw [uint64_nat]
  change Except.ok (⟨(UInt64.ofNat ack.countersSeq).toNat, (UInt64.ofNat ack.registersSeq).toNat,
    (UInt64.ofNat ack.setsSeq).toNat⟩ : AckMessage) = _
  rw [UInt64.toNat_ofNat_of_lt' hc, UInt64.toNat_ofNat_of_lt' hr, UInt64.toNat_ofNat_of_lt' hs]

theorem Store.delta_seqs_le {A S T R : Type} [LinearOrder S] [Inhabited S] [Instant T]
    [DecidableEq A] {st : Store A S T R} {peer : A} {msg : Message S T R}
    (h : (st.delta peer).1 = some msg) : msg.countersSeq ≤ st.counters.seq ∧
      msg.registersSeq ≤ st.registers.seq ∧ msg.setsSeq ≤ st.sets.seq := by
  obtain ⟨-, rfl⟩ := Store.delta_eq_some h
  exact ⟨Ledger.delta_seq_le st.counters peer, Ledger.delta_seq_le st.registers peer,
    Ledger.delta_seq_le st.sets peer⟩

namespace RawStore

variable {A T : Type} {b : ℕ}

structure Sim (b : ℕ) (st : RawStore A T) (st' : Store A ByteString T RawMessage) : Prop where
  nodeID : st.nodeID = st'.nodeID
  counters : st.counters.Sim PNCounter.Like st'.counters
  registers : st.registers.Sim LWWRegister.Like st'.registers
  sets : st.sets.Sim (RawORSet.Sim b) st'.sets

variable {st : RawStore A T} {st' : Store A ByteString T RawMessage} {key value : ByteString}

theorem Sim.new (nodeID : ByteString) : Sim b (RawStore.new nodeID : RawStore A T) (.new nodeID) :=
  ⟨rfl, .new, .new, .new⟩

theorem Sim.mono {c : ℕ} (hb : b ≤ c) (h : st.Sim b st') : st.Sim c st' :=
  { h with sets := h.sets.mono fun _ _ hs => hs.mono hb }

section Writes

theorem Sim.freshSet (h : st.Sim b st') :
    RawORSet.Sim b (RawORSet.new st.nodeID : RawORSet ByteString ByteString) (.new st'.nodeID) :=
  h.nodeID ▸ .new st.nodeID

theorem Sim.writeCounter (h : st.Sim b st') (key : ByteString)
    {f : PNCounter ByteString → PNCounter ByteString}
    (hf : ∀ {c c'}, c.Like c' → (f c).Like (f c')) :
    Outcome (fun _ => False) (fun r => r.Sim b
        { st' with counters := st'.counters.write (.new st'.nodeID) key f })
      ((st.counters.writeM (.new st.nodeID) key fun c => .ok (f c)).map fun counters =>
        { st with counters := counters }) := by
  have hfresh : (PNCounter.new st.nodeID).Like (.new st'.nodeID) := h.nodeID ▸ .new _
  apply (h.counters.writeM simulates_counters hfresh key (f := fun c => .ok (f c)) hf).map
  exact fun counters hcounters => { h with counters := hcounters }

theorem Sim.incrementCounter (h : st.Sim b st') (key : ByteString) (n : UInt64) :
    Outcome (fun _ => False) (fun r => r.Sim b (st'.incrementCounter key n))
      (st.incrementCounter key n) := by
  unfold Store.incrementCounter
  rw [decidableEq_byteString]
  exact h.writeCounter key fun hc => hc.increment n

theorem Sim.decrementCounter (h : st.Sim b st') (key : ByteString) (n : UInt64) :
    Outcome (fun _ => False) (fun r => r.Sim b (st'.decrementCounter key n))
      (st.decrementCounter key n) := by
  unfold Store.decrementCounter
  rw [decidableEq_byteString]
  exact h.writeCounter key fun hc => hc.decrement n

variable {vv : VV64 ByteString} {vv' : VV ByteString}

theorem Sim.addSet (hb : b + 2 < 2 ^ 63) (h : st.Sim b st') (hvv : DVVSet64.SameVV vv vv')
    (hbelow : VV64.Below (b + 1) vv) (key value : ByteString) :
    Outcome (fun _ => False) (fun r => r.Sim (b + 2) (st'.addSet key value vv'))
      (st.addSet key value vv) := by
  have h₁ : st.Sim (b + 1) st' := h.mono (Nat.le_succ b)
  have h₂ : st.Sim (b + 2) st' := h.mono (by omega)
  -- the element is marked in the set with the smaller bound
  have hdelta := (h₁.sets.valueOr h₁.freshSet key).mark (by omega) hvv hbelow le_rfl true value
  have hwrite : Outcome (fun _ => False) (fun l => l.Sim (RawORSet.Sim (b + 2))
      (st'.sets.write (.new st'.nodeID) key (ORSet.add value vv')))
      (st.sets.writeM (.new st.nodeID) key (RawORSet.add value vv)) :=
    hdelta.bind fun d hd => h₂.sets.joinM (RawORSet.simulates hb) h₂.freshSet key hd
  unfold Store.addSet
  rw [decidableEq_byteString]
  exact hwrite.map fun sets hsets => { h₂ with sets := hsets }

theorem isZero_mark {d : RawORSet ByteString ByteString} {s : ORSet ByteString ByteString}
    {marker : Bool} (hd : d.Sim b (s.mark marker value vv')) : d.isZero = false := by
  obtain ⟨p, hp⟩ : ∃ p, d.elements.lookup value = some p := by
    rcases hd.elements.cases value with ⟨-, hs⟩ | ⟨p, -, hp, -⟩
    · simp [ORSet.mark] at hs
    · exact ⟨p, hp⟩
  unfold RawORSet.isZero
  exact List.isEmpty_eq_false_iff_exists_mem.mpr ⟨_, FMap.mem_entries_iff.mpr hp⟩

theorem Sim.removeSet (hb : b + 2 < 2 ^ 63) (h : st.Sim b st') (hvv : DVVSet64.SameVV vv vv')
    (hbelow : VV64.Below (b + 1) vv) (key value : ByteString) :
    Outcome (fun _ => False) (fun r => r.Sim (b + 2) (st'.removeSet key value vv'))
      (st.removeSet key value vv) := by
  have h₂ : st.Sim (b + 2) st' := h.mono (by omega)
  unfold RawStore.removeSet Store.removeSet
  rw [decidableEq_byteString]
  rcases h.sets.state.cases key with ⟨hs, hs'⟩ | ⟨set, set', hs, hs', hset⟩ <;> rw [hs, hs'] <;>
    dsimp only
  · exact h₂
  · unfold RawORSet.remove ORSet.remove
    rcases hset.elements.cases value with ⟨hp, hds⟩ | ⟨p, ds, hp, hds, -⟩ <;> rw [hp, hds] <;>
      dsimp only
    · exact h₂
    · have hset₁ : set.Sim (b + 1) set' := hset.mono (Nat.le_succ b)
      apply (hset₁.mark (by omega) hvv hbelow le_rfl false value).bind
      intro d hd
      rw [isZero_mark hd, if_neg Bool.false_ne_true]
      rw [if_neg (by simp [ORSet.mark, ORSet.isZero])]
      apply (h₂.sets.joinM (RawORSet.simulates hb) h₂.freshSet key hd).map
      exact fun sets hsets => { h₂ with sets := hsets }

end Writes

section Reads

theorem Sim.getCounter (h : st.Sim b st') (key : ByteString) :
    st.getCounter key = st'.getCounter key := by
  unfold RawStore.getCounter Store.getCounter
  rw [decidableEq_byteString]
  rcases h.counters.state.cases key with ⟨hc, hc'⟩ | ⟨c, c', hc, hc', hlike⟩ <;> rw [hc, hc']
  exact congrArg (·, true) hlike.value

/-- A nil value and `null` are the same document. -/
theorem Sim.getRegister [TimeText T] (h : st.Sim b st') (key : ByteString) :
    (st.getRegister key).1.getD .null = (st'.getRegister key).1.getD .null ∧
      (st.getRegister key).2 = (st'.getRegister key).2 := by
  unfold RawStore.getRegister Store.getRegister
  rw [decidableEq_byteString]
  rcases h.registers.state.cases key with ⟨hr, hr'⟩ | ⟨r, r', hr, hr', hlike⟩ <;> rw [hr, hr']
  · exact ⟨rfl, rfl⟩
  · exact ⟨hlike.value, rfl⟩

theorem Sim.getSet (h : st.Sim b st') (key : ByteString) :
    Outcome (fun _ => False) (fun r => r.1.Perm (st'.getSet key).1 ∧
        FMap.Rel (fun vv vv' => VV64.Below (b + 1) vv ∧ DVVSet64.SameVV vv vv') r.2.1
          (st'.getSet key).2.1 ∧ r.2.2 = (st'.getSet key).2.2) (st.getSet key) := by
  unfold RawStore.getSet Store.getSet
  rw [decidableEq_byteString]
  rcases h.sets.state.cases key with ⟨hs, hs'⟩ | ⟨s, s', hs, hs', hsim⟩ <;> rw [hs, hs']
  · exact ⟨.refl _, .empty, rfl⟩
  · exact hsim.values.bind fun vs hvs => hsim.causalContexts.bind fun vvs hvvs => ⟨hvs, hvvs, rfl⟩

end Reads

variable [TimeText T]

theorem Sim.setRegister (h : st.Sim b st') (key : ByteString) (j : Json) (now : T) :
    Outcome (fun _ => False) (fun r => r.Sim b (st'.setRegister key (some j) now))
      (st.setRegister key j now) := by
  have hfresh : (LWWRegister.new st.nodeID : LWWRegister ByteString T RawMessage).Like
      (.new st'.nodeID) := h.nodeID ▸ .refl _
  unfold Store.setRegister
  rw [decidableEq_byteString]
  apply (h.registers.writeM simulates_registers hfresh key
    (f := fun r => .ok (r.set (some j) now)) fun hr => hr.set (some j) now).map
  exact fun registers hregisters => { h with registers := hregisters }

/-- A message is merged like its counterpart, in the same order. -/
theorem Sim.merge (hb : b < 2 ^ 63) (h : st.Sim b st') {msg : WireMessage T}
    {msg' : Message ByteString T RawMessage} (hmsg : msg.Sim b msg') :
    ∃ visited : Message ByteString T RawMessage, visited.Perm msg' ∧
      Outcome (fun _ => False) (fun r => r.1 = (st'.merge visited).1 ∧
        r.2.Sim b (st'.merge visited).2) (st.merge msg) := by
  have hcounter : (PNCounter.new st.nodeID).Like (.new st'.nodeID) := h.nodeID ▸ .new _
  have hregister : (LWWRegister.new st.nodeID : LWWRegister ByteString T RawMessage).Like
      (.new st'.nodeID) := h.nodeID ▸ .refl _
  obtain ⟨counters, hcounters, hmerged⟩ :=
    h.counters.mergeAllM simulates_counters hcounter hmsg.counters
  obtain ⟨registers, hregisters, hmerged'⟩ :=
    h.registers.mergeAllM simulates_registers hregister hmsg.registers
  obtain ⟨sets, hsets, hmerged''⟩ :=
    h.sets.mergeAllM (RawORSet.simulates hb) h.freshSet hmsg.sets
  refine ⟨⟨msg'.countersSeq, counters, msg'.registersSeq, registers, msg'.setsSeq, sets⟩,
    ⟨rfl, hcounters, rfl, hregisters, rfl, hsets⟩, ?_⟩
  unfold Store.merge
  rw [decidableEq_byteString]
  refine hmerged.bind fun l hl => hmerged'.bind fun l' hl' => hmerged''.bind fun l'' hl'' => ?_
  refine ⟨?_, h.nodeID, hl, hl', hl''⟩
  rw [hmsg.countersSeq, hmsg.registersSeq, hmsg.setsSeq]

variable [DecidableEq A]

omit [TimeText T] in
theorem Sim.ack (h : st.Sim b st') (sender : A) (body : AckMessage) :
    (st.ack sender body).Sim b (st'.ack sender body) :=
  ⟨h.nodeID, h.counters.ack sender _, h.registers.ack sender _, h.sets.ack sender _⟩

section Delta

theorem isSome_of_rel {V W : Type} {R : V → W → Prop} {o : Option V} {o' : Option W}
    (h : Option.Rel R o o') : o.isSome = o'.isSome := by
  cases h <;> rfl

theorem part_of_rel {V W : Type} [DeltaValue W] {r : V → W → Prop}
    {o : Option (ℕ × FMap ByteString V)} {o' : Option (ℕ × FMap ByteString W)}
    (h : Option.Rel (fun a b => a.1 = b.1 ∧ FMap.Rel (Encodes r) a.2 b.2) o o') :
    (o.map Prod.fst).getD 0 = (o'.getD (0, ∅)).1 ∧
      FMap.Rel (Encodes r) ((o.map Prod.snd).getD ∅) (o'.getD (0, ∅)).2 := by
  cases h with
  | none => exact ⟨rfl, .empty⟩
  | some hp => exact hp

theorem news_iff {X Y Z : Type} (x : Option X) (y : Option Y) (z : Option Z) :
    (x.isSome || y.isSome || z.isSome) = true ↔
      ¬ (x.isNone = true ∧ y.isNone = true ∧ z.isNone = true) := by
  cases x <;> cases y <;> cases z <;> simp

/-- What is encoded for a peer stands for the message that the plain store builds. -/
theorem Sim.delta (hb : b < 2 ^ 63) (h : st.Sim b st') (peer : A) :
    Outcome (fun _ => False) (fun r => r.2.Sim b (st'.delta peer).2 ∧
      Option.Rel (Outgoing.Sim b) r.1 (st'.delta peer).1) (st.delta peer) := by
  refine (h.counters.deltaM simulates_counters peer).bind fun counters hcounters => ?_
  refine (h.registers.deltaM simulates_registers peer).bind fun registers hregisters => ?_
  refine (h.sets.deltaM (RawORSet.simulates hb) peer).bind fun sets hsets => ?_
  obtain ⟨hc, hcpart⟩ := hcounters
  obtain ⟨hr, hrpart⟩ := hregisters
  obtain ⟨hs, hspart⟩ := hsets
  unfold Store.delta
  rw [decidableEq_byteString]
  dsimp only
  rw [isSome_of_rel hcpart, isSome_of_rel hrpart, isSome_of_rel hspart]
  simp only [news_iff, ite_not]
  split_ifs with hnone
  · rw [Ledger.delta_snd_of_none hnone.1] at hc
    rw [Ledger.delta_snd_of_none hnone.2.1] at hr
    rw [Ledger.delta_snd_of_none hnone.2.2] at hs
    exact ⟨⟨h.nodeID, hc, hr, hs⟩, .none⟩
  · have hcounters := part_of_rel hcpart
    have hregisters := part_of_rel hrpart
    have hsets := part_of_rel hspart
    exact ⟨⟨h.nodeID, hc, hr, hs⟩, .some ⟨hcounters.1, hcounters.2, hregisters.1, hregisters.2,
      hsets.1, hsets.2⟩⟩

theorem Sim.seqsFit (h : st.Sim b st') {peer : A} {out : Outgoing T}
    {msg : Message ByteString T RawMessage} (hmsg : (st'.delta peer).1 = some msg)
    (hout : out.Sim b msg) (hc : st.counters.seq < 2 ^ 64) (hr : st.registers.seq < 2 ^ 64)
    (hs : st.sets.seq < 2 ^ 64) : out.SeqsFit := by
  obtain ⟨hcle, hrle, hsle⟩ := Store.delta_seqs_le hmsg
  unfold Outgoing.SeqsFit
  rw [hout.countersSeq, hout.registersSeq, hout.setsSeq]
  rw [h.counters.seq] at hc
  rw [h.registers.seq] at hr
  rw [h.sets.seq] at hs
  exact ⟨hcle.trans_lt hc, hrle.trans_lt hr, hsle.trans_lt hs⟩

end Delta

end RawStore
end Commute.Server
