import Commute.Server.RawStore

/-!
# What a peer reads from the JSON of `Delta`

A key is any string a client puts into a path, but an object of a document has only
valid UTF-8 for keys: the keys `\xff` and `\xfe` are both written as U+FFFD. All other
strings of a store have been read from documents, or are the id of a node. So if
the keys of requests and the id of the node are valid, a peer reads every message
as the maps that were encoded.
-/
namespace Commute.Server

open Crdt Gossip Json

def Points {V : Type} (R : V → V → Prop) (v : V) (p : Option V) : Prop := ∃ v', p = some v' ∧ R v v'

theorem unmarshal_part {V : Type} {f : V → Json} {element : Decoder V} {R : V → V → Prop}
    (hf : ∀ v, ∃ members, f v = .obj members) {m : Option (FMap ByteString V)}
    (hvalid : ∀ k v, (m.getD ∅).lookup k = some v → Valid k)
    (helement : ∀ k v, (m.getD ∅).lookup k = some v → ∃ v', element (f v) = .ok v' ∧ R v v') :
    ∃ m', map (pointer element) none (marshalMap f m) = .ok m' ∧
      ∀ k, Option.Rel (Points R) ((m.getD ∅).lookup k) ((m'.getD ∅).lookup k) := by
  cases m with
  | none => exact ⟨none, rfl, fun k => .none⟩
  | some m =>
    obtain ⟨m', hm', hlookup⟩ : ∃ m', map (pointer element) none (.ofMap f m) = .ok (some m') ∧
        ∀ k, Option.Rel (Points R) (m.lookup k) (m'.lookup k) := by
      refine map_ofMap hvalid ?_
      intro k v hv
      obtain ⟨v', hv', hR⟩ := helement k v hv
      obtain ⟨members, hobj⟩ := hf v
      refine ⟨some v', ?_, v', rfl, hR⟩
      rw [hobj] at hv' ⊢
      exact congrArg (Except.map some) hv'
    exact ⟨some m', hm', hlookup⟩

theorem exists_of_rel {V W : Type} {R : V → W → Prop} {a : Option V} {b : Option W}
    (h : Option.Rel R a b) {v : V} (hv : a = some v) : ∃ w, b = some w := by
  subst hv
  cases h with
  | some _ => exact ⟨_, rfl⟩

namespace Outgoing

variable {T : Type} [TimeText T] {out : Outgoing T}

/-- The message has the sequence numbers and the keys of what was encoded, and under every key
an equal value. -/
structure ReadAs (out : Outgoing T) (msg : WireMessage T) : Prop where
  countersSeq : msg.countersSeq = UInt64.ofNat out.countersSeq
  counters : ∀ k, Option.Rel (Points PNCounter.Same) ((out.counters.getD ∅).lookup k)
    ((msg.counters.getD ∅).lookup k)
  registersSeq : msg.registersSeq = UInt64.ofNat out.registersSeq
  registers : ∀ k, Option.Rel (Points LWWRegister.Same) ((out.registers.getD ∅).lookup k)
    ((msg.registers.getD ∅).lookup k)
  setsSeq : msg.setsSeq = UInt64.ofNat out.setsSeq
  sets : ∀ k, Option.Rel (Points RawORSet.Same) ((out.sets.getD ∅).lookup k)
    ((msg.sets.getD ∅).lookup k)

def RoundTrips (out : Outgoing T) : Prop :=
  ∃ msg, WireMessage.unmarshalJSON out.marshalJSON = .ok msg ∧ out.ReadAs msg

theorem unmarshalJSON_of_parts
    {counters : Option (FMap ByteString (Option (PNCounter ByteString)))}
    {registers : Option (FMap ByteString (Option (LWWRegister ByteString T RawMessage)))}
    {sets : Option (FMap ByteString (Option (RawORSet ByteString ByteString)))}
    (hcounters : map (pointer PNCounter.unmarshalJSON) none
      (marshalMap PNCounter.marshalJSON out.counters) = .ok counters)
    (hregisters : map (pointer LWWRegister.unmarshalJSON) none
      (marshalMap LWWRegister.marshalJSON out.registers) = .ok registers)
    (hsets : map (pointer RawORSet.unmarshalJSON) none
      (marshalMap RawORSet.marshalJSON out.sets) = .ok sets) :
    WireMessage.unmarshalJSON out.marshalJSON = .ok ⟨UInt64.ofNat out.countersSeq, counters,
      UInt64.ofNat out.registersSeq, registers, UInt64.ofNat out.setsSeq, sets⟩ := by
  change (uint64 0 (.nat (UInt64.ofNat out.countersSeq).toNat)).map _ >>= _ = _
  rw [uint64_nat]
  change (map (pointer PNCounter.unmarshalJSON) none
    (marshalMap PNCounter.marshalJSON out.counters)).map _ >>= _ = _
  rw [hcounters]
  change (uint64 0 (.nat (UInt64.ofNat out.registersSeq).toNat)).map _ >>= _ = _
  rw [uint64_nat]
  change (map (pointer LWWRegister.unmarshalJSON) none
    (marshalMap LWWRegister.marshalJSON out.registers)).map _ >>= _ = _
  rw [hregisters]
  change (uint64 0 (.nat (UInt64.ofNat out.setsSeq).toNat)).map _ >>= _ = _
  rw [uint64_nat]
  change (map (pointer RawORSet.unmarshalJSON) none
    (marshalMap RawORSet.marshalJSON out.sets)).map _ >>= _ = _
  rw [hsets]
  rfl

theorem Over.roundTrips (h : out.Over Json.Valid) : out.RoundTrips := by
  obtain ⟨counters, hcounters, hcounters'⟩ := unmarshal_part
    (f := PNCounter.marshalJSON) (fun _ => ⟨_, rfl⟩)
    (fun k c hc => (h.counters k c hc).1)
    fun k c hc => PNCounter.unmarshalJSON_marshalJSON (h.counters k c hc).2
  obtain ⟨registers, hregisters, hregisters'⟩ := unmarshal_part
    (f := LWWRegister.marshalJSON) (fun _ => ⟨_, rfl⟩)
    (fun k r hr => (h.registers k r hr).1)
    fun k r hr => LWWRegister.unmarshalJSON_marshalJSON (h.registers k r hr).2
  obtain ⟨sets, hsets, hsets'⟩ := unmarshal_part
    (f := RawORSet.marshalJSON) (fun _ => ⟨_, rfl⟩)
    (fun k s hs => (h.sets k s hs).1)
    fun k s hs => RawORSet.unmarshalJSON_marshalJSON (h.sets k s hs).2.2
  exact ⟨_, unmarshalJSON_of_parts hcounters hregisters hsets, rfl, hcounters', rfl, hregisters',
    rfl, hsets'⟩

/-- What is read has valid keys, so nothing else is read back. -/
theorem RoundTrips.valid (h : out.RoundTrips) :
    (∀ k c, (out.counters.getD ∅).lookup k = some c → Json.Valid k) ∧
    (∀ k r, (out.registers.getD ∅).lookup k = some r → Json.Valid k) ∧
    ∀ k s, (out.sets.getD ∅).lookup k = some s → Json.Valid k := by
  obtain ⟨msg, hmsg, hread⟩ := h
  have hover := (WireMessage.unmarshalJSON_accepts (fun _ => id) out.marshalJSON).of_ok hmsg
  refine ⟨?_, ?_, ?_⟩
  · intro k c hc
    obtain ⟨p, hp⟩ := exists_of_rel (hread.counters k) hc
    exact (hover.counters k p hp).1
  · intro k r hr
    obtain ⟨p, hp⟩ := exists_of_rel (hread.registers k) hr
    exact (hover.registers k p hp).1
  · intro k s hs
    obtain ⟨p, hp⟩ := exists_of_rel (hread.sets k) hs
    exact (hover.sets k p hp).1

end Outgoing

namespace RawStore

variable {A T : Type} [TimeText T] [DecidableEq A]

/-- In a run whose requests all name valid keys, at a node with a valid id, a peer reads every
message as the maps that were encoded. -/
theorem delta_roundTrips (nodeID : ByteString) (hnode : Json.Valid nodeID)
    (requests : List (Request A T)) (hkeys : ∀ r ∈ requests, r.Over Json.Valid)
    (st : RawStore A T) (hrun : run requests (new nodeID) = .ok st) (peer : A) :
    Outcome (· = .sliceBounds) (fun r => ∀ out, r.1 = some out → out.RoundTrips)
      (st.delta peer) := by
  have hover : st.Over Json.Valid := Over.of_run (fun _ => id) (.new hnode) hkeys hrun
  exact (hover.delta peer).imp fun r hr out hout => (hr.2 out hout).roundTrips

def validRequests : List (Request Bool ℕ) :=
  [.incrementCounter (decodeString "k".toList) 1,
    .setRegister (decodeString "k".toList) (.bool true) 3,
    .addSet (decodeString "k".toList) "x".toList ∅]

theorem delta_roundTrips_validRequests : ∃ st out st',
    run validRequests (new (decodeString "n".toList)) = .ok st ∧
      st.delta true = .ok (some out, st') ∧ out.RoundTrips := by
  obtain ⟨st, out, st', hrun, hdelta⟩ : ∃ st out st',
      run validRequests (new (decodeString "n".toList)) = .ok st ∧
        st.delta true = .ok (some out, st') := ⟨_, _, _, rfl, rfl⟩
  have hkeys : ∀ r ∈ validRequests, r.Over Json.Valid := by
    simp only [validRequests, List.forall_mem_cons, Request.Over]
    exact ⟨valid_decodeString _, valid_decodeString _, valid_decodeString _, by simp⟩
  have hread := delta_roundTrips (decodeString "n".toList) (valid_decodeString _) validRequests
    hkeys st hrun true
  exact ⟨st, out, st', hrun, hdelta, hread.of_ok hdelta out rfl⟩

/-- Increments of the counters `\xff` and `\xfe`. -/
def invalidRequests : List (Request Bool ℕ) :=
  [.incrementCounter (.of [0xff]) 1, .incrementCounter (.of [0xfe]) 1]

/-- A peer reads the two counters as one, under the key U+FFFD. -/
theorem delta_merges_keys : ∃ st out st', ∃ msg : WireMessage ℕ,
    run invalidRequests (new (decodeString "n".toList)) = .ok st ∧
      st.delta true = .ok (some out, st') ∧
      (out.counters.getD ∅).keys = [.of [0xfe], .of [0xff]] ∧
      WireMessage.unmarshalJSON out.marshalJSON = .ok msg ∧
      (msg.counters.getD ∅).keys = [decodeString [Char.ofNat 0xfffd]] ∧
      ¬ out.RoundTrips := by
  refine ⟨_, _, _, _, rfl, rfl, rfl, rfl, rfl, ?_⟩
  intro h
  have hvalid := h.valid.1 (.of [0xff]) _ rfl
  revert hvalid
  decide

end RawStore
end Commute.Server
