import Commute.Crdt.MarshalJson
import Commute.Server.Store

/-!
# `Store` between documents and pointers

The store with the parts that `Message` and `Delta` add to it: strings are bytes,
the maps of a message hold pointers, and an operation may panic. Requests are what
the handlers and the gossip loop ask of the store. The bodies of gossip requests
are JSON documents, and what else a client sends in a body has been read from one.

`Holds V Q` is the invariant of such a store: none of its pointers and maps is nil,
all its strings are in `V`, and the markers of its elements have the property `Q`.
`Holds.call` says what a request does to it; `Over V` asks nothing but strings in `V`
of the markers, too.
-/
namespace Commute.Server

open Crdt Fault Gossip Json

/-- Counters and registers have no pointers of their own, so their operations do not panic. -/
instance (priority := low) {V : Type} [DeltaValue V] : CheckedValue Trap V where
  nilPointer := .nilPointer
  merge a b := .ok (DeltaValue.merge a b)
  isLessOrEqual a b := .ok (DeltaValue.isLessOrEqual a b)
  clone := .ok
  shared := DeltaValue.shared

/-- `Message`, as a peer reads it. -/
structure WireMessage (T : Type) where
  countersSeq : UInt64
  counters : Option (FMap ByteString (Option (PNCounter ByteString)))
  registersSeq : UInt64
  registers : Option (FMap ByteString (Option (LWWRegister ByteString T RawMessage)))
  setsSeq : UInt64
  sets : Option (FMap ByteString (Option (RawORSet ByteString ByteString)))

/-- What `Delta` has encoded at its end; a part without news is nil. -/
structure Outgoing (T : Type) where
  countersSeq : ℕ
  counters : Option (FMap ByteString (PNCounter ByteString))
  registersSeq : ℕ
  registers : Option (FMap ByteString (LWWRegister ByteString T RawMessage))
  setsSeq : ℕ
  sets : Option (FMap ByteString (RawORSet ByteString ByteString))

structure RawStore (A T : Type) where
  nodeID : ByteString
  counters : Ledger A ByteString (PNCounter ByteString)
  registers : Ledger A ByteString (LWWRegister ByteString T RawMessage)
  sets : Ledger A ByteString (RawORSet ByteString ByteString)

/-- A call of the store. A register is set at the time `now`, and the elements of sets are
strings of a document. -/
inductive Request (A T : Type) where
  | incrementCounter (key : ByteString) (value : UInt64)
  | decrementCounter (key : ByteString) (value : UInt64)
  | setRegister (key : ByteString) (value : Json) (now : T)
  | addSet (key : ByteString) (value : List Char) (vv : VV64 ByteString)
  | removeSet (key : ByteString) (value : List Char) (vv : VV64 ByteString)
  | gossip (body : Json)
  | ack (sender : A) (body : AckMessage)
  | delta (peer : A)

section Documents

variable {T : Type} [TimeText T]

def WireMessage.unmarshalJSON : Decoder (WireMessage T) :=
  struct (fun key j msg =>
    if named "countersSeq" key then
      (uint64 msg.countersSeq j).map fun seq => { msg with countersSeq := seq }
    else if named "counters" key then
      (map (pointer PNCounter.unmarshalJSON) msg.counters j).map fun m => { msg with counters := m }
    else if named "registersSeq" key then
      (uint64 msg.registersSeq j).map fun seq => { msg with registersSeq := seq }
    else if named "registers" key then
      (map (pointer LWWRegister.unmarshalJSON) msg.registers j).map fun m =>
        { msg with registers := m }
    else if named "setsSeq" key then
      (uint64 msg.setsSeq j).map fun seq => { msg with setsSeq := seq }
    else if named "sets" key then
      (map (pointer RawORSet.unmarshalJSON) msg.sets j).map fun m => { msg with sets := m }
    else .ok msg) ⟨0, none, 0, none, 0, none⟩

def Outgoing.marshalJSON (out : Outgoing T) : Json :=
  .obj [("countersSeq".toList, .nat (UInt64.ofNat out.countersSeq).toNat),
    ("counters".toList, marshalMap PNCounter.marshalJSON out.counters),
    ("registersSeq".toList, .nat (UInt64.ofNat out.registersSeq).toNat),
    ("registers".toList, marshalMap LWWRegister.marshalJSON out.registers),
    ("setsSeq".toList, .nat (UInt64.ofNat out.setsSeq).toNat),
    ("sets".toList, marshalMap RawORSet.marshalJSON out.sets)]

end Documents

namespace RawStore

variable {A T : Type}

def new (nodeID : ByteString) : RawStore A T := ⟨nodeID, .new, .new, .new⟩

def incrementCounter (key : ByteString) (value : UInt64) (st : RawStore A T) :
    Except Trap (RawStore A T) :=
  (st.counters.writeM (.new st.nodeID) key fun c => .ok (c.increment value)).map fun counters =>
    { st with counters := counters }

def decrementCounter (key : ByteString) (value : UInt64) (st : RawStore A T) :
    Except Trap (RawStore A T) :=
  (st.counters.writeM (.new st.nodeID) key fun c => .ok (c.decrement value)).map fun counters =>
    { st with counters := counters }

def addSet (key value : ByteString) (vv : VV64 ByteString) (st : RawStore A T) :
    Except Trap (RawStore A T) :=
  (st.sets.writeM (.new st.nodeID) key (RawORSet.add value vv)).map fun sets =>
    { st with sets := sets }

/-- A no-op if the set does not exist here or does not track the value. -/
def removeSet (key value : ByteString) (vv : VV64 ByteString) (st : RawStore A T) :
    Except Trap (RawStore A T) :=
  match st.sets.state.lookup key with
  | none => .ok st
  | some set => do
    let d ← set.remove value vv
    if d.isZero then .ok st
    else (st.sets.joinM (.new st.nodeID) key d).map fun sets => { st with sets := sets }

def getCounter (key : ByteString) (st : RawStore A T) : Int64 × Bool :=
  match st.counters.state.lookup key with
  | none => (0, false)
  | some counter => (counter.value, true)

def getRegister (key : ByteString) (st : RawStore A T) : RawMessage × Bool :=
  match st.registers.state.lookup key with
  | none => (none, false)
  | some register => (register.value, true)

/-- The values of the set, the contexts of its elements, and whether the set exists. -/
def getSet (key : ByteString) (st : RawStore A T) :
    Except Trap (List ByteString × FMap ByteString (VV64 ByteString) × Bool) :=
  match st.sets.state.lookup key with
  | none => .ok ([], ∅, false)
  | some set => do
    let values ← set.values
    let vvs ← set.causalContexts
    .ok (values, vvs, true)

variable [TimeText T]

def setRegister (key : ByteString) (value : Json) (now : T) (st : RawStore A T) :
    Except Trap (RawStore A T) :=
  (st.registers.writeM (.new st.nodeID) key fun r => .ok (r.set (some value) now)).map
    fun registers => { st with registers := registers }

/-- Incorporate a message, key by key in the order of its maps. -/
def merge (msg : WireMessage T) (st : RawStore A T) : Except Trap (AckMessage × RawStore A T) := do
  let counters ← st.counters.mergeAllM (.new st.nodeID) (msg.counters.getD ∅)
  let registers ← st.registers.mergeAllM (.new st.nodeID) (msg.registers.getD ∅)
  let sets ← st.sets.mergeAllM (.new st.nodeID) (msg.sets.getD ∅)
  .ok (⟨msg.countersSeq.toNat, msg.registersSeq.toNat, msg.setsSeq.toNat⟩,
    ⟨st.nodeID, counters, registers, sets⟩)

def postGossip (body : Json) (st : RawStore A T) : Except Trap (RawStore A T) :=
  match WireMessage.unmarshalJSON body with
  | .error _ => .ok st
  | .ok msg => (st.merge msg).map Prod.snd

variable [DecidableEq A]

def ack (sender : A) (body : AckMessage) (st : RawStore A T) : RawStore A T :=
  { st with
    counters := st.counters.ack sender body.countersSeq
    registers := st.registers.ack sender body.registersSeq
    sets := st.sets.ack sender body.setsSeq }

/-- The message for a peer, `none` if there is no news of any type, and the store with the
counter log that building the message may have modified. -/
def delta (peer : A) (st : RawStore A T) : Except Trap (Option (Outgoing T) × RawStore A T) := do
  let counters ← st.counters.deltaM peer
  let registers ← st.registers.deltaM peer
  let sets ← st.sets.deltaM peer
  let out : Outgoing T :=
    ⟨(counters.1.map Prod.fst).getD 0, counters.1.map Prod.snd,
      (registers.1.map Prod.fst).getD 0, registers.1.map Prod.snd,
      (sets.1.map Prod.fst).getD 0, sets.1.map Prod.snd⟩
  let news := counters.1.isSome || registers.1.isSome || sets.1.isSome
  .ok (if news then some out else none, ⟨st.nodeID, counters.2, registers.2, sets.2⟩)

def call : Request A T → RawStore A T → Except Trap (RawStore A T)
  | .incrementCounter key value, st => st.incrementCounter key value
  | .decrementCounter key value, st => st.decrementCounter key value
  | .setRegister key value now, st => st.setRegister key value now
  | .addSet key value vv, st => st.addSet key (decodeString value) vv
  | .removeSet key value vv, st => st.removeSet key (decodeString value) vv
  | .gossip body, st => st.postGossip body
  | .ack sender body, st => .ok (st.ack sender body)
  | .delta peer, st => (st.delta peer).map Prod.snd

/-- Requests one after the other, until one of them panics. -/
def run (requests : List (Request A T)) (st : RawStore A T) : Except Trap (RawStore A T) :=
  requests.foldlM (fun st r => st.call r) st

/-- The store of the node `nodeID` after requests that have all returned. -/
def Reachable (nodeID : ByteString) (st : RawStore A T) : Prop :=
  ∃ requests, run requests (new nodeID) = .ok st

end RawStore

namespace WireMessage

variable {T : Type}

/-- No map of the message holds a nil pointer, and no set of it a nil element. -/
structure NoNil (msg : WireMessage T) : Prop where
  counters : ∀ k p, (msg.counters.getD ∅).lookup k = some p → p ≠ none
  registers : ∀ k p, (msg.registers.getD ∅).lookup k = some p → p ≠ none
  sets : ∀ k p, (msg.sets.getD ∅).lookup k = some p → ∃ s, p = some s ∧ s.NoNil

structure Over (V : ByteString → Prop) (msg : WireMessage T) : Prop where
  counters : ∀ k p, (msg.counters.getD ∅).lookup k = some p → V k ∧ ∀ c, p = some c → c.Over V
  registers : ∀ k p, (msg.registers.getD ∅).lookup k = some p → V k ∧ ∀ r, p = some r → r.Over V
  sets : ∀ k p, (msg.sets.getD ∅).lookup k = some p → V k ∧ ∀ s, p = some s → s.Over V

variable [TimeText T] {V : ByteString → Prop} (hV : ∀ s, Json.Valid s → V s)

include hV in
theorem unmarshalJSON_accepts (j : Json) :
    Accepts (Over V : WireMessage T → Prop) (unmarshalJSON j) := by
  have hseq : ∀ {old : UInt64} {j : Json}, Accepts (fun _ => True) (uint64 old j) := by
    intro old j
    cases uint64 old j <;> trivial
  refine struct_accepts ?_ ⟨by simp, by simp, by simp⟩ j
  intro key j msg hmsg
  split_ifs
  · exact hseq.map fun _ _ => ⟨hmsg.counters, hmsg.registers, hmsg.sets⟩
  · exact (map_accepts (fun k j hk => (pointer_accepts (PNCounter.unmarshalJSON_accepts hV) j).imp
      fun p hp => ⟨hV k hk, hp⟩) hmsg.counters j).map fun _ h => ⟨h, hmsg.registers, hmsg.sets⟩
  · exact hseq.map fun _ _ => ⟨hmsg.counters, hmsg.registers, hmsg.sets⟩
  · exact (map_accepts (fun k j hk => (pointer_accepts (LWWRegister.unmarshalJSON_accepts hV) j).imp
      fun p hp => ⟨hV k hk, hp⟩) hmsg.registers j).map fun _ h => ⟨hmsg.counters, h, hmsg.sets⟩
  · exact hseq.map fun _ _ => ⟨hmsg.counters, hmsg.registers, hmsg.sets⟩
  · exact (map_accepts (fun k j hk => (pointer_accepts (RawORSet.unmarshalJSON_accepts hV) j).imp
      fun p hp => ⟨hV k hk, hp⟩) hmsg.sets j).map fun _ h => ⟨hmsg.counters, hmsg.registers, h⟩
  · exact hmsg

end WireMessage

/-- Keys and ids are in `V`, nothing is nil, and markers have the property `Q`. -/
structure Outgoing.Holds {T : Type} (V : ByteString → Prop)
    (Q : ByteString → FMap ByteString (DVVEntry64 Bool) → Prop) (out : Outgoing T) : Prop where
  counters : ∀ k c, (out.counters.getD ∅).lookup k = some c → V k ∧ c.Over V
  registers : ∀ k r, (out.registers.getD ∅).lookup k = some r → V k ∧ r.Over V
  sets : ∀ k s, (out.sets.getD ∅).lookup k = some s → V k ∧ V s.nodeID ∧ s.Solid Q

abbrev Outgoing.Over {T : Type} (V : ByteString → Prop) : Outgoing T → Prop :=
  Outgoing.Holds V (MarkersOver V)

namespace Request

variable {A T : Type}

def Over (V : ByteString → Prop) : Request A T → Prop
  | incrementCounter key _ => V key
  | decrementCounter key _ => V key
  | setRegister key _ _ => V key
  | addSet key _ _ => V key
  | removeSet key _ _ => V key
  | _ => True

def isSetWrite : Request A T → Bool
  | addSet _ _ _ => true
  | removeSet _ _ _ => true
  | _ => false

variable [TimeText T]

def NoNil : Request A T → Prop
  | gossip body => ∀ msg : WireMessage T, WireMessage.unmarshalJSON body = .ok msg → msg.NoNil
  | _ => True

/-- The context of a write is in `C`, and the markers of a message have the property `Q`. -/
def Carries (C : VV64 ByteString → Prop)
    (Q : ByteString → FMap ByteString (DVVEntry64 Bool) → Prop) : Request A T → Prop
  | addSet _ _ vv => C vv
  | removeSet _ _ vv => C vv
  | gossip body => ∀ msg : WireMessage T, WireMessage.unmarshalJSON body = .ok msg →
    ∀ k s, (msg.sets.getD ∅).lookup k = some (some s) → s.Markers Q
  | _ => True

theorem Carries.imp {C C' : VV64 ByteString → Prop}
    {Q Q' : ByteString → FMap ByteString (DVVEntry64 Bool) → Prop} {r : Request A T}
    (h : r.Carries C Q) (hC : r.isSetWrite = true → ∀ vv, C vv → C' vv)
    (hQ : ∀ e d, Q e d → Q' e d) : r.Carries C' Q' := by
  cases r with
  | addSet key value vv => exact hC rfl vv h
  | removeSet key value vv => exact hC rfl vv h
  | gossip body => exact fun msg hmsg k s hs e d hd => hQ e d (h msg hmsg k s hs e d hd)
  | _ => trivial

theorem carries_markersOver {V : ByteString → Prop} (hV : ∀ s, Json.Valid s → V s)
    (r : Request A T) : r.Carries (fun _ => True) (MarkersOver V) := by
  cases r with
  | gossip body =>
    intro msg hmsg k s hs
    have hover := (WireMessage.unmarshalJSON_accepts hV body).of_ok hmsg
    exact ((hover.sets k (some s) hs).2 s rfl).markers
  | _ => trivial

end Request

section Safe

variable {F : Trap → Prop} {V : ByteString → Prop} {C : VV64 ByteString → Prop}
  {Q₀ Q : ByteString → FMap ByteString (DVVEntry64 Bool) → Prop} {T : Type} [TimeText T]

theorem safe_of_closed {W : Type} [DeltaValue W] {P : W → Prop}
    (hmerge : ∀ {a b}, P a → P b → P (DeltaValue.merge a b))
    (hshared : ∀ {a b}, P a → P b → P (DeltaValue.shared a b)) :
    Safe F fun (_ : ByteString) => P where
  merge := fun h h' => hmerge h h'
  isLessOrEqual := fun _ _ => trivial
  clone := fun h => h
  shared := hshared

theorem safe_counters : Safe F fun k (c : PNCounter ByteString) => V k ∧ c.Over V :=
  (safe_of_closed (P := PNCounter.Over V) (fun h h' => h.merge h') fun h h' => h.shared h').keyed V

theorem safe_registers :
    Safe F fun k (r : LWWRegister ByteString T RawMessage) => V k ∧ r.Over V :=
  (safe_of_closed (P := LWWRegister.Over V) (fun h h' => h.merge h') fun h _ => h).keyed V

theorem safe_sets (hQ : RawORSet.Stable F V C Q₀ Q) :
    Safe F fun k (s : RawORSet ByteString ByteString) => V k ∧ V s.nodeID ∧ s.Solid Q :=
  (RawORSet.safe_solid hQ).keyed V

end Safe

namespace RawStore

variable {A T : Type}

/-- Nothing in the store and its logs is nil, all keys and ids are in `V`, and the markers of
every element have the property `Q`. -/
structure Holds (V : ByteString → Prop)
    (Q : ByteString → FMap ByteString (DVVEntry64 Bool) → Prop) (st : RawStore A T) : Prop where
  nodeID : V st.nodeID
  counters : st.counters.All fun k c => V k ∧ c.Over V
  registers : st.registers.All fun k r => V k ∧ r.Over V
  sets : st.sets.All fun k s => V k ∧ V s.nodeID ∧ s.Solid Q

/-- Nothing in the store and its logs is nil, and all strings are in `V`. -/
abbrev Over (V : ByteString → Prop) : RawStore A T → Prop := Holds V (MarkersOver V)

variable {F : Trap → Prop} {V : ByteString → Prop} {C : VV64 ByteString → Prop}
  {Q₀ Q : ByteString → FMap ByteString (DVVEntry64 Bool) → Prop} {st : RawStore A T}
  {key value : ByteString}

theorem Holds.new {nodeID : ByteString} (h : V nodeID) : (new nodeID : RawStore A T).Holds V Q :=
  ⟨h, .new _, .new _, .new _⟩

theorem Holds.imp (h : st.Holds V Q₀) (hQ : ∀ e d, Q₀ e d → Q e d) : st.Holds V Q :=
  ⟨h.nodeID, h.counters, h.registers, h.sets.imp fun _ _ hs => ⟨hs.1, hs.2.1, hs.2.2.imp hQ⟩⟩

section Writes

theorem Holds.freshSet (h : st.Holds V Q₀) (hkey : V key) :
    V key ∧ V (RawORSet.new st.nodeID : RawORSet ByteString ByteString).nodeID ∧
      (RawORSet.new st.nodeID : RawORSet ByteString ByteString).Solid Q :=
  ⟨hkey, h.nodeID, .new st.nodeID⟩

theorem Holds.writeCounter (h : st.Holds V Q) (hkey : V key)
    {f : PNCounter ByteString → PNCounter ByteString} (hf : ∀ c, c.Over V → (f c).Over V) :
    Outcome F (Holds V Q)
      ((st.counters.writeM (.new st.nodeID) key fun c => .ok (f c)).map fun counters =>
        { st with counters := counters }) := by
  have hfresh : V key ∧ (PNCounter.new st.nodeID).Over V := ⟨hkey, .new h.nodeID⟩
  refine (h.counters.writeM safe_counters hfresh ?_).map
    fun counters hcounters => ⟨h.nodeID, hcounters, h.registers, h.sets⟩
  exact ⟨hkey, hf _ (h.counters.valueOr hfresh).2⟩

variable (hV : ∀ s, Json.Valid s → V s)

include hV

theorem Holds.incrementCounter (h : st.Holds V Q) (hkey : V key) (n : UInt64) :
    Outcome F (Holds V Q) (st.incrementCounter key n) :=
  h.writeCounter hkey fun _ hc => hc.increment hV n

theorem Holds.decrementCounter (h : st.Holds V Q) (hkey : V key) (n : UInt64) :
    Outcome F (Holds V Q) (st.decrementCounter key n) :=
  h.writeCounter hkey fun _ hc => hc.decrement hV n

variable (hQ : RawORSet.Stable F V C Q₀ Q) (hempty : ∀ e, V e → Q₀ e ∅)

include hQ hempty

theorem mark_outcome {s : RawORSet ByteString ByteString} (hkey : V key) (hvalue : V value)
    (hs : V s.nodeID ∧ s.Solid Q₀) (marker : Bool) {vv : VV64 ByteString} (hvv : C vv) :
    Outcome F (fun d : RawORSet ByteString ByteString => V key ∧ V d.nodeID ∧ d.Solid Q)
      (s.mark marker value vv) := by
  refine (hs.2.mark hQ hs.1 marker (hempty value hvalue) hvv).imp fun d hd => ?_
  exact ⟨hkey, hd.1 ▸ hV _ Json.valid_empty, hd.2⟩

theorem Holds.addSet (h : st.Holds V Q₀) (hkey : V key) (hvalue : V value)
    {vv : VV64 ByteString} (hvv : C vv) : Outcome F (Holds V Q) (st.addSet key value vv) := by
  have h' : st.Holds V Q := h.imp fun _ _ => hQ.imp
  have hset := h.sets.valueOr (h.freshSet hkey)
  exact (h'.sets.writeM (safe_sets hQ) (h.freshSet hkey)
    (mark_outcome hV hQ hempty hkey hvalue hset.2 true hvv)).map
      fun sets hsets => ⟨h.nodeID, h.counters, h.registers, hsets⟩

theorem Holds.removeSet (h : st.Holds V Q₀) (hkey : V key) (hvalue : V value)
    {vv : VV64 ByteString} (hvv : C vv) : Outcome F (Holds V Q) (st.removeSet key value vv) := by
  have h' : st.Holds V Q := h.imp fun _ _ => hQ.imp
  unfold RawStore.removeSet
  cases hset : st.sets.state.lookup key with
  | none => exact h'
  | some set =>
    dsimp only
    unfold RawORSet.remove
    cases set.elements.lookup value with
    | none => exact h'
    | some p =>
      dsimp only
      refine (mark_outcome hV hQ hempty hkey hvalue (h.sets.state key set hset).2 false hvv).bind
        fun d hd => ?_
      split_ifs
      · exact h'
      · exact (h'.sets.joinM (safe_sets hQ) (h.freshSet hkey) hd).map
          fun sets hsets => ⟨h.nodeID, h.counters, h.registers, hsets⟩

omit hQ hempty in
theorem Over.addSet (h : st.Over V) (hkey : V key) (hvalue : V value) (vv : VV64 ByteString) :
    Outcome (· = .sliceBounds) (Over V) (st.addSet key value vv) :=
  Holds.addSet hV stable_markersOver markersOver_empty h hkey hvalue trivial

omit hQ hempty in
theorem Over.removeSet (h : st.Over V) (hkey : V key) (hvalue : V value) (vv : VV64 ByteString) :
    Outcome (· = .sliceBounds) (Over V) (st.removeSet key value vv) :=
  Holds.removeSet hV stable_markersOver markersOver_empty h hkey hvalue trivial

end Writes

variable [TimeText T]

section Messages

variable (hV : ∀ s, Json.Valid s → V s)

include hV

theorem Holds.setRegister (h : st.Holds V Q) (hkey : V key) (j : Json) (now : T) :
    Outcome F (Holds V Q) (st.setRegister key j now) := by
  have hfresh : V key ∧ (LWWRegister.new st.nodeID : LWWRegister ByteString T RawMessage).Over V :=
    ⟨hkey, .new hV h.nodeID⟩
  have hdelta := (h.registers.valueOr hfresh).2.set hV (some j) now
  refine (h.registers.writeM safe_registers hfresh ?_).map
    fun registers hregisters => ⟨h.nodeID, h.counters, hregisters, h.sets⟩
  exact ⟨hkey, hdelta⟩

omit hV in
theorem forall_pointer {W : Type} {P : W → Prop} {m : FMap ByteString (Option W)}
    (hnil : ∀ k p, m.lookup k = some p → p ≠ none)
    (hover : ∀ k p, m.lookup k = some p → V k ∧ ∀ w, p = some w → P w) :
    ∀ k p, m.lookup k = some p → ∃ w, p = some w ∧ V k ∧ P w := by
  intro k p hp
  obtain ⟨w, hw⟩ := Option.ne_none_iff_exists'.mp (hnil k p hp)
  exact ⟨w, hw, (hover k p hp).imp_right fun h => h w hw⟩

variable (hQ : RawORSet.Stable F V C Q₀ Q)

include hQ

/-- A message without nil pointers is merged as a whole, unless a merge of markers fails. -/
theorem Holds.merge (h : st.Holds V Q) {msg : WireMessage T} (hmsg : msg.Over V)
    (hnil : msg.NoNil)
    (hmarkers : ∀ k s, (msg.sets.getD ∅).lookup k = some (some s) → s.Markers Q) :
    Outcome F (fun r => r.2.Holds V Q) (st.merge msg) := by
  have hcounters := forall_pointer hnil.counters hmsg.counters
  have hregisters := forall_pointer hnil.registers hmsg.registers
  have hsets : ∀ k p, (msg.sets.getD ∅).lookup k = some p →
      ∃ s, p = some s ∧ V k ∧ V s.nodeID ∧ s.Solid Q := by
    intro k p hp
    obtain ⟨s, rfl, hsnil⟩ := hnil.sets k p hp
    obtain ⟨hk, hover⟩ := hmsg.sets k _ hp
    exact ⟨s, rfl, hk, (hover s rfl).nodeID, (hover s rfl).solid hsnil (hmarkers k s hp)⟩
  refine (h.counters.mergeAllM safe_counters (fun k _ hk => ⟨hk.1, .new h.nodeID⟩) hcounters).bind
    fun counters hcounters' => ?_
  refine (h.registers.mergeAllM safe_registers (fun k _ hk => ⟨hk.1, .new hV h.nodeID⟩)
    hregisters).bind fun registers hregisters' => ?_
  refine (h.sets.mergeAllM (safe_sets hQ) (fun k _ hk => h.freshSet hk.1) hsets).bind
    fun sets hsets' => ?_
  exact ⟨h.nodeID, hcounters', hregisters', hsets'⟩

omit hQ in
theorem Over.merge (h : st.Over V) {msg : WireMessage T} (hmsg : msg.Over V) (hnil : msg.NoNil) :
    Outcome (· = .sliceBounds) (fun r => r.2.Over V) (st.merge msg) :=
  Holds.merge hV stable_markersOver h hmsg hnil fun k s hs => ((hmsg.sets k _ hs).2 s rfl).markers

theorem Holds.postGossip (h : st.Holds V Q) {body : Json} (hnil : ∀ msg : WireMessage T,
      WireMessage.unmarshalJSON body = .ok msg → msg.NoNil)
    (hmarkers : ∀ msg : WireMessage T, WireMessage.unmarshalJSON body = .ok msg →
      ∀ k s, (msg.sets.getD ∅).lookup k = some (some s) → s.Markers Q) :
    Outcome F (Holds V Q) (st.postGossip body) := by
  have haccepts := WireMessage.unmarshalJSON_accepts (T := T) hV body
  unfold RawStore.postGossip
  cases hmsg : WireMessage.unmarshalJSON (T := T) body with
  | error e => exact h
  | ok msg =>
    exact (h.merge hV hQ (haccepts.of_ok hmsg) (hnil msg hmsg) (hmarkers msg hmsg)).map
      fun _ hr => hr

end Messages

section Returned

/-- A merge that returns has read through every pointer of the message. -/
theorem noNil_of_merge {msg : WireMessage T} {r : AckMessage × RawStore A T}
    (h : st.merge msg = .ok r) : msg.NoNil := by
  obtain ⟨counters, hcounters, h⟩ := bind_eq_ok.mp h
  obtain ⟨registers, hregisters, h⟩ := bind_eq_ok.mp h
  obtain ⟨sets, hsets, -⟩ := bind_eq_ok.mp h
  refine ⟨?_, ?_, ?_⟩
  · intro k p hp
    obtain ⟨c, rfl, -⟩ := Ledger.of_mergeAllM (Q := fun _ => True) (fun _ => trivial)
      (fun _ => trivial) hcounters hp
    exact Option.some_ne_none c
  · intro k p hp
    obtain ⟨r, rfl, -⟩ := Ledger.of_mergeAllM (Q := fun _ => True) (fun _ => trivial)
      (fun _ => trivial) hregisters hp
    exact Option.some_ne_none r
  · intro k p hp
    exact Ledger.of_mergeAllM RawORSet.noNil_of_merge RawORSet.noNil_of_isLessOrEqual hsets hp

theorem noNil_of_call [DecidableEq A] {r : Request A T} {st' : RawStore A T}
    (h : st.call r = .ok st') : r.NoNil := by
  cases r with
  | gossip body =>
    intro msg hmsg
    change st.postGossip body = .ok st' at h
    unfold RawStore.postGossip at h
    rw [hmsg] at h
    obtain ⟨r, hr, -⟩ := map_eq_ok.mp h
    exact noNil_of_merge hr
  | _ => trivial

end Returned

section Runs

theorem forall_part {W : Type} {P : ByteString → W → Prop} {o : Option (ℕ × FMap ByteString W)}
    (h : ∀ n m, o = some (n, m) → ∀ k v, m.lookup k = some v → P k v) :
    ∀ k v, ((o.map Prod.snd).getD ∅).lookup k = some v → P k v := by
  cases o with
  | none => simp
  | some p => exact h p.1 p.2 rfl

variable [DecidableEq A]

theorem Holds.delta (hQ : RawORSet.Stable F V C Q₀ Q) (h : st.Holds V Q) (peer : A) :
    Outcome F (fun r => r.2.Holds V Q ∧ ∀ out, r.1 = some out → out.Holds V Q)
      (st.delta peer) := by
  refine (h.counters.deltaM safe_counters peer).bind fun counters hcounters => ?_
  refine (h.registers.deltaM safe_registers peer).bind fun registers hregisters => ?_
  refine (h.sets.deltaM (safe_sets hQ) peer).bind fun sets hsets => ?_
  refine ⟨⟨h.nodeID, hcounters.1, hregisters.1, hsets.1⟩, ?_⟩
  intro out hout
  split_ifs at hout
  obtain rfl := Option.some.inj hout
  refine ⟨?_, ?_, ?_⟩
  · exact forall_part hcounters.2
  · exact forall_part hregisters.2
  · exact forall_part hsets.2

theorem Over.delta (h : st.Over V) (peer : A) : Outcome (· = .sliceBounds)
    (fun r => r.2.Over V ∧ ∀ out, r.1 = some out → out.Over V) (st.delta peer) :=
  Holds.delta stable_markersOver h peer

variable (hV : ∀ s, Json.Valid s → V s)

include hV

/-- What one request does to a store. -/
theorem Holds.call (hQ : RawORSet.Stable F V C Q₀ Q) (hempty : ∀ e, V e → Q₀ e ∅)
    (h : st.Holds V Q₀) {r : Request A T} (hr : r.Over V) (hnil : r.NoNil)
    (hcarries : r.Carries C Q) : Outcome F (Holds V Q) (st.call r) := by
  have h' : st.Holds V Q := h.imp fun _ _ => hQ.imp
  cases r with
  | incrementCounter key value => exact h'.incrementCounter hV hr value
  | decrementCounter key value => exact h'.decrementCounter hV hr value
  | setRegister key value now => exact h'.setRegister hV hr value now
  | addSet key value vv =>
    exact h.addSet hV hQ hempty hr (hV _ (valid_decodeString value)) hcarries
  | removeSet key value vv =>
    exact h.removeSet hV hQ hempty hr (hV _ (valid_decodeString value)) hcarries
  | gossip body => exact h'.postGossip hV hQ hnil hcarries
  | ack sender body =>
    exact ⟨h.nodeID, ⟨h'.counters.state, h'.counters.logged, h'.counters.history⟩,
      ⟨h'.registers.state, h'.registers.logged, h'.registers.history⟩,
      ⟨h'.sets.state, h'.sets.logged, h'.sets.history⟩⟩
  | delta peer => exact (h'.delta hQ peer).map fun _ hr => hr.1

theorem Over.call (h : st.Over V) {r : Request A T} (hr : r.Over V) (hnil : r.NoNil) :
    Outcome (· = .sliceBounds) (Over V) (st.call r) :=
  Holds.call hV stable_markersOver markersOver_empty h hr hnil
    (Request.carries_markersOver hV r)

theorem Over.run (h : st.Over V) {requests : List (Request A T)}
    (hrequests : ∀ r ∈ requests, r.Over V ∧ r.NoNil) :
    Outcome (· = .sliceBounds) (Over V) (run requests st) :=
  Outcome.foldlM (fun _ r hr h => Over.call hV h (hrequests r hr).1 (hrequests r hr).2) h

theorem Over.of_run (h : st.Over V) {requests : List (Request A T)}
    (hrequests : ∀ r ∈ requests, r.Over V) {st' : RawStore A T}
    (hrun : RawStore.run requests st = .ok st') : st'.Over V := by
  refine (Over.run hV h fun r hr => ⟨hrequests r hr, ?_⟩).of_ok hrun
  obtain ⟨before, after, hcall⟩ := Outcome.visited_of_foldlM hrun r hr
  exact noNil_of_call hcall

end Runs

end RawStore
end Commute.Server
