import Commute.Crdt.Counter
import Commute.Crdt.RawORSet
import Commute.Crdt.Register
import Commute.Foundation.Json

/-!
# `MarshalJSON` and `UnmarshalJSON` of the replicated types

Every type writes its replicated fields and reads them back by a function of its
own. A counter omits its parts without entries and comes back with nil maps; sets
and markers replace a nil map by an empty one when they are read, but not a nil
pointer among their elements.

Two facts about each type: the strings of what is read are valid UTF-8, and a
value whose strings are valid UTF-8 is read back as an equal one. `Over V` says
that the owner and the ids of a value are in `V`, a set of strings with all valid
ones.
-/
namespace Commute.Crdt

open Gossip Json

/-- The text of a time. A peer reads it back without what is not encoded. -/
class TimeText (T : Type) extends Instant T where
  format : T → List Char
  parse : List Char → Option T
  parse_format : ∀ t, parse (format t) = some (decoded t)

/-- A time written as that many strokes. -/
instance : TimeText ℕ where
  format t := List.replicate t '1'
  parse s := some s.length
  parse_format _ := congrArg some List.length_replicate

/-- A value of a register as JSON text, up to white space and escaping; `none` is nil. -/
abbrev RawMessage := Option Json

/-- A map is written as an object and a nil one as `null`. -/
def marshalMap {V : Type} (f : V → Json) : Option (FMap ByteString V) → Json
  | none => .null
  | some m => .ofMap f m

/-- A pointer is written as what it points to. -/
def marshalPointer {V : Type} (f : V → Json) : Option V → Json
  | none => .null
  | some v => f v

theorem eq_of_rel {V : Type} {a b : Option V} (h : Option.Rel Eq a b) : b = a := by
  cases h with
  | none => rfl
  | some h => rw [h]

section Counters

variable {V : ByteString → Prop} (hV : ∀ s, Json.Valid s → V s)

namespace GCounter

def marshalJSON (g : GCounter ByteString) : Json :=
  .obj [("counters".toList, marshalMap (fun n => .nat n.toNat) g.counters)]

def unmarshalJSON : Decoder (GCounter ByteString) := fun j =>
  (struct (fun key j counters =>
    if named "Counters" key then map (uint64 0) counters j else .ok counters) none j).map
    fun counters => ⟨default, counters⟩

structure Over (V : ByteString → Prop) (g : GCounter ByteString) : Prop where
  nodeID : V g.nodeID
  ids : ∀ id n, g.entries.lookup id = some n → V id

include hV in
theorem Over.nil : Over V ⟨default, none⟩ := ⟨hV _ Json.valid_empty, by simp [entries]⟩

include hV in
theorem unmarshalJSON_accepts (j : Json) : Accepts (Over V) (unmarshalJSON j) := by
  refine Outcome.map (P := fun counters : Option (FMap ByteString UInt64) =>
    ∀ id n, (counters.getD ∅).lookup id = some n → V id) (struct_accepts ?_ (by simp) j)
    fun counters hcounters => ⟨hV _ Json.valid_empty, hcounters⟩
  intro key j counters hcounters
  split_ifs
  · refine map_accepts (fun k j hk => ?_) hcounters j
    cases uint64 0 j with
    | error e => trivial
    | ok n => exact hV k hk
  · exact hcounters

section Operations

variable {g other : GCounter ByteString}

theorem Over.new {nodeID : ByteString} (h : V nodeID) : (GCounter.new nodeID).Over V :=
  ⟨h, by simp [GCounter.new, entries]⟩

include hV in
theorem Over.increment (h : g.Over V) (n : UInt64) : (g.increment n).Over V := by
  refine ⟨hV _ Json.valid_empty, ?_⟩
  intro id m hm
  have hid : id = g.nodeID := by
    by_contra hne
    simp [GCounter.increment, entries, FMap.lookup_singleton, hne] at hm
  exact hid ▸ h.nodeID

theorem Over.merge (h : g.Over V) (h' : other.Over V) : (g.merge other).Over V := by
  refine ⟨h.nodeID, ?_⟩
  intro id n hn
  have hentries : (g.merge other).entries =
      FMap.upsertAll (fun own v => max (own.getD 0) v) other.entries g.entries := rfl
  rw [hentries, FMap.lookup_upsertAll] at hn
  cases ho : other.entries.lookup id with
  | none => rw [ho] at hn; exact h.ids id n hn
  | some m => exact h'.ids id m ho

theorem Over.shared (h : g.Over V) (h' : other.Over V) : (g.shared other).Over V := by
  refine ⟨h.nodeID, ?_⟩
  obtain ⟨nodeID, counters⟩ := g
  cases counters with
  | none => exact h.ids
  | some m => exact h'.ids

end Operations

theorem unmarshalJSON_marshalJSON {g : GCounter ByteString} (h : g.Over Json.Valid) :
    ∃ g', unmarshalJSON g.marshalJSON = .ok g' ∧ ∀ id, g'.count id = g.count id := by
  obtain ⟨nodeID, counters⟩ := g
  cases counters with
  | none => exact ⟨⟨default, none⟩, rfl, fun id => by simp⟩
  | some m =>
    have hids : ∀ id n, m.lookup id = some n → Json.Valid id := h.ids
    obtain ⟨m', hm', hlookup⟩ := map_ofMap (R := Eq) hids fun _ n _ => ⟨n, uint64_nat 0 n, rfl⟩
    refine ⟨⟨default, some m'⟩, ?_, ?_⟩
    · have hname : named "Counters" "counters".toList = true := rfl
      simp only [unmarshalJSON, marshalJSON, marshalMap, struct, List.foldlM_cons, hname, if_true]
      rw [hm']
      rfl
    · intro id
      exact congrArg (fun n => (n.getD 0).toNat) (eq_of_rel (hlookup id))

end GCounter

namespace PNCounter

def marshalJSON (pn : PNCounter ByteString) : Json :=
  .obj ((if pn.inc.isZero then [] else [("inc".toList, pn.inc.marshalJSON)]) ++
    if pn.dec.isZero then [] else [("dec".toList, pn.dec.marshalJSON)])

def unmarshalJSON : Decoder (PNCounter ByteString) :=
  struct (fun key j pn =>
    if named "inc" key then (GCounter.unmarshalJSON j).map fun inc => { pn with inc := inc }
    else if named "dec" key then (GCounter.unmarshalJSON j).map fun dec => { pn with dec := dec }
    else .ok pn) ⟨⟨default, none⟩, ⟨default, none⟩⟩

structure Over (V : ByteString → Prop) (pn : PNCounter ByteString) : Prop where
  inc : pn.inc.Over V
  dec : pn.dec.Over V

include hV in
theorem unmarshalJSON_accepts (j : Json) : Accepts (Over V) (unmarshalJSON j) := by
  refine struct_accepts ?_ ⟨.nil hV, .nil hV⟩ j
  intro key j pn hpn
  split_ifs
  · exact (GCounter.unmarshalJSON_accepts hV j).map fun inc hinc => ⟨hinc, hpn.dec⟩
  · exact (GCounter.unmarshalJSON_accepts hV j).map fun dec hdec => ⟨hpn.inc, hdec⟩
  · exact hpn

theorem Over.new {nodeID : ByteString} (h : V nodeID) : (PNCounter.new nodeID).Over V :=
  ⟨.new h, .new h⟩

section Operations

variable {pn other : PNCounter ByteString}

include hV in
theorem Over.increment (h : pn.Over V) (n : UInt64) : (pn.increment n).Over V :=
  ⟨h.inc.increment hV n, .nil hV⟩

include hV in
theorem Over.decrement (h : pn.Over V) (n : UInt64) : (pn.decrement n).Over V :=
  ⟨.nil hV, h.dec.increment hV n⟩

theorem Over.merge (h : pn.Over V) (h' : other.Over V) : (pn.merge other).Over V :=
  ⟨h.inc.merge h'.inc, h.dec.merge h'.dec⟩

theorem Over.shared (h : pn.Over V) (h' : other.Over V) : (pn.shared other).Over V :=
  ⟨h.inc.shared h'.inc, h.dec.shared h'.dec⟩

end Operations

theorem count_eq_zero {g : GCounter ByteString} (h : g.isZero = true) (id : ByteString) :
    g.count id = 0 := by
  have hnil : g.entries.entries = [] := List.isEmpty_iff.mp h
  exact GCounter.count_eq_zero_of_notMem (by simp [AList.lookup, hnil])

def Same (pn pn' : PNCounter ByteString) : Prop :=
  ∀ id, pn'.inc.count id = pn.inc.count id ∧ pn'.dec.count id = pn.dec.count id

theorem unmarshalJSON_marshalJSON {pn : PNCounter ByteString} (h : pn.Over Json.Valid) :
    ∃ pn', unmarshalJSON pn.marshalJSON = .ok pn' ∧ pn.Same pn' := by
  obtain ⟨inc, hinc, hinc'⟩ := GCounter.unmarshalJSON_marshalJSON h.inc
  obtain ⟨dec, hdec, hdec'⟩ := GCounter.unmarshalJSON_marshalJSON h.dec
  unfold marshalJSON
  by_cases hi : pn.inc.isZero = true <;> by_cases hd : pn.dec.isZero = true
  · refine ⟨_, by rw [if_pos hi, if_pos hd]; rfl, fun id => ?_⟩
    simp [count_eq_zero hi, count_eq_zero hd]
  · refine ⟨⟨⟨default, none⟩, dec⟩, ?_, fun id => ?_⟩
    · rw [if_pos hi, if_neg hd]
      change (Except.map _ (GCounter.unmarshalJSON pn.dec.marshalJSON) >>= _) = _
      rw [hdec]
      rfl
    · simp [count_eq_zero hi, hdec']
  · refine ⟨⟨inc, ⟨default, none⟩⟩, ?_, fun id => ?_⟩
    · rw [if_neg hi, if_pos hd]
      change (Except.map _ (GCounter.unmarshalJSON pn.inc.marshalJSON) >>= _) = _
      rw [hinc]
      rfl
    · simp [count_eq_zero hd, hinc']
  · refine ⟨⟨inc, dec⟩, ?_, fun id => ⟨hinc' id, hdec' id⟩⟩
    rw [if_neg hi, if_neg hd]
    change (Except.map _ (GCounter.unmarshalJSON pn.inc.marshalJSON) >>= fun pn' =>
      Except.map _ (GCounter.unmarshalJSON pn.dec.marshalJSON) >>= _) = _
    rw [hinc, hdec]
    rfl

end PNCounter

end Counters

section Registers

variable {T : Type} [TimeText T] {V : ByteString → Prop} (hV : ∀ s, Json.Valid s → V s)

def time (old : T) : Decoder T
  | .null => .ok old
  | .str s =>
    match TimeText.parse s with
    | some t => .ok t
    | none => .error .mismatch
  | _ => .error .mismatch

namespace LWWRegister

def marshalJSON (lww : LWWRegister ByteString T RawMessage) : Json :=
  .obj [("writerId".toList, .str (encodeString lww.entry.writerID)),
    ("timestamp".toList, .str (TimeText.format lww.entry.timestamp)),
    ("value".toList, lww.entry.value.getD .null)]

/-- The value is kept as it stands, `null` included. -/
def unmarshalJSON : Decoder (LWWRegister ByteString T RawMessage) := fun j =>
  (struct (fun key j entry =>
    if named "writerId" key then
      (Json.string entry.writerID j).map fun writerID => { entry with writerID := writerID }
    else if named "timestamp" key then
      (time entry.timestamp j).map fun timestamp => { entry with timestamp := timestamp }
    else if named "value" key then .ok { entry with value := some j }
    else .ok entry) default j).map fun entry => ⟨default, entry⟩

structure Over (V : ByteString → Prop) (lww : LWWRegister ByteString T RawMessage) : Prop where
  nodeID : V lww.nodeID
  writerID : V lww.entry.writerID

include hV in
theorem unmarshalJSON_accepts (j : Json) :
    Accepts (Over V : LWWRegister ByteString T RawMessage → Prop) (unmarshalJSON j) := by
  have hempty : V default := hV _ Json.valid_empty
  refine (struct_accepts (P := fun entry : LWWEntry ByteString T RawMessage => V entry.writerID)
    ?_ hempty j).map fun entry hentry => ⟨hempty, hentry⟩
  intro key j entry hentry
  split_ifs
  · cases j with
    | null => exact hentry
    | str s => exact hV _ (valid_decodeString s)
    | _ => trivial
  · cases time entry.timestamp j with
    | error e => trivial
    | ok t => exact hentry
  · exact hentry
  · exact hentry

include hV in
theorem Over.new {nodeID : ByteString} (h : V nodeID) :
    (LWWRegister.new nodeID : LWWRegister ByteString T RawMessage).Over V :=
  ⟨h, hV _ Json.valid_empty⟩

section Operations

variable {lww other : LWWRegister ByteString T RawMessage}

omit [TimeText T] in
include hV in
theorem Over.set (h : lww.Over V) (value : RawMessage) (now : T) : (lww.set value now).Over V :=
  ⟨hV _ Json.valid_empty, h.nodeID⟩

theorem Over.merge (h : lww.Over V) (h' : other.Over V) : (lww.merge other).Over V := by
  unfold LWWRegister.merge
  split_ifs
  · exact ⟨h.nodeID, h'.writerID⟩
  · exact h

end Operations

/-- The same entry, without what the text of a time does not contain. A nil value is the JSON
value `null`. -/
structure Same (lww lww' : LWWRegister ByteString T RawMessage) : Prop where
  writerID : lww'.entry.writerID = lww.entry.writerID
  timestamp : lww'.entry.timestamp = Instant.decoded lww.entry.timestamp
  value : lww'.entry.value.getD .null = lww.entry.value.getD .null

theorem unmarshalJSON_marshalJSON {lww : LWWRegister ByteString T RawMessage}
    (h : lww.Over Json.Valid) :
    ∃ lww', unmarshalJSON lww.marshalJSON = .ok lww' ∧ lww.Same lww' := by
  have htime : time default (.str (TimeText.format lww.entry.timestamp)) =
      .ok (Instant.decoded lww.entry.timestamp) := by
    unfold time
    dsimp only
    rw [TimeText.parse_format]
  refine ⟨⟨default, ⟨lww.entry.writerID, Instant.decoded lww.entry.timestamp,
    some (lww.entry.value.getD .null)⟩⟩, ?_, rfl, rfl, rfl⟩
  change Except.map _ ((time default (.str (TimeText.format lww.entry.timestamp))).map
    (fun timestamp => (⟨decodeString (encodeString lww.entry.writerID), timestamp, none⟩ :
      LWWEntry ByteString T RawMessage)) >>= _) = _
  rw [htime, h.writerID.decode_encode]
  rfl

end LWWRegister

end Registers

section Sets

variable {V : ByteString → Prop} (hV : ∀ s, Json.Valid s → V s)

def marshalEntry (e : DVVEntry64 Bool) : Json :=
  .obj [("counter".toList, .nat e.counter.toNat), ("values".toList, .ofList .bool e.values)]

def unmarshalEntry : Decoder (DVVEntry64 Bool) := fun j =>
  (struct (fun key j v =>
    if named "counter" key then (uint64 v.1 j).map fun counter => (counter, v.2)
    else if named "values" key then (slice boolean false v.2 j).map fun values => (v.1, values)
    else .ok v) (0, .nil) j).map fun v => ⟨v.1, v.2.toList⟩

theorem unmarshalEntry_marshalEntry (e : DVVEntry64 Bool) :
    unmarshalEntry (marshalEntry e) = .ok e := by
  have hboolean : ∀ v ∈ e.values, ∀ old, boolean old (.bool v) = .ok v := fun _ _ _ => rfl
  change Except.map _ ((uint64 0 (.nat e.counter.toNat)).map (fun counter =>
    (counter, (.nil : Slice Bool))) >>= _) = _
  rw [uint64_nat]
  change Except.map _ ((slice boolean false .nil (.ofList .bool e.values)).map (fun values =>
    (e.counter, values)) >>= _) = _
  rw [slice_ofList hboolean]
  change Except.ok (⟨e.counter, e.values.take e.values.length⟩ : DVVEntry64 Bool) = _
  rw [List.take_length]

example : unmarshalEntry (.obj [("values".toList, .arr [.bool true, .bool true]),
    ("values".toList, .arr [.null])]) = .ok ⟨0, [true]⟩ := rfl

/-- An element and the nodes that marked it are in `V`. -/
def MarkersOver (V : ByteString → Prop) (e : ByteString) (d : FMap ByteString (DVVEntry64 Bool)) :
    Prop := V e ∧ ∀ i entry, d.lookup i = some entry → V i

theorem markersOver_empty (e : ByteString) (he : V e) : MarkersOver V e ∅ := ⟨he, by simp⟩

theorem stable_markersOver : RawORSet.Stable (· = .sliceBounds) V (fun _ => True) (MarkersOver V)
    (MarkersOver V) where
  imp := id
  sync h h' := Trap.sliced_outcome fun _ hr => ⟨h.1, DVVSet64.sync_ids h.2 h'.2 hr⟩
  update h hnode _ _ := Trap.sliced_outcome fun _ hr => ⟨h.1, DVVSet64.update_ids h.2 hnode hr⟩

namespace RawDVVSet

def marshalJSON (ds : RawDVVSet ByteString) : Json :=
  .obj [("state".toList, marshalMap marshalEntry ds.state)]

/-- A nil map is replaced by an empty one. -/
def unmarshalJSON : Decoder (RawDVVSet ByteString) := fun j =>
  (struct (fun key j state =>
    if named "state" key then map unmarshalEntry state j else .ok state) none j).map
    fun state => ⟨some (state.getD ∅)⟩

include hV in
theorem unmarshalJSON_accepts {e : ByteString} (he : V e) (j : Json) :
    Accepts (fun ds => ∃ d, ds = ⟨some d⟩ ∧ MarkersOver V e d) (unmarshalJSON j) := by
  refine Outcome.map (P := fun state : Option (FMap ByteString (DVVEntry64 Bool)) =>
    ∀ i entry, (state.getD ∅).lookup i = some entry → V i) (struct_accepts ?_ (by simp) j)
    fun state hstate => ⟨_, rfl, he, hstate⟩
  intro key j state hstate
  split_ifs
  · refine map_accepts (fun k j hk => ?_) hstate j
    cases unmarshalEntry j with
    | error e => trivial
    | ok entry => exact hV k hk
  · exact hstate

theorem unmarshalJSON_marshalJSON {d : FMap ByteString (DVVEntry64 Bool)}
    (h : ∀ i entry, d.lookup i = some entry → Json.Valid i) :
    ∃ d', unmarshalJSON (⟨some d⟩ : RawDVVSet ByteString).marshalJSON = .ok ⟨some d'⟩ ∧
      ∀ i, d'.lookup i = d.lookup i := by
  have : Nonempty (DVVEntry64 Bool) := ⟨⟨0, []⟩⟩
  obtain ⟨d', hd', hlookup⟩ := map_ofMap (R := Eq) h fun _ entry _ =>
    ⟨entry, unmarshalEntry_marshalEntry entry, rfl⟩
  refine ⟨d', ?_, fun i => eq_of_rel (hlookup i)⟩
  change Except.map _ (map unmarshalEntry none (.ofMap marshalEntry d) >>= _) = _
  rw [hd']
  rfl

end RawDVVSet

namespace RawORSet

def marshalJSON (s : RawORSet ByteString ByteString) : Json :=
  .obj [("state".toList, marshalMap (marshalPointer RawDVVSet.marshalJSON) s.state)]

/-- A nil map is replaced by an empty one; its elements may be nil. -/
def unmarshalJSON : Decoder (RawORSet ByteString ByteString) := fun j =>
  (struct (fun key j state =>
    if named "state" key then map (pointer RawDVVSet.unmarshalJSON) state j
    else .ok state) none j).map fun state => ⟨default, some (state.getD ∅)⟩

/-- No map of the set is nil, and its strings are in `V`. Its elements may be nil. -/
structure Over (V : ByteString → Prop) (s : RawORSet ByteString ByteString) : Prop where
  nodeID : V s.nodeID
  elements : ∃ m, s.state = some m ∧ ∀ e p, m.lookup e = some p → ∀ ds, p = some ds →
    ∃ d, ds = ⟨some d⟩ ∧ MarkersOver V e d

include hV in
theorem unmarshalJSON_accepts (j : Json) : Accepts (Over V) (unmarshalJSON j) := by
  refine Outcome.map (P := fun state : Option (FMap ByteString (Option (RawDVVSet ByteString))) =>
    ∀ e p, (state.getD ∅).lookup e = some p → ∀ ds, p = some ds →
      ∃ d, ds = ⟨some d⟩ ∧ MarkersOver V e d) (struct_accepts ?_ (by simp) j)
    fun state hstate => ⟨hV _ Json.valid_empty, _, rfl, hstate⟩
  intro key j state hstate
  split_ifs
  · exact map_accepts
      (fun k j hk => pointer_accepts (RawDVVSet.unmarshalJSON_accepts hV (hV k hk)) j) hstate j
  · exact hstate

theorem Over.markers {s : RawORSet ByteString ByteString} (h : s.Over V) :
    s.Markers (MarkersOver V) := by
  intro e d hd
  obtain ⟨m, hm, hall⟩ := h.elements
  rw [RawORSet.elements, hm] at hd
  obtain ⟨d', ⟨⟩, hd'⟩ := hall e _ hd _ rfl
  exact hd'

theorem Over.solid {s : RawORSet ByteString ByteString} (h : s.Over V) (hnil : s.NoNil)
    {Q : ByteString → FMap ByteString (DVVEntry64 Bool) → Prop} (hQ : s.Markers Q) : s.Solid Q := by
  obtain ⟨m, hm, hall⟩ := h.elements
  have helements : s.elements = m := by rw [RawORSet.elements, hm, Option.getD_some]
  refine ⟨m, hm, ?_⟩
  intro e p hp
  rw [← helements] at hp
  cases p with
  | none => exact absurd rfl (hnil e none hp)
  | some ds =>
    obtain ⟨d, rfl, -⟩ := hall e _ (helements ▸ hp) ds rfl
    exact ⟨d, rfl, hQ e d hp⟩

def Same (s s' : RawORSet ByteString ByteString) : Prop :=
  ∀ e, Option.Rel (fun p p' => ∃ d d', p = some ⟨some d⟩ ∧ p' = some ⟨some d'⟩ ∧
    ∀ i, d'.lookup i = d.lookup i) (s.elements.lookup e) (s'.elements.lookup e)

theorem unmarshalJSON_marshalJSON {s : RawORSet ByteString ByteString}
    (h : s.Solid (MarkersOver Json.Valid)) :
    ∃ s', unmarshalJSON s.marshalJSON = .ok s' ∧ s.Same s' := by
  obtain ⟨nodeID, state⟩ := s
  obtain ⟨m, rfl, hall⟩ := h
  obtain ⟨m', hm', hlookup⟩ : ∃ m', map (pointer RawDVVSet.unmarshalJSON) none
      (.ofMap (marshalPointer RawDVVSet.marshalJSON) m) = .ok (some m') ∧
      ∀ e, Option.Rel (fun p p' => ∃ d d', p = some ⟨some d⟩ ∧ p' = some ⟨some d'⟩ ∧
        ∀ i, d'.lookup i = d.lookup i) (m.lookup e) (m'.lookup e) := by
    refine map_ofMap ?_ ?_
    · intro e p hp
      obtain ⟨d, -, hd⟩ := hall e p hp
      exact hd.1
    · intro e p hp
      obtain ⟨d, rfl, hd⟩ := hall e p hp
      obtain ⟨d', hd', heq⟩ := RawDVVSet.unmarshalJSON_marshalJSON hd.2
      exact ⟨some ⟨some d'⟩, congrArg (Except.map some) hd', d, d', rfl, rfl, heq⟩
  refine ⟨⟨default, some m'⟩, ?_, hlookup⟩
  change Except.map _ (map _ none (.ofMap _ m) >>= _) = _
  rw [hm']
  rfl

end RawORSet

end Sets
end Commute.Crdt
