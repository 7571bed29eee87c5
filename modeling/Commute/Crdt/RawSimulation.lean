import Commute.Crdt.MarshalJson
import Commute.Crdt.ORSet
import Commute.Gossip.Simulation

/-!
# The replicated types on the machine and on paper

On the machine a value is built from pointers and 64-bit words, and it has been
read from a document that does not keep the order of maps. `Like` and `Sim` say
which plain value it stands for. As long as the counters of a set stay below
`2 ^ 63`, no operation panics, and it computes what the plain operation does.

Reading the encoding of a value gives what the plain model calls its decoded form.
-/
namespace Commute.Crdt

open Gossip Json

section Counters

variable {N : Type} [DecidableEq N]

/-- The same entries, and a nil map for a nil map. -/
structure GCounter.Like (g g' : GCounter N) : Prop where
  nodeID : g.nodeID = g'.nodeID
  isSome : g.counters.isSome = g'.counters.isSome
  lookup : ∀ i, g.entries.lookup i = g'.entries.lookup i

namespace GCounter

variable {g g' h h' : GCounter N}

theorem Like.refl (g : GCounter N) : g.Like g := ⟨rfl, rfl, fun _ => rfl⟩

theorem Like.trans {g'' : GCounter N} (hg : g.Like g') (hg' : g'.Like g'') : g.Like g'' :=
  ⟨hg.nodeID.trans hg'.nodeID, hg.isSome.trans hg'.isSome,
    fun i => (hg.lookup i).trans (hg'.lookup i)⟩

theorem Like.get (hg : g.Like g') (i : N) : g.get i = g'.get i := by
  unfold GCounter.get
  rw [hg.lookup]

theorem Like.count (hg : g.Like g') (i : N) : g.count i = g'.count i :=
  congrArg UInt64.toNat (hg.get i)

theorem Like.isZero (hg : g.Like g') : g.isZero = g'.isZero := by
  have hempty : ∀ m : FMap N UInt64, m.entries.isEmpty = true ↔ ∀ i, m.lookup i = none := by
    intro m
    rw [List.isEmpty_iff, List.eq_nil_iff_forall_not_mem]
    constructor
    · intro hm i
      rw [Option.eq_none_iff_forall_ne_some]
      exact fun n hn => hm _ (FMap.mem_entries_iff.mpr hn)
    · intro hm e he
      cases (hm e.1).symm.trans (FMap.mem_entries_iff.mp he)
  unfold GCounter.isZero
  rw [Bool.eq_iff_iff, hempty, hempty]
  simp only [hg.lookup]

theorem Like.increment [Inhabited N] (hg : g.Like g') (n : UInt64) :
    (g.increment n).Like (g'.increment n) := by
  unfold GCounter.increment
  rw [hg.nodeID, hg.get]
  exact .refl _

theorem Like.merge (hg : g.Like g') (hh : h.Like h') : (g.merge h).Like (g'.merge h') := by
  have hentries : ∀ a b : GCounter N, (a.merge b).entries =
      FMap.upsertAll (fun own v => max (own.getD 0) v) b.entries a.entries := fun _ _ => rfl
  refine ⟨hg.nodeID, rfl, fun i => ?_⟩
  rw [hentries, hentries, FMap.lookup_upsertAll, FMap.lookup_upsertAll, hg.lookup, hh.lookup]

theorem Like.shared (hg : g.Like g') (hh : h.Like h') : (g.shared h).Like (g'.shared h') := by
  have hsome := hg.isSome
  unfold GCounter.shared
  cases hm : g.counters with
  | none =>
    rw [hm] at hsome
    rw [Option.isSome_eq_false_iff.mp hsome.symm |> Option.isNone_iff_eq_none.mp]
    exact ⟨hg.nodeID, rfl, fun _ => rfl⟩
  | some m =>
    rw [hm] at hsome
    obtain ⟨m', hm'⟩ := Option.isSome_iff_exists.mp hsome.symm
    rw [hm']
    exact ⟨hg.nodeID, hh.isSome, hh.lookup⟩

theorem Like.isLessOrEqual (hg : g.Like g') (hh : h.Like h') :
    g.isLessOrEqual h = g'.isLessOrEqual h' := by
  rw [Bool.eq_iff_iff, GCounter.isLessOrEqual_iff, GCounter.isLessOrEqual_iff]
  simp only [hg.count, hh.count]

theorem Like.decoded [Inhabited N] (hg : g.Like g') : g.decoded.Like g'.decoded := by
  unfold GCounter.decoded
  rw [hg.isZero]
  split_ifs
  · exact .refl _
  · exact ⟨rfl, hg.isSome, hg.lookup⟩

theorem unmarshalJSON_like {g : GCounter ByteString} (h : g.Over Json.Valid) :
    ∃ g', unmarshalJSON g.marshalJSON = .ok g' ∧ g'.Like ⟨default, g.counters⟩ := by
  obtain ⟨nodeID, counters⟩ := g
  cases counters with
  | none => exact ⟨⟨default, none⟩, rfl, .refl _⟩
  | some m =>
    have hids : ∀ id n, m.lookup id = some n → Json.Valid id := h.ids
    obtain ⟨m', hm', hlookup⟩ := map_ofMap (R := Eq) hids fun _ n _ => ⟨n, uint64_nat 0 n, rfl⟩
    refine ⟨⟨default, some m'⟩, ?_, rfl, rfl, fun i => eq_of_rel (hlookup i)⟩
    have hname : named "Counters" "counters".toList = true := rfl
    simp only [unmarshalJSON, marshalJSON, marshalMap, struct, List.foldlM_cons, hname, if_true]
    rw [hm']
    rfl

end GCounter

structure PNCounter.Like (pn pn' : PNCounter N) : Prop where
  inc : pn.inc.Like pn'.inc
  dec : pn.dec.Like pn'.dec

namespace PNCounter

variable {pn pn' other other' : PNCounter N}

theorem Like.new (nodeID : N) : (new nodeID).Like (new nodeID) := ⟨.refl _, .refl _⟩

theorem Like.increment [Inhabited N] (h : pn.Like pn') (n : UInt64) :
    (pn.increment n).Like (pn'.increment n) := ⟨h.inc.increment n, .refl _⟩

theorem Like.decrement [Inhabited N] (h : pn.Like pn') (n : UInt64) :
    (pn.decrement n).Like (pn'.decrement n) := ⟨.refl _, h.dec.increment n⟩

theorem Like.merge (h : pn.Like pn') (h' : other.Like other') :
    (pn.merge other).Like (pn'.merge other') := ⟨h.inc.merge h'.inc, h.dec.merge h'.dec⟩

theorem Like.shared (h : pn.Like pn') (h' : other.Like other') :
    (pn.shared other).Like (pn'.shared other') := ⟨h.inc.shared h'.inc, h.dec.shared h'.dec⟩

theorem Like.isLessOrEqual (h : pn.Like pn') (h' : other.Like other') :
    pn.isLessOrEqual other = pn'.isLessOrEqual other' := by
  unfold PNCounter.isLessOrEqual
  rw [h.inc.isLessOrEqual h'.inc, h.dec.isLessOrEqual h'.dec]

theorem Like.value (h : pn.Like pn') : pn.value = pn'.value := by
  unfold PNCounter.value
  rw [GCounter.value_congr h.inc.count, GCounter.value_congr h.dec.count]

theorem unmarshalJSON_like {pn pn' : PNCounter ByteString} (h : pn.Over Json.Valid)
    (hlike : pn.Like pn') : ∃ r, unmarshalJSON pn.marshalJSON = .ok r ∧ r.Like pn'.decoded := by
  obtain ⟨inc, hinc, hinc'⟩ := GCounter.unmarshalJSON_like h.inc
  obtain ⟨dec, hdec, hdec'⟩ := GCounter.unmarshalJSON_like h.dec
  have hzero : ∀ g : GCounter ByteString, g.isZero = true →
      (⟨default, none⟩ : GCounter ByteString).Like g.decoded := by
    intro g hg
    unfold GCounter.decoded
    rw [if_pos hg]
    exact .refl _
  have hread : ∀ g r : GCounter ByteString, ¬ g.isZero = true → r.Like ⟨default, g.counters⟩ →
      r.Like g.decoded := by
    intro g r hg hr
    unfold GCounter.decoded
    rwa [if_neg hg]
  have hmembers : ∃ r, unmarshalJSON pn.marshalJSON = .ok r ∧
      r.Like ⟨pn.inc.decoded, pn.dec.decoded⟩ := by
    unfold marshalJSON
    by_cases hi : pn.inc.isZero = true <;> by_cases hd : pn.dec.isZero = true
    · rw [if_pos hi, if_pos hd]
      exact ⟨_, rfl, hzero _ hi, hzero _ hd⟩
    · refine ⟨⟨⟨default, none⟩, dec⟩, ?_, hzero _ hi, hread _ _ hd hdec'⟩
      rw [if_pos hi, if_neg hd]
      change (Except.map _ (GCounter.unmarshalJSON pn.dec.marshalJSON) >>= _) = _
      rw [hdec]
      rfl
    · refine ⟨⟨inc, ⟨default, none⟩⟩, ?_, hread _ _ hi hinc', hzero _ hd⟩
      rw [if_neg hi, if_pos hd]
      change (Except.map _ (GCounter.unmarshalJSON pn.inc.marshalJSON) >>= _) = _
      rw [hinc]
      rfl
    · refine ⟨⟨inc, dec⟩, ?_, hread _ _ hi hinc', hread _ _ hd hdec'⟩
      rw [if_neg hi, if_neg hd]
      change (Except.map _ (GCounter.unmarshalJSON pn.inc.marshalJSON) >>= fun pn' =>
        Except.map _ (GCounter.unmarshalJSON pn.dec.marshalJSON) >>= _) = _
      rw [hinc, hdec]
      rfl
  obtain ⟨r, hr, hrlike⟩ := hmembers
  exact ⟨r, hr, hrlike.inc.trans hlike.inc.decoded, hrlike.dec.trans hlike.dec.decoded⟩

end PNCounter

end Counters

section Registers

variable {T : Type}

/-- The same entry; a nil value is the JSON value `null`. -/
structure LWWRegister.Like (lww lww' : LWWRegister ByteString T RawMessage) : Prop where
  nodeID : lww.nodeID = lww'.nodeID
  writerID : lww.entry.writerID = lww'.entry.writerID
  timestamp : lww.entry.timestamp = lww'.entry.timestamp
  value : lww.entry.value.getD .null = lww'.entry.value.getD .null

namespace LWWRegister

variable {lww lww' other other' : LWWRegister ByteString T RawMessage}

theorem Like.refl (lww : LWWRegister ByteString T RawMessage) : lww.Like lww := ⟨rfl, rfl, rfl, rfl⟩

theorem Like.set (h : lww.Like lww') (value : RawMessage) (now : T) :
    (lww.set value now).Like (lww'.set value now) := by
  unfold LWWRegister.set
  rw [h.nodeID]
  exact .refl _

section Order

variable [Instant T]

theorem Like.after (h : lww.Like lww') (h' : other.Like other') :
    lww.entry.after other.entry = lww'.entry.after other'.entry := by
  unfold LWWEntry.after
  rw [h.timestamp, h'.timestamp, h.writerID, h'.writerID]

theorem Like.merge (h : lww.Like lww') (h' : other.Like other') :
    (lww.merge other).Like (lww'.merge other') := by
  unfold LWWRegister.merge
  rw [h'.after h]
  split_ifs
  · exact ⟨h.nodeID, h'.writerID, h'.timestamp, h'.value⟩
  · exact h

theorem Like.isLessOrEqual (h : lww.Like lww') (h' : other.Like other') :
    lww.isLessOrEqual other = lww'.isLessOrEqual other' := by
  unfold LWWRegister.isLessOrEqual
  rw [h.after h']

end Order

theorem unmarshalJSON_like [TimeText T] (h : lww.Over Json.Valid) (hlike : lww.Like lww') :
    ∃ r, unmarshalJSON lww.marshalJSON = .ok r ∧ r.Like lww'.decoded := by
  obtain ⟨r, hr, hsame⟩ := unmarshalJSON_marshalJSON h
  have hnode : r.nodeID = default := by
    obtain ⟨entry, -, rfl⟩ := Fault.map_eq_ok.mp hr
    rfl
  refine ⟨r, hr, hnode, hsame.writerID.trans hlike.writerID, ?_, hsame.value.trans hlike.value⟩
  exact hsame.timestamp.trans (congrArg Instant.decoded hlike.timestamp)

end LWWRegister

end Registers

section Markers

variable {N T : Type} [DecidableEq N]

theorem DVVSet.sync_congr {ds ds' other other' : DVVSet N T}
    (h : ∀ i, ds.state.lookup i = ds'.state.lookup i)
    (h' : ∀ i, other.state.lookup i = other'.state.lookup i) (i : N) :
    (ds.sync other).state.lookup i = (ds'.sync other').state.lookup i := by
  rw [DVVSet.sync_lookup, DVVSet.sync_lookup, h, h']

theorem DVVSet.update_congr {ds ds' : DVVSet N T} {vv vv' : VV N}
    (h : ∀ i, ds.state.lookup i = ds'.state.lookup i) (hvv : ∀ i, vv.lookup i = vv'.lookup i)
    (nodeID : N) (value : T) (i : N) :
    (ds.update nodeID vv value).state.lookup i = (ds'.update nodeID vv' value).state.lookup i := by
  have hdiscard : ∀ i (e : DVVEntry T), discardEntry vv i e = discardEntry vv' i e := by
    intro i e
    unfold discardEntry
    rw [hvv]
  by_cases hi : i = nodeID
  · subst hi
    rw [DVVSet.update_lookup_self, DVVSet.update_lookup_self, h, funext (hdiscard i)]
  · rw [DVVSet.update_lookup_of_ne vv value ds hi, DVVSet.update_lookup_of_ne vv' value ds' hi, h]
    unfold VV.get
    simp only [hdiscard, hvv]

namespace DVVSet64

/-- The counters are at most `b`, and read as numbers they are those of the plain markers. -/
structure Sim (b : ℕ) (ds : DVVSet64 N T) (ds' : DVVSet N T) : Prop where
  upTo : ds.UpTo b
  lookup : ∀ i, ds.toSet.state.lookup i = ds'.state.lookup i

def SameVV (vv : VV64 N) (vv' : VV N) : Prop := ∀ i, (toVV vv).lookup i = vv'.lookup i

variable {b : ℕ} {ds other : DVVSet64 N T} {ds' other' : DVVSet N T}

theorem Sim.new : Sim b (DVVSet64.new : DVVSet64 N T) .new := ⟨.new, fun _ => rfl⟩

theorem Sim.mono {c : ℕ} (h : ds.Sim b ds') (hb : b ≤ c) : ds.Sim c ds' :=
  ⟨h.upTo.mono hb, h.lookup⟩

theorem Sim.sync (hb : b < 2 ^ 63) (h : ds.Sim b ds') (h' : other.Sim b other') :
    Outcome (fun _ => False) (fun r => r.Sim b (ds'.sync other')) (ds.sync other) := by
  obtain ⟨r, hr, hlookup⟩ := sync_toSet (h.upTo.fits hb) (h'.upTo.fits hb)
  have hupTo := (h.upTo.sync h'.upTo hb).of_ok hr
  rw [hr]
  exact ⟨hupTo, fun i => (hlookup i).trans (DVVSet.sync_congr h.lookup h'.lookup i)⟩

theorem Sim.update (hb : b < 2 ^ 63) (h : ds.Sim b ds') {vv : VV64 N} {vv' : VV N}
    (hvv : SameVV vv vv') {c : ℕ} (hbelow : VV64.Below c vv) (hc : c ≤ b) (nodeID : N) (value : T) :
    Outcome (fun _ => False) (fun r => r.Sim (b + 1) (ds'.update nodeID vv' value))
      (ds.update nodeID vv value) := by
  obtain ⟨r, hr, hlookup⟩ := update_toSet nodeID vv value (h.upTo.fits hb).small
  have hupTo := (h.upTo.update hb hbelow hc nodeID value).of_ok hr
  rw [hr]
  exact ⟨hupTo, fun i => (hlookup i).trans (DVVSet.update_congr h.lookup hvv nodeID value i)⟩

theorem Sim.isLessOrEqual (h : ds.Sim b ds') (h' : other.Sim b other') :
    ds.isLessOrEqual other = ds'.isLessOrEqual other' := by
  have htop : ∀ {a : DVVSet64 N T} {a' : DVVSet N T}, a.Sim b a' → ∀ i,
      (((a.state.lookup i).map DVVEntry64.counter).getD 0).toNat = a'.top i := by
    intro a a' ha i
    unfold DVVSet.top
    rw [← ha.lookup, toSet_lookup]
    cases a.state.lookup i <;> rfl
  unfold DVVSet64.isLessOrEqual
  rw [Bool.eq_iff_iff, FMap.all_entries_iff, DVVSet.isLessOrEqual_iff]
  simp only [decide_eq_true_eq, UInt64.le_iff_toNat_le, htop h']
  constructor
  · intro hle i
    rw [← htop h]
    cases he : ds.state.lookup i with
    | none => exact Nat.zero_le _
    | some e => exact hle i e he
  · intro hle i e he
    have hi := hle i
    rw [← htop h, he] at hi
    exact hi

end DVVSet64

end Markers

section Sets

variable {N E : Type} [DecidableEq N]

namespace RawDVVSet

/-- A pointer to markers that stand for the plain ones. -/
def Sim (b : ℕ) (p : Option (RawDVVSet N)) (ds : DVVSet N Bool) : Prop :=
  ∃ d, p = some ⟨some d⟩ ∧ (⟨d⟩ : DVVSet64 N Bool).Sim b ds

variable {b : ℕ} {d other : FMap N (DVVEntry64 Bool)} {ds ds' : DVVSet N Bool}

theorem update_sim (hb : b < 2 ^ 63) (h : (⟨d⟩ : DVVSet64 N Bool).Sim b ds) {vv : VV64 N}
    {vv' : VV N} (hvv : DVVSet64.SameVV vv vv') {c : ℕ} (hbelow : VV64.Below c vv) (hc : c ≤ b)
    (nodeID : N) (marker : Bool) :
    Outcome (fun _ => False) (fun u => Sim (b + 1) (some u) (ds.update nodeID vv' marker))
      ((⟨some d⟩ : RawDVVSet N).update nodeID vv marker) :=
  (Trap.sliced_returns (h.update hb hvv hbelow hc nodeID marker)).map fun u hu => ⟨u.state, rfl, hu⟩

theorem sync_sim (hb : b < 2 ^ 63) (h : (⟨d⟩ : DVVSet64 N Bool).Sim b ds)
    (h' : (⟨other⟩ : DVVSet64 N Bool).Sim b ds') :
    Outcome (fun _ => False) (fun u => Sim b (some u) (ds.sync ds'))
      ((⟨some d⟩ : RawDVVSet N).sync ⟨some other⟩) := by
  unfold RawDVVSet.sync
  split_ifs with hempty
  · -- without entries on the other side `Sync` assigns nothing
    refine ⟨d, rfl, h.upTo, fun i => ?_⟩
    have hother : other.entries = [] := List.isEmpty_iff.mp hempty
    have hnone : ds'.state.lookup i = none := by
      rw [← h'.lookup, DVVSet64.toSet_lookup]
      simp [AList.lookup, hother]
    rw [DVVSet.sync_lookup, hnone]
    exact h.lookup i
  · exact (Trap.sliced_returns (h.sync hb h')).map fun u hu => ⟨u.state, rfl, hu⟩

end RawDVVSet

variable [DecidableEq E]

/-- A set without nil pointers whose elements stand for the plain ones. -/
structure RawORSet.Sim (b : ℕ) (s : RawORSet N E) (s' : ORSet N E) : Prop where
  nodeID : s.nodeID = s'.nodeID
  state : ∃ m, s.state = some m ∧ FMap.Rel (RawDVVSet.Sim b) m s'.state

namespace RawORSet

variable {b : ℕ} {s other : RawORSet N E} {s' other' : ORSet N E}

theorem Sim.new (nodeID : N) : Sim b (RawORSet.new nodeID : RawORSet N E) (.new nodeID) :=
  ⟨rfl, ∅, rfl, .empty⟩

theorem Sim.mono {c : ℕ} (hb : b ≤ c) (h : s.Sim b s') : s.Sim c s' := by
  obtain ⟨m, hm, hrel⟩ := h.state
  refine ⟨h.nodeID, m, hm, hrel.mono ?_⟩
  rintro _ ds ⟨d, rfl, hd⟩
  exact ⟨d, rfl, hd.mono hb⟩

theorem Sim.elements (h : s.Sim b s') : FMap.Rel (RawDVVSet.Sim b) s.elements s'.state := by
  obtain ⟨m, hm, hrel⟩ := h.state
  rwa [RawORSet.elements, hm]

theorem Sim.clone (h : s.Sim b s') :
    Outcome (fun _ => False) (fun r => r.Sim b s') s.clone := by
  have hcopy : ∀ e p, s.elements.lookup e = some p →
      (RawDVVSet.clone p).map some = .ok p := by
    intro e p hp
    obtain ⟨ds, -, d, rfl, -⟩ := h.elements.of_lookup hp
    rfl
  obtain ⟨m, hm, hlookup⟩ := FMap.upsertAllM_eq_ok
    (f := fun _ _ ds => (RawDVVSet.clone ds).map some) s.elements ∅ (fun _ p => p) hcopy
  unfold RawORSet.clone
  rw [hm]
  refine ⟨h.nodeID, m, rfl, fun e => ?_⟩
  have hsame : m.lookup e = s.elements.lookup e := by
    rw [hlookup e]
    cases s.elements.lookup e <;> rfl
  rw [hsame]
  exact h.elements e

theorem Sim.mark [Inhabited N] (hb : b < 2 ^ 63) (h : s.Sim b s') {vv : VV64 N} {vv' : VV N}
    (hvv : DVVSet64.SameVV vv vv') {c : ℕ} (hbelow : VV64.Below c vv) (hc : c ≤ b) (marker : Bool)
    (value : E) :
    Outcome (fun _ => False) (fun d => d.Sim (b + 1) (s'.mark marker value vv'))
      (s.mark marker value vv) := by
  obtain ⟨d, hmark, hd⟩ : ∃ d, s.mark marker value vv =
      ((⟨some d⟩ : RawDVVSet N).update s.nodeID vv marker >>= fun u =>
        .ok ⟨default, some (AList.singleton value (some u))⟩) ∧
      (⟨d⟩ : DVVSet64 N Bool).Sim b (s'.element value) := by
    unfold RawORSet.mark ORSet.element
    rcases h.elements.cases value with ⟨hp, hds⟩ | ⟨_, ds, hp, hds, d, rfl, hd⟩ <;> rw [hp, hds]
    · exact ⟨∅, rfl, .new⟩
    · exact ⟨d, rfl, hd⟩
  rw [hmark]
  apply (RawDVVSet.update_sim hb hd hvv hbelow hc s.nodeID marker).bind
  intro u hu
  refine ⟨rfl, _, rfl, fun e => ?_⟩
  rw [ORSet.mark_lookup, FMap.lookup_singleton, ← h.nodeID]
  split_ifs
  · exact .some hu
  · exact .none

theorem Sim.merge (hb : b < 2 ^ 63) (h : s.Sim b s') (h' : other.Sim b other') :
    Outcome (fun _ => False) (fun r => r.Sim b (s'.merge other')) (s.merge other) := by
  -- the plain elements are visited in the order of the pointers
  obtain ⟨visited, hperm, haligned⟩ := h'.elements.exists_aligned
  have hloop := haligned.foldlM (E := fun _ => False)
    (R := fun state m' => ∃ m, state = some m ∧ FMap.Rel (RawDVVSet.Sim b) m m')
    (f := RawORSet.mergeVisit (N := N))
    (g := fun m e => m.insert e.1 ((m.lookup e.1).elim e.2 fun mine => mine.sync e.2)) ?_ h.state
  · apply hloop.map
    rintro _ ⟨m, rfl, hm⟩
    refine ⟨h.nodeID, m, rfl, fun e => ?_⟩
    have hlookup : (s'.merge other').state.lookup e = (visited.entries.foldl (fun m e =>
        m.insert e.1 ((m.lookup e.1).elim e.2 fun mine => mine.sync e.2)) s'.state).lookup e := by
      have hvisited := FMap.lookup_upsertAll
        (fun own (ds : DVVSet N Bool) => own.elim ds fun mine => mine.sync ds) visited s'.state e
      unfold FMap.upsertAll at hvisited
      rw [hvisited, AList.perm_lookup hperm, ORSet.merge_lookup]
      cases other'.state.lookup e <;> cases s'.state.lookup e <;> rfl
    rw [hlookup]
    exact hm e
  · rintro _ m' k _ ds ⟨m, rfl, hm⟩ ⟨d, rfl, hd⟩
    unfold RawORSet.mergeVisit
    simp only [Option.getD_some]
    rcases hm.cases k with ⟨hp, hds⟩ | ⟨_, mine, hp, hds, own, rfl, hown⟩ <;> rw [hp, hds]
    · exact ⟨_, rfl, hm.insert k ⟨d, rfl, hd⟩⟩
    · apply (RawDVVSet.sync_sim hb hown hd).bind
      intro u hu
      exact ⟨_, rfl, hm.insert k hu⟩

theorem Sim.isLessOrEqual (h : s.Sim b s') (h' : other.Sim b other') :
    s.isLessOrEqual other = .ok (s'.isLessOrEqual other') := by
  -- the loop over any part of the elements
  have hloop : ∀ es : List (Σ _ : E, Option (RawDVVSet N)),
      (∀ e ∈ es, s.elements.lookup e.1 = some e.2) → ∃ c, covers other es = .ok c ∧
        (c = true ↔ ∀ e ∈ es, ∀ ds, s'.state.lookup e.1 = some ds →
          ∃ ds', other'.state.lookup e.1 = some ds' ∧ ds.isLessOrEqual ds' = true) := by
    intro es
    induction es with
    | nil => exact fun _ => ⟨true, rfl, by simp⟩
    | cons e es ih =>
      intro hes
      obtain ⟨k, p⟩ := e
      obtain ⟨hk, hrest⟩ := List.forall_mem_cons.mp hes
      obtain ⟨ds, hds, d, rfl, hd⟩ := h.elements.of_lookup hk
      obtain ⟨c, hc, hiff⟩ := ih hrest
      simp only [List.forall_mem_cons, hds, Option.some.injEq, forall_eq', covers]
      rcases h'.elements.cases k with ⟨hp, hds'⟩ | ⟨_, ds', hp, hds', d', rfl, hd'⟩ <;>
        rw [hp, hds']
      · exact ⟨false, rfl, by simp⟩
      · have hle : (⟨some d⟩ : RawDVVSet N).isLessOrEqual ⟨some d'⟩ = ds.isLessOrEqual ds' :=
          hd.isLessOrEqual hd'
        refine ⟨if ds.isLessOrEqual ds' then c else false, ?_, ?_⟩
        · change (if (⟨some d⟩ : RawDVVSet N).isLessOrEqual ⟨some d'⟩ = true then _ else _) = _
          rw [hle, hc]
          split_ifs <;> rfl
        · simp [hiff]
  obtain ⟨c, hc, hiff⟩ := hloop s.elements.entries fun e he => FMap.mem_entries_iff.mp he
  rw [show s.isLessOrEqual other = .ok c from hc]
  refine congrArg Except.ok (Bool.eq_iff_iff.mpr (hiff.trans ?_))
  rw [ORSet.isLessOrEqual_iff]
  constructor
  · intro hall value ds hds
    rcases h.elements.cases value with ⟨-, hnone⟩ | ⟨p, -, hp, -, -⟩
    · cases hnone.symm.trans hds
    · exact hall ⟨value, p⟩ (FMap.mem_entries_iff.mpr hp) ds hds
  · exact fun hall e _ ds hds => hall e.1 ds hds

theorem simulates [Inhabited N] (hb : b < 2 ^ 63) :
    Simulates (RawORSet.Sim b : RawORSet N E → ORSet N E → Prop) where
  merge h h' := h.merge hb h'
  isLessOrEqual h h' := h.isLessOrEqual h'
  clone h := h.clone
  shared h _ := h

theorem unmarshalJSON_sim {s : RawORSet ByteString ByteString} {s' : ORSet ByteString ByteString}
    (h : s.Solid (MarkersOver Json.Valid)) (hsim : s.Sim b s') :
    ∃ r, unmarshalJSON s.marshalJSON = .ok r ∧ r.Sim b s'.decoded := by
  obtain ⟨r, hr, hsame⟩ := unmarshalJSON_marshalJSON h
  obtain ⟨state, -, rfl⟩ := Fault.map_eq_ok.mp hr
  refine ⟨_, hr, rfl, state.getD ∅, rfl, fun e => ?_⟩
  have he := hsame e
  change Option.Rel _ _ (AList.lookup e (state.getD ∅)) at he
  change Option.Rel _ _ (s'.state.lookup e)
  rcases hsim.elements.cases e with ⟨hp, hds⟩ | ⟨_, ds, hp, hds, d, rfl, hd⟩ <;> rw [hp] at he <;>
    rw [hds]
  · generalize AList.lookup e (state.getD ∅) = q at he
    cases he
    exact .none
  · generalize AList.lookup e (state.getD ∅) = q at he
    cases he with
    | some hq =>
      obtain ⟨d₁, d₂, hd₁, rfl, hlookup⟩ := hq
      cases hd₁
      refine .some ⟨d₂, rfl, fun i entry hentry => ?_, fun i => ?_⟩
      · exact hd.upTo i entry ((hlookup i).symm.trans hentry)
      · rw [DVVSet64.toSet_lookup, ← hd.lookup, DVVSet64.toSet_lookup, hlookup i]

theorem Sim.causalContexts (h : s.Sim b s') : Outcome (fun _ => False)
    (fun vvs => FMap.Rel (fun vv vv' => VV64.Below (b + 1) vv ∧ DVVSet64.SameVV vv vv') vvs
      s'.causalContexts) s.causalContexts := by
  have hjoin : ∀ e p, s.elements.lookup e = some p → ∃ vv, RawDVVSet.join p = .ok vv ∧
      ∀ ds, s'.state.lookup e = some ds → VV64.Below (b + 1) vv ∧ DVVSet64.SameVV vv ds.join := by
    intro e p hp
    obtain ⟨ds, hds, d, rfl, hd⟩ := h.elements.of_lookup hp
    refine ⟨(⟨d⟩ : DVVSet64 N Bool).join, rfl, fun ds' hds' => ?_⟩
    obtain rfl := Option.some.inj (hds.symm.trans hds')
    constructor
    · intro i c hc
      rw [DVVSet64.join, FMap.lookup_mapVals] at hc
      obtain ⟨entry, hentry, rfl⟩ := Option.map_eq_some_iff.mp hc
      exact Nat.lt_succ_of_le (hd.upTo i entry hentry).2
    · intro i
      unfold DVVSet64.toVV DVVSet64.join DVVSet.join
      rw [FMap.lookup_mapVals, FMap.lookup_mapVals, FMap.lookup_mapVals, ← hd.lookup,
        DVVSet64.toSet_lookup, Option.map_map, Option.map_map]
      rfl
  choose! vv hvv hsame using hjoin
  obtain ⟨m, hm, hlookup⟩ := FMap.upsertAllM_eq_ok (f := fun _ _ ds => RawDVVSet.join ds)
    s.elements ∅ vv hvv
  unfold RawORSet.causalContexts
  rw [hm]
  intro e
  rw [hlookup e, ORSet.causalContexts, FMap.lookup_mapVals]
  rcases h.elements.cases e with ⟨hp, hds⟩ | ⟨p, ds, hp, hds, -⟩ <;> rw [hp, hds]
  · exact .none
  · exact .some (hsame e p hp ds hds)

theorem Sim.contains (h : s.Sim b s') (value : E) :
    s.contains value = .ok (s'.contains value) := by
  unfold RawORSet.contains ORSet.contains
  rcases h.elements.cases value with ⟨hp, hds⟩ | ⟨_, ds, hp, hds, d, rfl, hd⟩ <;> rw [hp, hds]
  change Except.ok ((⟨d⟩ : DVVSet64 N Bool).values.any fun v => v) = _
  have hmem : ∀ v, v ∈ (⟨d⟩ : DVVSet64 N Bool).values ↔ v ∈ ds.values := by
    intro v
    unfold DVVSet64.values DVVSet.values
    simp only [List.mem_flatMap, Sigma.exists, FMap.mem_entries_iff, ← hd.lookup,
      DVVSet64.toSet_lookup, Option.map_eq_some_iff]
    constructor
    · rintro ⟨i, e, he, hv⟩
      exact ⟨i, _, ⟨e, he, rfl⟩, hv⟩
    · rintro ⟨i, _, ⟨e, he, rfl⟩, hv⟩
      exact ⟨i, e, he, hv⟩
  refine congrArg Except.ok (Bool.eq_iff_iff.mpr ?_)
  simp only [List.any_eq_true, hmem]

theorem Sim.values (h : s.Sim b s') :
    Outcome (fun _ => False) (fun vs => vs.Perm s'.values) s.values := by
  have hloop : ∀ es vs : List E, es.foldlM (fun vs value => (s.contains value).map fun found =>
      if found then vs ++ [value] else vs) vs = .ok (vs ++ es.filter fun e => s'.contains e) := by
    intro es
    induction es with
    | nil => exact fun vs => by rw [List.filter_nil, List.append_nil]; rfl
    | cons e es ih =>
      intro vs
      rw [List.foldlM_cons, h.contains, List.filter_cons]
      change es.foldlM _ (if s'.contains e = true then vs ++ [e] else vs) = _
      rw [ih]
      split_ifs <;> simp
  unfold RawORSet.values
  rw [hloop]
  have hkeys : s.elements.keys.Perm s'.state.keys := by
    rw [List.perm_ext_iff_of_nodup s.elements.keys_nodup s'.state.keys_nodup]
    intro e
    rw [← AList.mem_keys, ← AList.mem_keys, ← AList.lookup_isSome, ← AList.lookup_isSome]
    rcases h.elements.cases e with ⟨hp, hds⟩ | ⟨p, ds, hp, hds, -⟩
    · simp [hp, hds]
    · simp [hp, hds]
  exact hkeys.filter _

end RawORSet

end Sets

end Commute.Crdt
