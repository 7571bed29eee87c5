import Commute.Foundation.Checked
import Commute.Foundation.Words
import Commute.Crdt.DVVSet

/-!
# `DVVSet` with the arithmetic of the machine

Counters are unsigned 64-bit words, `int` is a signed one, and a slice bound
below zero panics. As long as counters stay below `2 ^ 63` and no entry has more
siblings than dots, `Update` and `Sync` do not panic and compute what they
compute on natural numbers. A write is merged as a delta; `sync_update` says that
merging the updated copy gives back the updated copy.
-/
namespace Commute.Crdt

open Fault

structure DVVEntry64 (T : Type) where
  counter : UInt64
  values : List T
deriving DecidableEq

structure DVVSet64 (N T : Type) where
  state : FMap N (DVVEntry64 T)

abbrev VV64 (N : Type) := FMap N UInt64

variable {N T : Type}

def VV64.Below [DecidableEq N] (b : ℕ) (vv : VV64 N) : Prop :=
  ∀ i c, vv.lookup i = some c → c.toNat < b

theorem VV64.Below.mono [DecidableEq N] {b b' : ℕ} {vv : VV64 N} (h : VV64.Below b vv)
    (hb : b ≤ b') : VV64.Below b' vv :=
  fun i c hc => (h i c hc).trans_le hb

theorem VV64.Below.getD_lt [DecidableEq N] {b : ℕ} {vv : VV64 N} (h : VV64.Below b vv)
    (hb : 0 < b) (i : N) : ((vv.lookup i).getD 0).toNat < b := by
  cases hc : vv.lookup i with
  | none => exact hb
  | some c => exact h i c hc

/-- The slice `values[0:min(bound, len(values))]`. -/
def firstValues (bound : ℤ) (values : List T) : Except Fault (List T) :=
  if min bound values.length < 0 then .error .panic
  else .ok (values.take (min bound values.length).toNat)

theorem firstValues_natCast (n : ℕ) (values : List T) :
    firstValues n values = .ok (values.take (min n values.length)) := by
  unfold firstValues
  rw [if_neg (by omega)]
  congr 2
  omega

namespace DVVSet64

def new : DVVSet64 N T := ⟨∅⟩

def values (ds : DVVSet64 N T) : List T := ds.state.entries.flatMap fun e => e.2.values

def join (ds : DVVSet64 N T) : VV64 N := FMap.mapVals (fun _ e => e.counter) ds.state

variable [DecidableEq N]

/-- The order on causal histories; a missing entry of `other` reads as zero. -/
def isLessOrEqual (ds other : DVVSet64 N T) : Bool :=
  ds.state.entries.all fun e =>
    decide (e.2.counter ≤ ((other.state.lookup e.1).map DVVEntry64.counter).getD 0)

/-- The counters and siblings with the counters read as natural numbers. -/
def toSet (ds : DVVSet64 N T) : DVVSet N T :=
  ⟨FMap.mapVals (fun _ e => ⟨e.counter.toNat, e.values⟩) ds.state⟩

def toVV (vv : VV64 N) : VV N := FMap.mapVals (fun _ c => c.toNat) vv

/-- The bounds under which the machine arithmetic is exact. -/
def Fits (ds : DVVSet64 N T) : Prop :=
  ∀ i e, ds.state.lookup i = some e →
    e.values.length ≤ e.counter.toNat ∧ e.counter.toNat < 2 ^ 63

/-- The bound under which `Update` does not panic or wrap around. -/
def Small (ds : DVVSet64 N T) : Prop :=
  ∀ i e, ds.state.lookup i = some e → e.counter.toNat < 2 ^ 63

theorem Fits.small {ds : DVVSet64 N T} (h : ds.Fits) : ds.Small := fun i e he => (h i e he).2

def discardEntry (vv : VV64 N) (k : N) (e : DVVEntry64 T) : Except Fault (DVVEntry64 T) :=
  match vv.lookup k with
  | none => .ok e
  | some counter =>
    if counter < e.counter then
      (firstValues (intAdd (e.counter - counter) 0) e.values).map fun values =>
        { e with values := values }
    else .ok { e with values := [] }

def discard (vv : VV64 N) (ds : DVVSet64 N T) : Except Fault (DVVSet64 N T) :=
  (FMap.upsertAllM (fun k _ e => discardEntry vv k e) ds.state ds.state).map DVVSet64.mk

def ownEntry (value : T) : Option (DVVEntry64 T) → DVVEntry64 T
  | some e => ⟨e.counter + 1, value :: e.values⟩
  | none => ⟨1, [value]⟩

def event (nodeID : N) (vv : VV64 N) (value : T) (ds : DVVSet64 N T) : DVVSet64 N T :=
  ⟨FMap.mapVals
    (fun k e => if k = nodeID then e else ⟨max e.counter ((vv.lookup k).getD 0), e.values⟩)
    (ds.state.insert nodeID (ownEntry value (ds.state.lookup nodeID)))⟩

def update (nodeID : N) (vv : VV64 N) (value : T) (ds : DVVSet64 N T) :
    Except Fault (DVVSet64 N T) :=
  (ds.discard vv).map (event nodeID vv value)

def syncEntry (entry otherEntry : DVVEntry64 T) : Except Fault (DVVEntry64 T) :=
  if otherEntry.counter ≤ entry.counter then
    (firstValues (intAdd (entry.counter - otherEntry.counter) otherEntry.values.length)
      entry.values).map fun values => ⟨entry.counter, values⟩
  else
    (firstValues (intAdd (otherEntry.counter - entry.counter) entry.values.length)
      otherEntry.values).map fun values => ⟨otherEntry.counter, values⟩

/-- What the loop of `Sync` does for an id of the other side. -/
def syncVisit (own : Option (DVVEntry64 T)) (otherEntry : DVVEntry64 T) :
    Except Fault (DVVEntry64 T) :=
  match own with
  | some entry => syncEntry entry otherEntry
  | none => .ok otherEntry

def sync (ds other : DVVSet64 N T) : Except Fault (DVVSet64 N T) :=
  (FMap.upsertAllM (fun _ => syncVisit) other.state ds.state).map DVVSet64.mk

def kept (vv : VV64 N) (k : N) (e : DVVEntry64 T) : List T :=
  (DVVSet.discardEntry (toVV vv) k ⟨e.counter.toNat, e.values⟩).values

theorem toSet_lookup (ds : DVVSet64 N T) (i : N) :
    ds.toSet.state.lookup i = (ds.state.lookup i).map fun e => ⟨e.counter.toNat, e.values⟩ :=
  FMap.lookup_mapVals _ _ _

theorem toVV_get (vv : VV64 N) (i : N) : (toVV vv).get i = ((vv.lookup i).getD 0).toNat := by
  unfold VV.get toVV
  rw [FMap.lookup_mapVals]
  cases vv.lookup i <;> rfl

theorem Fits.bounded {ds : DVVSet64 N T} (h : ds.Fits) : ds.toSet.Bounded := by
  intro i e he
  rw [toSet_lookup] at he
  obtain ⟨e', he', rfl⟩ := Option.map_eq_some_iff.mp he
  exact (h i e' he').1

/-- The entry that `DVVSet.discardEntry` computes, with its counter as a word. -/
theorem discardEntry_eq_ok (vv : VV64 N) (k : N) {e : DVVEntry64 T}
    (hfit : e.counter.toNat < 2 ^ 63) :
    discardEntry vv k e =
      .ok ⟨e.counter, (DVVSet.discardEntry (toVV vv) k ⟨e.counter.toNat, e.values⟩).values⟩ := by
  unfold discardEntry DVVSet.discardEntry toVV
  rw [FMap.lookup_mapVals]
  cases vv.lookup k with
  | none => rfl
  | some counter =>
    simp only [Option.map_some, UInt64.lt_iff_toNat_lt]
    split_ifs with hc
    · have hsub : (e.counter - counter).toNat = e.counter.toNat - counter.toNat :=
        UInt64.toNat_sub_of_le _ _ (UInt64.le_iff_toNat_le.mpr hc.le)
      rw [intAdd_eq (by omega), firstValues_natCast, hsub]
      rfl
    · rfl

theorem syncEntry_eq_ok {a b : DVVEntry64 T}
    (hab : a.counter.toNat - b.counter.toNat + b.values.length < 2 ^ 63)
    (hba : b.counter.toNat - a.counter.toNat + a.values.length < 2 ^ 63) :
    ∃ r, syncEntry a b = .ok r ∧ (⟨r.counter.toNat, r.values⟩ : DVVEntry T) =
      DVVSet.syncEntry ⟨a.counter.toNat, a.values⟩ ⟨b.counter.toNat, b.values⟩ := by
  unfold syncEntry DVVSet.syncEntry
  simp only [UInt64.le_iff_toNat_le]
  split_ifs with hc
  · have hsub : (a.counter - b.counter).toNat = a.counter.toNat - b.counter.toNat :=
      UInt64.toNat_sub_of_le _ _ (UInt64.le_iff_toNat_le.mpr hc)
    rw [intAdd_eq (by omega), firstValues_natCast, hsub]
    exact ⟨_, rfl, rfl⟩
  · have hsub : (b.counter - a.counter).toNat = b.counter.toNat - a.counter.toNat :=
      UInt64.toNat_sub_of_le _ _ (UInt64.le_iff_toNat_le.mpr (Nat.le_of_not_le hc))
    rw [intAdd_eq (by omega), firstValues_natCast, hsub]
    exact ⟨_, rfl, rfl⟩

theorem discard_eq_ok (vv : VV64 N) {ds : DVVSet64 N T} (h : ds.Small) :
    ∃ r, ds.discard vv = .ok r ∧ ∀ i, r.state.lookup i = (ds.state.lookup i).map fun e =>
      ⟨e.counter, (DVVSet.discardEntry (toVV vv) i ⟨e.counter.toNat, e.values⟩).values⟩ := by
  obtain ⟨m, hm, hlookup⟩ := FMap.upsertAllM_eq_ok (f := fun k _ e => discardEntry vv k e) ds.state
    ds.state _ fun k e he => discardEntry_eq_ok vv k (h k e he)
  refine ⟨⟨m⟩, ?_, ?_⟩
  · rw [discard, hm]
    rfl
  · intro i
    rw [hlookup i]
    cases ds.state.lookup i <;> rfl

theorem update_eq_ok (nodeID : N) (vv : VV64 N) (value : T) {ds : DVVSet64 N T} (h : ds.Small) :
    ∃ u, ds.update nodeID vv value = .ok u ∧
      u.state.lookup nodeID = some (ownEntry value ((ds.state.lookup nodeID).map fun e =>
        ⟨e.counter, kept vv nodeID e⟩)) ∧
      ∀ i, i ≠ nodeID → u.state.lookup i = (ds.state.lookup i).map fun e =>
        ⟨max e.counter ((vv.lookup i).getD 0), kept vv i e⟩ := by
  obtain ⟨d, hd, hlookup⟩ := discard_eq_ok vv h
  refine ⟨d.event nodeID vv value, ?_, ?_, ?_⟩
  · rw [update, hd]
    rfl
  · simp only [event, FMap.lookup_mapVals, FMap.lookup_insert_eq, if_true, Option.map_some, hlookup]
    rfl
  · intro i hi
    simp only [event, FMap.lookup_mapVals, FMap.lookup_insert_eq, if_neg hi, hlookup,
      Option.map_map]
    rfl

/-- `Update` on words computes `Update` on natural numbers. -/
theorem update_toSet (nodeID : N) (vv : VV64 N) (value : T) {ds : DVVSet64 N T} (h : ds.Small) :
    ∃ r, ds.update nodeID vv value = .ok r ∧
      ∀ i, r.toSet.state.lookup i =
        (ds.toSet.update nodeID (toVV vv) value).state.lookup i := by
  obtain ⟨u, hu, hself, hother⟩ := update_eq_ok nodeID vv value h
  refine ⟨u, hu, ?_⟩
  intro i
  rw [toSet_lookup]
  by_cases hi : i = nodeID
  · subst hi
    rw [hself, DVVSet.update_lookup_self, toSet_lookup]
    cases he : ds.state.lookup i with
    | none => simp [ownEntry, DVVSet.ownEntry]
    | some e =>
      have hfit := h i e he
      have hsucc : (e.counter + 1).toNat = e.counter.toNat + 1 := by
        rw [UInt64.toNat_add, UInt64.toNat_one]
        omega
      simp [ownEntry, DVVSet.ownEntry, hsucc, DVVSet.discardEntry_counter, kept]
  · rw [hother i hi, DVVSet.update_lookup_of_ne _ _ _ hi, toSet_lookup, toVV_get]
    cases ds.state.lookup i with
    | none => rfl
    | some e => simp [toNat_max, kept]

/-- `Sync` on words computes `Sync` on natural numbers. -/
theorem sync_toSet {ds other : DVVSet64 N T} (h : ds.Fits) (h' : other.Fits) :
    ∃ r, ds.sync other = .ok r ∧
      ∀ i, r.toSet.state.lookup i = (ds.toSet.sync other.toSet).state.lookup i := by
  have hentry : ∀ i b, other.state.lookup i = some b → ∃ r : DVVEntry64 T,
      syncVisit (ds.state.lookup i) b = .ok r ∧
      (ds.toSet.sync other.toSet).state.lookup i = some ⟨r.counter.toNat, r.values⟩ := by
    intro i b hb
    rw [DVVSet.sync_lookup, toSet_lookup, toSet_lookup, hb]
    cases ha : ds.state.lookup i with
    | none => exact ⟨b, rfl, rfl⟩
    | some a =>
      have hfit := h i a ha
      have hfit' := h' i b hb
      obtain ⟨r, hr, heq⟩ := syncEntry_eq_ok (a := a) (b := b) (by omega) (by omega)
      exact ⟨r, hr, congrArg some heq.symm⟩
  choose! r hr hsync using hentry
  obtain ⟨m, hm, hlookup⟩ :=
    FMap.upsertAllM_eq_ok (f := fun _ => syncVisit) other.state ds.state r hr
  refine ⟨⟨m⟩, ?_, ?_⟩
  · rw [sync, hm]
    rfl
  · intro i
    rw [toSet_lookup, hlookup i]
    cases hb : other.state.lookup i with
    | none => rw [DVVSet.sync_lookup, toSet_lookup, toSet_lookup, hb]; rfl
    | some b => rw [hsync i b hb]; rfl

section Ids

variable {P : N → Prop} {ds other r : DVVSet64 N T} (h : ∀ i e, ds.state.lookup i = some e → P i)

include h

theorem sync_ids (h' : ∀ i e, other.state.lookup i = some e → P i) (hr : ds.sync other = .ok r) :
    ∀ i e, r.state.lookup i = some e → P i := by
  have hsync : Outcome (fun _ => True) (fun r : DVVSet64 N T => ∀ i e, r.state.lookup i = some e →
      P i) (ds.sync other) := by
    refine (FMap.upsertAllM_outcome (P := fun i _ => P i) ?_ h).map fun m hm => hm
    intro i own e he _
    cases syncVisit own e with
    | error t => trivial
    | ok v => exact h' i e he
  exact hsync.of_ok hr

theorem update_ids {nodeID : N} (hnode : P nodeID) {vv : VV64 N} {value : T}
    (hr : ds.update nodeID vv value = .ok r) : ∀ i e, r.state.lookup i = some e → P i := by
  have hupdate : Outcome (fun _ => True) (fun r : DVVSet64 N T => ∀ i e, r.state.lookup i = some e →
      P i) (ds.update nodeID vv value) := by
    refine Outcome.map (P := fun r : DVVSet64 N T => ∀ i e, r.state.lookup i = some e → P i) ?_ ?_
    · refine (FMap.upsertAllM_outcome (P := fun i _ => P i) ?_ h).map fun m hm => hm
      intro i _ e he _
      cases discardEntry vv i e with
      | error t => trivial
      | ok v => exact h i e he
    · intro kept hkept i e he
      rw [event, FMap.lookup_mapVals, FMap.lookup_insert_eq] at he
      split_ifs at he with hi
      · exact hi ▸ hnode
      · obtain ⟨e', he', -⟩ := Option.map_eq_some_iff.mp he
        exact hkept i e' he'
  exact hupdate.of_ok hr

end Ids

section LocalWrite

variable {vv : VV64 N} {k : N} {e : DVVEntry64 T}

theorem kept_eq_take (vv : VV64 N) (k : N) (e : DVVEntry64 T) :
    kept vv k e = e.values.take (kept vv k e).length := by
  unfold kept DVVSet.discardEntry
  split
  · exact List.take_length.symm
  · split_ifs
    · simp [List.length_take]
    · rfl

theorem kept_length_le (vv : VV64 N) (k : N) (e : DVVEntry64 T) :
    (kept vv k e).length ≤ e.values.length := by
  rw [kept_eq_take]
  exact List.length_take_le' _ _

theorem kept_eq_nil {c : UInt64} (hc : vv.lookup k = some c) (hle : e.counter ≤ c) :
    kept vv k e = [] := by
  rw [UInt64.le_iff_toNat_le] at hle
  unfold kept DVVSet.discardEntry toVV
  rw [FMap.lookup_mapVals, hc]
  simp [Nat.not_lt.mpr hle]

theorem syncEntry_own (value : T) {values : List T} (hcounter : e.counter.toNat < 2 ^ 63)
    (hlength : e.values.length < 2 ^ 62) (hvalues : values.length ≤ e.values.length) :
    syncEntry e ⟨e.counter + 1, value :: values⟩ = .ok ⟨e.counter + 1, value :: values⟩ := by
  have hsucc : (e.counter + 1).toNat = e.counter.toNat + 1 := by
    rw [UInt64.toNat_add, UInt64.toNat_one]
    omega
  have hlt : ¬ e.counter + 1 ≤ e.counter := by
    rw [UInt64.le_iff_toNat_le, hsucc]
    omega
  have hsub : e.counter + 1 - e.counter = 1 := by
    rw [← UInt64.toNat_inj, UInt64.toNat_sub_of_le _ _ (by rw [UInt64.le_iff_toNat_le]; omega),
      hsucc, UInt64.toNat_one]
    omega
  unfold syncEntry
  rw [if_neg hlt, hsub, intAdd_eq (by rw [UInt64.toNat_one]; omega), firstValues_natCast,
    List.take_of_length_le]
  · rfl
  · rw [UInt64.toNat_one, List.length_cons]
    omega

theorem syncEntry_other (hcontext : ((vv.lookup k).getD 0).toNat < 2 ^ 62)
    (hlength : e.values.length < 2 ^ 62) :
    syncEntry e ⟨max e.counter ((vv.lookup k).getD 0), kept vv k e⟩ =
      .ok ⟨max e.counter ((vv.lookup k).getD 0), kept vv k e⟩ := by
  unfold syncEntry
  by_cases hle : (vv.lookup k).getD 0 ≤ e.counter
  · have hmax : max e.counter ((vv.lookup k).getD 0) = e.counter := uint64_max_eq_left hle
    have hkept := kept_length_le vv k e
    dsimp only
    rw [hmax, if_pos (UInt64.le_refl _), UInt64.sub_self,
      intAdd_eq (by rw [UInt64.toNat_zero]; omega), firstValues_natCast, UInt64.toNat_zero,
      Nat.zero_add, Nat.min_eq_left hkept, ← kept_eq_take]
    rfl
  · cases hc : vv.lookup k with
    | none =>
      rw [hc, Option.getD_none] at hle
      exact absurd UInt64.zero_le hle
    | some c =>
      rw [hc, Option.getD_some] at hle hcontext
      have hlt : e.counter < c := UInt64.not_le.mp hle
      have hmax : max e.counter c = c := uint64_max_eq_right (UInt64.le_of_lt hlt)
      have hsub := UInt64.toNat_sub_of_le _ _ (UInt64.le_of_lt hlt)
      rw [Option.getD_some, hmax, kept_eq_nil hc (UInt64.le_of_lt hlt)]
      dsimp only
      rw [if_neg hle, intAdd_eq (by omega), firstValues_natCast, List.take_nil]
      rfl

/-- Counters below `b` and no slice longer than `m`. -/
def Below (b m : ℕ) (ds : DVVSet64 N T) : Prop :=
  ∀ i e, ds.state.lookup i = some e → e.counter.toNat < b ∧ e.values.length ≤ m

theorem Below.mono {b b' m m' : ℕ} {ds : DVVSet64 N T} (h : ds.Below b m) (hb : b ≤ b')
    (hm : m ≤ m') : ds.Below b' m' :=
  fun i e he => ⟨(h i e he).1.trans_le hb, (h i e he).2.trans hm⟩

theorem Below.small {b m : ℕ} {ds : DVVSet64 N T} (h : ds.Below b m) (hb : b ≤ 2 ^ 63) :
    ds.Small :=
  fun i e he => (h i e he).1.trans_le hb

/-- Merging the updated copy of a set into the set gives the updated copy. -/
theorem sync_update (nodeID : N) (vv : VV64 N) (value : T) {m : ℕ} {ds : DVVSet64 N T}
    (h : ds.Below (2 ^ 63) m) (hm : m < 2 ^ 62) (hvv : VV64.Below (2 ^ 62) vv) :
    ∃ u w, ds.update nodeID vv value = .ok u ∧ ds.sync u = .ok w ∧
      ∀ i, w.state.lookup i = u.state.lookup i := by
  obtain ⟨u, hu, hself, hother⟩ := update_eq_ok nodeID vv value (h.small le_rfl)
  have hvisit : ∀ i b, u.state.lookup i = some b → syncVisit (ds.state.lookup i) b = .ok b := by
    intro i b hb
    cases he : ds.state.lookup i with
    | none => rfl
    | some e =>
      obtain ⟨hcounter, hlength⟩ := h i e he
      by_cases hi : i = nodeID
      · subst hi
        rw [hself, he] at hb
        obtain rfl := Option.some.inj hb
        exact syncEntry_own value hcounter (by omega) (kept_length_le vv i e)
      · rw [hother i hi, he] at hb
        obtain rfl := Option.some.inj hb
        exact syncEntry_other (hvv.getD_lt (by omega) i) (by omega)
  obtain ⟨w, hw, hlookup⟩ :=
    FMap.upsertAllM_eq_ok (f := fun _ => syncVisit) u.state ds.state (fun _ b => b) hvisit
  refine ⟨u, ⟨w⟩, hu, ?_, ?_⟩
  · rw [sync, hw]
    rfl
  · intro i
    rw [hlookup i]
    cases hb : u.state.lookup i with
    | some b => rfl
    | none =>
      by_cases hi : i = nodeID
      · rw [hi, hself] at hb
        cases hb
      · rw [hother i hi] at hb
        exact Option.map_eq_none_iff.mp hb

theorem update_cases {nodeID : N} {value : T} {ds u : DVVSet64 N T} (h : ds.Small)
    (hu : ds.update nodeID vv value = .ok u) {i : N} {e' : DVVEntry64 T}
    (he' : u.state.lookup i = some e') :
    (i = nodeID ∧ e' = ⟨1, [value]⟩) ∨
    (∃ e, ds.state.lookup i = some e ∧ e' = ⟨e.counter + 1, value :: kept vv i e⟩) ∨
    ∃ e, ds.state.lookup i = some e ∧
      e' = ⟨max e.counter ((vv.lookup i).getD 0), kept vv i e⟩ := by
  obtain ⟨u', hu', hself, hother⟩ := update_eq_ok nodeID vv value h
  obtain rfl := Except.ok.inj (hu.symm.trans hu')
  by_cases hi : i = nodeID
  · subst hi
    rw [hself] at he'
    obtain rfl := Option.some.inj he'
    cases he : ds.state.lookup i with
    | none => exact Or.inl ⟨rfl, rfl⟩
    | some e => exact Or.inr (Or.inl ⟨e, rfl, rfl⟩)
  · rw [hother i hi] at he'
    obtain ⟨e, he, rfl⟩ := Option.map_eq_some_iff.mp he'
    exact Or.inr (Or.inr ⟨e, he, rfl⟩)

theorem Below.update {nodeID : N} {value : T} {b m : ℕ} {ds u : DVVSet64 N T} (h : ds.Below b m)
    (hpos : 0 < b) (hb : b ≤ 2 ^ 63) (hvv : VV64.Below b vv)
    (hu : ds.update nodeID vv value = .ok u) : u.Below (b + 1) (m + 1) := by
  intro i e' he'
  have hc := hvv.getD_lt hpos i
  rcases update_cases (h.small hb) hu he' with ⟨-, rfl⟩ | ⟨e, he, rfl⟩ | ⟨e, he, rfl⟩
  · exact ⟨Nat.succ_lt_succ hpos, Nat.succ_le_succ (Nat.zero_le m)⟩
  · have hkept := kept_length_le vv i e
    obtain ⟨hcounter, hlength⟩ := h i e he
    simp only [List.length_cons, UInt64.toNat_add, UInt64.toNat_one]
    omega
  · have hkept := kept_length_le vv i e
    obtain ⟨hcounter, hlength⟩ := h i e he
    simp only [toNat_max]
    omega

/-- Where counters and lengths leave room below `2 ^ 63`, no slice bound is out of range. -/
theorem Below.sync {b m : ℕ} {ds other : DVVSet64 N T} (h : ds.Below b m) (h' : other.Below b m)
    (hroom : b + m ≤ 2 ^ 63) : Outcome (fun _ => False) (Below b m) (ds.sync other) := by
  refine Outcome.map (FMap.upsertAllM_outcome ?_ h) fun _ hm => hm
  intro k own e he hown
  cases own with
  | none => exact h' k e he
  | some mine =>
    obtain ⟨hc, hl⟩ := hown mine rfl
    obtain ⟨hc', hl'⟩ := h' k e he
    obtain ⟨r, hr, heq⟩ := syncEntry_eq_ok (a := mine) (b := e) (by omega) (by omega)
    rw [show syncVisit (some mine) e = .ok r from hr]
    have hcounter : r.counter.toNat = max mine.counter.toNat e.counter.toNat :=
      (congrArg DVVEntry.counter heq).trans (DVVSet.syncEntry_counter _ _)
    have hlength : r.values.length ≤ max mine.values.length e.values.length :=
      (congrArg (fun e => e.values.length) heq).trans_le (DVVSet.syncEntry_length_le_max _ _)
    exact ⟨by omega, by omega⟩

end LocalWrite

section Bounds

/-- No entry has more siblings than dots or a counter above `b`. -/
def UpTo (b : ℕ) (ds : DVVSet64 N T) : Prop :=
  ∀ i e, ds.state.lookup i = some e → e.values.length ≤ e.counter.toNat ∧ e.counter.toNat ≤ b

variable {b : ℕ}

theorem UpTo.fits {ds : DVVSet64 N T} (h : ds.UpTo b) (hb : b < 2 ^ 63) : ds.Fits :=
  fun i e he => ⟨(h i e he).1, (h i e he).2.trans_lt hb⟩

theorem UpTo.mono {b' : ℕ} {ds : DVVSet64 N T} (h : ds.UpTo b) (hb : b ≤ b') : ds.UpTo b' :=
  fun i e he => ⟨(h i e he).1, (h i e he).2.trans hb⟩

theorem UpTo.new : (DVVSet64.new : DVVSet64 N T).UpTo b := by
  simp [UpTo, DVVSet64.new]

theorem UpTo.sync {ds other : DVVSet64 N T} (h : ds.UpTo b) (h' : other.UpTo b)
    (hb : b < 2 ^ 63) : Outcome (fun _ => False) (UpTo b) (ds.sync other) := by
  refine Outcome.map (FMap.upsertAllM_outcome ?_ h) fun _ hm => hm
  intro k own e he hown
  cases own with
  | none => exact h' k e he
  | some mine =>
    obtain ⟨hl, hc⟩ := hown mine rfl
    obtain ⟨hl', hc'⟩ := h' k e he
    obtain ⟨r, hr, heq⟩ := syncEntry_eq_ok (a := mine) (b := e) (by omega) (by omega)
    rw [show syncVisit (some mine) e = .ok r from hr]
    have hcounter : r.counter.toNat = max mine.counter.toNat e.counter.toNat :=
      (congrArg DVVEntry.counter heq).trans (DVVSet.syncEntry_counter _ _)
    have hlength := DVVSet.syncEntry_length_le (a := ⟨mine.counter.toNat, mine.values⟩)
      (b := ⟨e.counter.toNat, e.values⟩) hl hl'
    rw [← heq] at hlength
    exact ⟨hlength, by omega⟩

theorem UpTo.update {ds : DVVSet64 N T} (h : ds.UpTo b) (hb : b < 2 ^ 63) {vv : VV64 N} {c : ℕ}
    (hvv : VV64.Below c vv) (hc : c ≤ b) (nodeID : N) (value : T) :
    Outcome (fun _ => False) (UpTo (b + 1)) (ds.update nodeID vv value) := by
  obtain ⟨u, hu, -⟩ := update_eq_ok nodeID vv value (h.fits hb).small
  rw [hu]
  intro i e' he'
  have hlookup : ((vv.lookup i).getD 0).toNat ≤ b := by
    cases hi : vv.lookup i with
    | none => exact Nat.zero_le b
    | some x => exact (hvv i x hi).le.trans hc
  rcases update_cases (h.fits hb).small hu he' with ⟨-, rfl⟩ | ⟨e, he, rfl⟩ | ⟨e, he, rfl⟩
  · exact ⟨le_rfl, Nat.succ_le_succ (Nat.zero_le b)⟩
  · have hkept := kept_length_le vv i e
    obtain ⟨hl, hle⟩ := h i e he
    simp only [List.length_cons, UInt64.toNat_add, UInt64.toNat_one]
    omega
  · have hkept := kept_length_le vv i e
    obtain ⟨hl, hle⟩ := h i e he
    simp only [toNat_max]
    omega

end Bounds

end DVVSet64
end Commute.Crdt
