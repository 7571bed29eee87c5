import Commute.Crdt.Replicas
import Commute.Server.SetRuns
import Mathlib.Data.String.Basic

/-!
# Sets agree once everything is acknowledged

The skip test of `Merge` compares counters only, so stores that acknowledged
everything have the same counters. Whether they have the same siblings as well
depends on the contexts: a write that absorbs one part of a context and ignores
another leaves a store with counters that promise more than it knows.
-/
namespace Commute.Server

open Crdt Gossip

variable {A S T R : Type} [LinearOrder S] [Inhabited S]

theorem fresh_set_le (id : A → S) (allowed : SetCondition A S) (i j : A) :
    DeltaValue.Le ((setRules id allowed).fresh i) ((setRules id allowed).fresh j) :=
  (ORSet.le_iff _ _).mpr (ORSet.All.new _ _)

/-- Sets that dominate each other and are traced by one journal read the same. -/
theorem Store.getSet_congr {st st' : Store A S T R} {key : S} {H : S → Journal S Bool}
    (hH : ∀ value, (H value).Chronicle) (h : Network.Equivalent st.sets st'.sets key)
    (ht : ∀ set, st.sets.state.lookup key = some set → set.All fun value => (H value).Traced)
    (ht' : ∀ set, st'.sets.state.lookup key = some set → set.All fun value => (H value).Traced) :
    (st.getSet key).1.Perm (st'.getSet key).1 ∧
      (∀ value, ((st.getSet key).2.1.lookup value).map (fun vv i => vv.lookup i) =
        ((st'.getSet key).2.1.lookup value).map fun vv i => vv.lookup i) ∧
      (st.getSet key).2.2 = (st'.getSet key).2.2 := by
  unfold getSet
  rcases h.cases with ⟨hv, hv'⟩ | ⟨set, set', hv, hv', hle, hle'⟩ <;> rw [hv, hv']
  · exact ⟨.rfl, fun _ => rfl, rfl⟩
  · have htr := ht set hv
    have htr' := ht' set' hv'
    refine ⟨?_, ?_, rfl⟩
    · rw [List.perm_ext_iff_of_nodup set.values_nodup set'.values_nodup]
      intro value
      rw [ORSet.mem_values, ORSet.mem_values]
      exact ⟨ORSet.contains_of_le hH htr htr' hle hle', ORSet.contains_of_le hH htr' htr hle' hle⟩
    · exact ORSet.causalContexts_of_le (htr.imp fun _ _ hds => hds.recorded.wellFormed)
        (htr'.imp fun _ _ hds => hds.recorded.wellFormed) hle hle'

namespace Cluster

variable [DecidableEq A] [Instant T] [Inhabited R]

end Cluster

/-- The counters decide whether a merge changes anything, as long as contexts come from
the writing replica itself: in a run of replicas for any two `DVVSet`s of one element and
any two sets, and in a cluster for whatever a message brings to a store. -/
theorem skip_sound {N E : Type} [DecidableEq N] [DecidableEq E] [Inhabited N] [DecidableEq A]
    [Instant T] [Inhabited R] {v : Replicas N E} (hv : Replicas.Reachable Replicas.OwnContext v)
    {id : A → S} (hid : Function.Injective id) {w : Cluster A S T R}
    (hw : Cluster.Reachable id OwnContext w) :
    (∀ x y, v.Occurs x → v.Occurs y →
      (∀ value ds ds', x.state.lookup value = some ds → y.state.lookup value = some ds' →
        ds.isLessOrEqual ds' = true →
        ∀ i, (ds'.sync ds).state.lookup i = ds'.state.lookup i) ∧
      (x.isLessOrEqual y = true → ∀ value,
        ((y.merge x).state.lookup value).map (fun ds i => ds.state.lookup i) =
          (y.state.lookup value).map fun ds i => ds.state.lookup i)) ∧
    ∀ p ∈ w.sent, ∀ key incoming known, p.msg.sets.lookup key = some incoming →
      (w.store p.dst).sets.state.lookup key = some known →
      incoming.isLessOrEqual known = true → ∀ value,
        ((known.merge incoming).state.lookup value).map (fun ds i => ds.state.lookup i) =
          (known.state.lookup value).map fun ds i => ds.state.lookup i := by
  have hreplicas := hv.guarded_of_ownContext.causality.traced
  have hcausal := setCausality_of_reachable hid (fun _ _ _ _ => returned_of_own)
    (fun _ _ _ _ hc => hc.guarded_of_own) hw.sets
  refine ⟨fun x y hx hy => ⟨?_, ?_⟩, ?_⟩
  · intro value ds ds' hds hds' hle
    exact (hreplicas.occurs hy value ds' hds').sync_lookup (hreplicas.occurs hx value ds hds)
      ((DVVSet.isLessOrEqual_iff ds ds').mp hle)
  · exact fun hle => ORSet.merge_of_le (hreplicas.occurs hy) (hreplicas.occurs hx) hle
  · intro p hp key incoming known hincoming hknown hle
    exact ORSet.merge_of_le ((hcausal.traced.ledger p.dst).state key known hknown)
      (hcausal.traced.sent ⟨p.src, p.dst, p.msg.setsSeq, p.msg.sets⟩
        (List.mem_map.mpr ⟨p, hp, rfl⟩) key incoming hincoming) hle

def addedReplica : Replicas String String := Replicas.init.add "a" "x" ∅

/-- A store that added an element, and one that merged it. -/
def addedPair : Cluster Bool String ℕ ℕ :=
  ((Cluster.init Cluster.pairID).addSet true "k" "x" ∅).exchange true false

/-- Both merge the same delta once more. -/
theorem skip_sound_added :
    let known := (((addedPair.store false).sets.state.lookup "k").getD (.new "b"))
    let incoming := ((addedPair.sent.head (by decide)).msg.sets.lookup "k").getD (.new "b")
    (((addedReplica.replica "a").merge ((ORSet.new "a").add "x" ∅)).state.lookup "x").map
        (fun ds i => ds.state.lookup i) =
      ((addedReplica.replica "a").state.lookup "x").map (fun ds i => ds.state.lookup i) ∧
    ((known.merge incoming).state.lookup "x").map (fun ds i => ds.state.lookup i) =
      (known.state.lookup "x").map fun ds i => ds.state.lookup i := by
  have hv : Replicas.Reachable Replicas.OwnContext addedReplica :=
    .tail .refl (.add "a" "x" ∅ (Or.inl rfl) (Or.inl rfl))
  have hinit : Cluster.Reachable Cluster.pairID OwnContext
      (Cluster.init Cluster.pairID : Cluster Bool String ℕ ℕ) := .refl
  have hw : Cluster.Reachable Cluster.pairID OwnContext addedPair :=
    (hinit.step (.addSet true "k" "x" ∅ (Or.inl rfl))).exchange true false
  have hskip := skip_sound hv Cluster.pairID_injective hw
  refine ⟨?_, ?_⟩
  · refine (hskip.1 ((ORSet.new "a").add "x" ∅) (addedReplica.replica "a") (Or.inr ?_)
      (Or.inl ⟨"a", rfl⟩)).2 (by decide) "x"
    exact List.mem_cons_of_mem _ List.mem_cons_self
  · exact hskip.2 _ (List.head_mem (by decide)) "k" _ _ rfl rfl (by decide) "x"

end Commute.Server
