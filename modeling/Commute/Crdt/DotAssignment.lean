import Commute.Crdt.CausalJoin
import Commute.Crdt.ObservedRemove

/-!
# A dot denotes one write

The journal of an element says which value belongs to which dot. Every entry of
every set that occurs in a run carries, by its position in the list, the values
the journal has for its dots, and nothing is ahead of the replica that owns the
counter.
-/
namespace Commute.Crdt

variable {N E : Type} [DecidableEq N]

namespace Journal

def assigned (H : Journal N Bool) (i : N) (n : ℕ) : Bool :=
  ((H.find? fun ev => ev.node = i ∧ ev.dot = n).map Event.value).getD false

theorem Chronicle.assigned_eq {H : Journal N Bool} (hH : Chronicle H) {ev : Event N Bool}
    (hev : ev ∈ H) : assigned H ev.node ev.dot = ev.value := by
  unfold assigned
  cases hfind : H.find? fun ev' => ev'.node = ev.node ∧ ev'.dot = ev.dot with
  | none =>
    have := List.find?_eq_none.mp hfind ev hev
    simp at this
  | some ev' =>
    have hmem := List.mem_of_find?_eq_some hfind
    have hsame := List.find?_some hfind
    simp only [decide_eq_true_eq] at hsame
    rw [hH.unique ev' hmem ev hev hsame.1 hsame.2]
    rfl

theorem Recorded.assigned {H : Journal N Bool} (hH : Chronicle H) {ds : DVVSet N Bool}
    (h : Recorded H ds) : ds.Assigned (assigned H) := by
  intro i e he
  have hlen := (h.wellFormed i e he).2
  refine ⟨hlen, ?_⟩
  intro k v hv
  have hk : k < e.values.length := (List.getElem?_eq_some_iff.mp hv).1
  have hsibling : ds.sibling i (e.counter - k) = some v := by
    have hindex : e.counter - (e.counter - k) = k := by omega
    simp [DVVSet.sibling, he, hindex, hv]
  obtain ⟨ev, hev, rfl, hdot, rfl⟩ := h.genuine i _ v hsibling
  rw [← hdot, hH.assigned_eq hev]

end Journal

namespace Replicas

variable [DecidableEq E]

theorem Consistent.nodup_cons {w : Replicas N E} (h : Consistent w) (r : N) (value : E)
    (vv : VV N) (marker : Bool)
    (hnodup : ((w.journal value).map fun ev => (ev.node, ev.dot)).Nodup) :
    ((⟨r, vv, marker, (w.replica r).element value⟩ :: w.journal value).map
      fun ev : Event N Bool => (ev.node, ev.dot)).Nodup := by
  rw [List.map_cons, List.nodup_cons]
  refine ⟨?_, hnodup⟩
  intro hmem
  obtain ⟨ev, hev, heq⟩ := List.mem_map.mp hmem
  obtain ⟨hnode, hdot⟩ := Prod.mk.inj heq
  have hle := (h.sites.chronicle value).dot_le ev hev
  have hown : ((w.replica r).element value).top r = (w.journal value).count r :=
    h.sites.count r value
  rw [hdot, hnode, Event.dot] at hle
  change ((w.replica r).element value).top r + 1 ≤ (w.journal value).count r at hle
  omega

variable [Inhabited N]

theorem Reachable.nodup_dots {cond : Condition N E} {w : Replicas N E} (h : Reachable cond w)
    (value : E) : ((w.journal value).map fun ev => (ev.node, ev.dot)).Nodup := by
  have hboth : Consistent w ∧
      ∀ value, ((w.journal value).map fun ev => (ev.node, ev.dot)).Nodup := by
    apply h.invariant (I := fun w => Consistent w ∧
      ∀ value, ((w.journal value).map fun ev => (ev.node, ev.dot)).Nodup)
    · exact ⟨.init, fun _ => List.nodup_nil⟩
    · rintro w w' ⟨hc, hnodup⟩ hs
      refine ⟨hc.step hs, ?_⟩
      intro value'
      rcases hs.cases with ⟨r, v, vv, marker, -, -, rfl⟩ | ⟨r, x, -, rfl⟩ | ⟨r, v, rfl⟩
      · change (((w.log r v vv marker).journal value').map _).Nodup
        rw [log_journal]
        split_ifs with hv
        · exact hc.nodup_cons r v vv marker (hnodup v)
        · exact hnodup value'
      · exact hnodup value'
      · exact hnodup value'
  exact hboth.2 value

/-- In every run the values of every entry are those of one assignment of values to dots,
no two writes of an element have the same dot, and neither a set nor a context is ahead
of a replica about the replica itself. -/
theorem exists_assignment {w : Replicas N E} (h : Reachable AnyContext w) :
    (∃ assign : E → N → ℕ → Bool,
      (∀ value, ∀ ev ∈ w.journal value, assign value ev.node ev.dot = ev.value) ∧
      ∀ x, w.Occurs x → x.All fun value ds => ds.Assigned (assign value)) ∧
    (∀ value, ((w.journal value).map fun ev => (ev.node, ev.dot)).Nodup) ∧
    (∀ x, w.Occurs x → ∀ value i,
      (x.element value).top i ≤ ((w.replica i).element value).top i) ∧
    ∀ value, ∀ c ∈ w.contexts value, ∀ i,
      c.2.get i ≤ ((w.replica i).element value).top i := by
  have hc := h.consistent
  have hown : ∀ value i, ((w.replica i).element value).top i = (w.journal value).count i :=
    fun value i => hc.sites.count i value
  have hle : ∀ x, w.Occurs x → ∀ value i,
      (x.element value).top i ≤ ((w.replica i).element value).top i := by
    intro x hx value i
    rw [hown]
    exact ((hc.recorded.occurs hx).element (.new _)).top_le i
  refine ⟨⟨fun value => (w.journal value).assigned, ?_, ?_⟩, h.nodup_dots, hle, ?_⟩
  · intro value ev hev
    exact (hc.sites.chronicle value).assigned_eq hev
  · intro x hx value ds hds
    exact (hc.recorded.occurs hx value ds hds).assigned (hc.sites.chronicle value)
  · intro value c hmem i
    apply le_trans (hc.sites.contexts value c hmem i)
    exact hle _ (Or.inl ⟨c.1, rfl⟩) value i

theorem exists_assignment_concurrentAdd :
    ∃ assign : String → String → ℕ → Bool,
      assign "x" "a" 1 = true ∧ assign "x" "b" 1 = true ∧ assign "x" "b" 2 = false := by
  obtain ⟨⟨assign, hassign, -⟩, -⟩ := exists_assignment concurrentAdd_reachable
  have hevents : (concurrentAdd.journal "x").map (fun ev => (ev.node, ev.dot, ev.value)) =
      [("b", 2, false), ("b", 1, true), ("a", 1, true)] := by decide
  have hvalue : ∀ t ∈ [("b", 2, false), ("b", 1, true), ("a", 1, true)],
      assign "x" t.1 t.2.1 = t.2.2 := by
    rw [← hevents, List.forall_mem_map]
    exact hassign "x"
  exact ⟨assign, hvalue ("a", 1, true) (by simp), hvalue ("b", 1, true) (by simp),
    hvalue ("b", 2, false) (by simp)⟩

end Replicas
end Commute.Crdt
