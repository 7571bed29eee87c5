import Commute.Crdt.Replicas
import Mathlib.Data.String.Basic

/-!
# Observed removes and concurrent adds

A write supersedes the dots its context covers, and nothing else supersedes a
dot. The first half holds for the nodes the writer had an entry for: a context
cannot make a replica remember a node it has no entry for. At the writer itself
it holds in all runs. Elsewhere the dot of a write has to stand for what the
write covered, which is lost when a context raises a counter of a replica and
names an id that the replica has no entry for.
-/
namespace Commute.Crdt.Replicas

variable {N E : Type} [DecidableEq N] [DecidableEq E]

/-- What a write left is still known to its writer. -/
def Kept (w : Replicas N E) : Prop :=
  ∀ value, ∀ ev ∈ w.journal value, ev.result.Below ((w.replica ev.node).element value)

variable {w : Replicas N E}

/-- A dot that the context of a write covers is dead in every set that knows what the write
left, if the writer had an entry for its node. -/
theorem sibling_eq_none_of_below (h : Consistent w) {value : E} {ev : Event N Bool}
    (hev : ev ∈ w.journal value) {i : N} (hi : (ev.before.state.lookup i).isSome) {n : ℕ}
    (hn : n ≤ ev.context.get i) {ds : DVVSet N Bool} (hds : ds.WellFormed)
    (hbelow : ev.result.Below ds) : ds.sibling i n = none := by
  have hlow : n ≤ ds.low i := calc
    n ≤ ev.context.get i := hn
    _ ≤ ev.result.low i := (h.sites.chronicle value).context_le_low hev hi
    _ ≤ ds.low i := (hbelow i).2
  rw [← Option.not_isSome_iff_eq_none, hds.sibling_isSome]
  omega

theorem Consistent.wellFormed (h : Consistent w) (r : N) :
    (w.replica r).All fun _ => DVVSet.WellFormed :=
  (h.recorded.replica r).imp fun _ _ hds => hds.wellFormed

theorem below_commit (h : Consistent w) {x : ORSet N E} (hx : x.All fun _ => DVVSet.WellFormed)
    (r r' : N) (value : E) : ((w.replica r').element value).Below
      (((w.commit r x).replica r').element value) := by
  rw [commit_replica]
  split_ifs with hr
  · subst hr
    exact (ORSet.element_below_merge (h.wellFormed r') hx value).1
  · exact .refl _

theorem Kept.commit (h : Kept w) (hc : Consistent w) (r : N) {x : ORSet N E}
    (hx : x.All fun _ => DVVSet.WellFormed) : Kept (w.commit r x) :=
  fun value ev hev => (h value ev hev).trans (below_commit hc hx r ev.node value)

variable [Inhabited N]

theorem Kept.marked (h : Kept w) (hc : Consistent w) (r : N) (value : E) (vv : VV N)
    (marker : Bool) : Kept (w.marked r value vv marker) := by
  have hrecorded : (w.journal value).Recorded ((w.replica r).element value) :=
    (hc.recorded.replica r).element (.new _)
  have hdelta : ((w.replica r).mark marker value vv).All fun _ => DVVSet.WellFormed :=
    ORSet.All.mark hrecorded.wellFormed.update
  intro value' ev hev
  have hold : ev ∈ w.journal value' →
      ev.result.Below (((w.marked r value vv marker).replica ev.node).element value') :=
    fun hm => (h value' ev hm).trans (below_commit hc hdelta r ev.node value')
  change ev ∈ (w.log r value vv marker).journal value' at hev
  rw [log_journal] at hev
  split_ifs at hev with hv
  · subst hv
    rcases List.mem_cons.mp hev with rfl | hm
    · -- the delta of the write is merged at its writer
      have hresult := (ORSet.element_below_merge (hc.wellFormed r) hdelta value').2
      rw [ORSet.element_mark, hc.owner r] at hresult
      rw [Replicas.marked, commit_replica, if_pos rfl]
      exact hresult
    · exact hold hm
  · exact hold hev

theorem Reachable.kept {cond : Condition N E} (h : Reachable cond w) : Kept w := by
  refine (h.invariant (I := fun w => Consistent w ∧ Kept w) ⟨.init, fun _ _ => nofun⟩ ?_).2
  rintro w w' ⟨hc, hk⟩ hs
  refine ⟨hc.step hs, ?_⟩
  rcases hs.cases with ⟨r, value, vv, marker, -, -, rfl⟩ | ⟨r, x, hx, rfl⟩ | ⟨r, value, rfl⟩
  · exact hk.marked hc r value vv marker
  · exact hk.commit hc r ((hc.recorded.all_of_pool hx).imp fun _ _ hds => hds.wellFormed)
  · exact hk

/-- Whatever a write's context covers is dead at the writer from then on, for every node the
writer had an entry for. If all contexts of the run are guarded, it is dead wherever the
write's dot is known. -/
theorem sibling_eq_none_of_observed (h : Reachable AnyContext w) {value : E}
    {ev : Event N Bool} (hev : ev ∈ w.journal value) {i : N}
    (hi : (ev.before.state.lookup i).isSome) {n : ℕ} (hn : n ≤ ev.context.get i) :
    ((w.replica ev.node).element value).sibling i n = none ∧
      (Reachable Guarded w → ∀ x, w.Occurs x →
        ev.dot ≤ (x.causalContext value).get ev.node → (x.element value).sibling i n = none) := by
  have hc := h.consistent
  constructor
  · have hrecorded : (w.journal value).Recorded ((w.replica ev.node).element value) :=
      (hc.recorded.replica ev.node).element (.new _)
    exact sibling_eq_none_of_below hc hev hi hn hrecorded.wellFormed (h.kept value ev hev)
  · intro hguarded x hx hdot
    have htraced : (w.journal value).Traced (x.element value) :=
      (hguarded.causality.traced.occurs hx).element (.new _)
    rw [ORSet.causalContext_get] at hdot
    exact sibling_eq_none_of_below hc hev hi hn htraced.recorded.wellFormed
      (htraced.causal.sound ev hev hdot)

/-- `b` adds, `a` removes with the context it read after merging the add, and `b`
merges the removal. -/
def observedRemove : Replicas String String :=
  let added := init.add "b" "x" ∅
  let seen := (added.commit "a" ((init.replica "b").add "x" ∅)).read "a" "x"
  let removed := seen.remove "a" "x" ((seen.replica "a").causalContext "x")
  removed.commit "b" (removed.replica "a")

theorem sibling_eq_none_observedRemove :
    ((observedRemove.replica "a").element "x").sibling "b" 1 = none ∧
      ((observedRemove.replica "b").element "x").sibling "b" 1 = none := by
  have hreach : Reachable OwnContext observedRemove := by
    refine .tail (.tail (.tail (.tail (.tail .refl (.add "b" "x" ∅ ?_ ?_)) (.merge "a" _ ?_))
      (.read "a" "x")) (.remove "a" "x" _ ?_ ?_)) (.merge "b" _ ?_)
    · exact Or.inl rfl
    · exact Or.inl rfl
    · exact List.mem_cons_of_mem _ List.mem_cons_self
    · exact Or.inr ⟨"a", List.mem_cons_self⟩
    · exact Or.inr List.mem_cons_self
    · exact List.mem_cons_self
  have hev : (observedRemove.journal "x").head (by decide) ∈ observedRemove.journal "x" :=
    List.head_mem _
  obtain ⟨hwriter, helsewhere⟩ := sibling_eq_none_of_observed hreach.anyContext hev
    (i := "b") (n := 1) (by decide) (by decide)
  exact ⟨hwriter, helsewhere hreach.guarded_of_ownContext _ (Or.inl ⟨"b", rfl⟩) (by decide)⟩

/-- `a` and `b` add independently, `b` removes with the context read at `a`, for
which it has no entry, and then merges the add of `a`. -/
def unabsorbedRemove : Replicas String String :=
  let added := ((init.add "a" "x" ∅).add "b" "x" ∅).read "a" "x"
  let removed := added.remove "b" "x" ((added.replica "a").causalContext "x")
  removed.commit "b" ((init.replica "a").add "x" ∅)

theorem unabsorbedRemove_reachable : Reachable AnyContext unabsorbedRemove := by
  refine .tail (.tail (.tail (.tail (.tail .refl (.add "a" "x" ∅ ?_ trivial))
    (.add "b" "x" ∅ ?_ trivial)) (.read "a" "x")) (.remove "b" "x" _ ?_ trivial)) (.merge "b" _ ?_)
  · exact Or.inl rfl
  · exact Or.inl rfl
  · exact Or.inr ⟨"a", List.mem_cons_self⟩
  · exact List.mem_of_mem_getLast? rfl

/-- `r` and `s` add, `q` merges the add of `r`, and `r` merges that of `s` and removes both.
`q` removes with the context then read at `r`, which raises its counter for `r` and names `s`,
for which it has no entry. In the end `s` merges the state of `q`. -/
def raisedRemove : Replicas String String :=
  let added := (init.add "r" "x" ∅).commit "q" ((init.replica "r").add "x" ∅)
  let seen := ((added.add "s" "x" ∅).commit "r" ((init.replica "s").add "x" ∅)).read "r" "x"
  let removed := (seen.remove "r" "x" ((seen.replica "r").causalContext "x")).read "r" "x"
  let raised := removed.remove "q" "x" ((removed.replica "r").causalContext "x")
  raised.commit "s" (raised.replica "q")

theorem raisedRemove_reachable : Reachable AnyContext raisedRemove := by
  refine .tail (.tail (.tail (.tail (.tail (.tail (.tail (.tail (.tail .refl
    (.add "r" "x" ∅ ?_ trivial)) (.merge "q" _ ?_)) (.add "s" "x" ∅ ?_ trivial))
    (.merge "r" _ ?_)) (.read "r" "x")) (.remove "r" "x" _ ?_ trivial)) (.read "r" "x"))
    (.remove "q" "x" _ ?_ trivial)) (.merge "s" _ ?_)
  · exact Or.inl rfl
  · exact List.mem_cons_of_mem _ List.mem_cons_self
  · exact Or.inl rfl
  · exact List.mem_cons_of_mem _ List.mem_cons_self
  · exact Or.inr ⟨"r", List.mem_cons_self⟩
  · exact Or.inr ⟨"r", List.mem_cons_self⟩
  · exact List.mem_cons_self

/-- Without an entry for the covered node the covered add comes back at the writer: the remove
of `b` has the dot `(b, 2)` and covers `(a, 1)`, which is live at `b` afterwards. Where a
context was not guarded, an add covered for a node the writer has an entry for is live
elsewhere: the remove of `r` has the dot `(r, 2)` and covers `(s, 1)`, and `s`, which has
merged a state with that dot, still shows it. -/
theorem sibling_unabsorbedRemove :
    (Reachable AnyContext unabsorbedRemove ∧
      (unabsorbedRemove.journal "x").map
        (fun ev => (ev.node, ev.dot, ev.value, ev.context.get "a")) =
        [("b", 2, false, 1), ("b", 1, true, 0), ("a", 1, true, 0)] ∧
      ((unabsorbedRemove.replica "b").element "x").sibling "a" 1 = some true) ∧
    Reachable AnyContext raisedRemove ∧
      (raisedRemove.journal "x").map (fun ev => (ev.node, ev.dot, ev.value, ev.context.get "s",
        (ev.before.state.lookup "s").isSome)) =
        [("q", 1, false, 1, false), ("r", 2, false, 1, true), ("s", 1, true, 0, false),
          ("r", 1, true, 0, false)] ∧
      2 ≤ ((raisedRemove.replica "s").causalContext "x").get "r" ∧
      ((raisedRemove.replica "s").element "x").sibling "s" 1 = some true :=
  ⟨⟨unabsorbedRemove_reachable, by decide, by decide⟩, raisedRemove_reachable, by decide,
    by decide, by decide⟩

/-- An add whose dot no context of a write covers is visible wherever it is known. -/
theorem contains_of_uncovered (h : Reachable AnyContext w) {value : E}
    {ev : Event N Bool} (hev : ev ∈ w.journal value) (hadd : ev.value = true)
    (hcover : ∀ ev' ∈ w.journal value, ¬ ev.dot ≤ ev'.context.get ev.node) (r : N)
    (hr : ev.dot ≤ ((w.replica r).causalContext value).get ev.node) :
    (w.replica r).contains value = true := by
  have hc := h.consistent
  rw [ORSet.causalContext_get] at hr
  cases hl : (w.replica r).state.lookup value with
  | none => simp [ORSet.element, hl, Event.dot] at hr
  | some ds =>
    have hrec : (w.journal value).Recorded ds := hc.recorded.replica r value ds hl
    rw [ORSet.element_of_some hl] at hr
    have hlow : ds.low ev.node < ev.dot := by
      rcases hrec.covered ev.node with h0 | ⟨ev', hm, hle⟩
      · rw [h0]
        exact Nat.succ_pos _
      · exact hle.trans_lt (not_le.mp (hcover ev' hm))
    have hlive := hrec.sibling_eq (hc.sites.chronicle value) hev hlow hr
    exact (ORSet.contains_of_some hl hrec.wellFormed).mpr ⟨_, _, hadd ▸ hlive⟩

/-- `b` removes its own add and then merges the add of `a`. -/
def concurrentAdd : Replicas String String :=
  let added := ((init.add "a" "x" ∅).add "b" "x" ∅).read "b" "x"
  let removed := added.remove "b" "x" ((added.replica "b").causalContext "x")
  removed.commit "b" ((init.replica "a").add "x" ∅)

theorem concurrentAdd_reachable : Reachable AnyContext concurrentAdd := by
  refine .tail (.tail (.tail (.tail (.tail .refl (.add "a" "x" ∅ ?_ trivial))
    (.add "b" "x" ∅ ?_ trivial)) (.read "b" "x")) (.remove "b" "x" _ ?_ trivial))
    (.merge "b" _ ?_)
  · exact Or.inl rfl
  · exact Or.inl rfl
  · exact Or.inr ⟨"b", List.mem_cons_self⟩
  · exact List.mem_of_mem_getLast? rfl

theorem contains_concurrentAdd : (concurrentAdd.replica "b").contains "x" = true := by
  have hev : (concurrentAdd.journal "x").getLast (by decide) ∈ concurrentAdd.journal "x" :=
    List.getLast_mem _
  exact contains_of_uncovered concurrentAdd_reachable hev (by decide) (by decide) "b" (by decide)

end Commute.Crdt.Replicas
