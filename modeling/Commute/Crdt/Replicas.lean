import Commute.Crdt.ORSet
import Commute.Crdt.Sites

/-!
# Runs of `ORSet` replicas

Every replica has its own node id. A write merges its delta locally at once, and
any state or delta that occurred may be merged anywhere, any number of times and
in any order. A context given to a write is empty or was returned by
`CausalContext` for the element; a run may put a further condition on it.

`Consistent` holds in all runs. `Causality` needs the condition `Guarded`, which
contexts that come from the writing replica itself always meet. Both extend the
invariants of `Sites` to the states and deltas that occurred.
-/
namespace Commute.Crdt

/-- `pool` has every delta and every state after a change, `contexts` what
`CausalContext` returned and where, and `journal` the writes of each element. -/
structure Replicas (N E : Type) where
  replica : N → ORSet N E
  pool : List (ORSet N E)
  contexts : E → List (N × VV N)
  journal : E → Journal N Bool

namespace Replicas

variable {N E : Type} [DecidableEq E]

def init : Replicas N E := ⟨ORSet.new, [], fun _ => [], fun _ => []⟩

def commit [DecidableEq N] (r : N) (x : ORSet N E) (w : Replicas N E) : Replicas N E :=
  { w with
    replica := Function.update w.replica r ((w.replica r).merge x)
    pool := (w.replica r).merge x :: x :: w.pool }

/-- Note that `r` is about to write `value` with the context `vv`. -/
def log (r : N) (value : E) (vv : VV N) (marker : Bool) (w : Replicas N E) : Replicas N E :=
  { w with
    journal := Function.update w.journal value
      (⟨r, vv, marker, (w.replica r).element value⟩ :: w.journal value) }

def add [DecidableEq N] [Inhabited N] (r : N) (value : E) (vv : VV N) (w : Replicas N E) :
    Replicas N E :=
  (w.log r value vv true).commit r ((w.replica r).add value vv)

/-- Only the removal of a tracked element is a write. -/
def remove [DecidableEq N] [Inhabited N] (r : N) (value : E) (vv : VV N) (w : Replicas N E) :
    Replicas N E :=
  match (w.replica r).state.lookup value with
  | none => w.commit r ((w.replica r).remove value vv)
  | some _ => (w.log r value vv false).commit r ((w.replica r).remove value vv)

def read (r : N) (value : E) (w : Replicas N E) : Replicas N E :=
  { w with
    contexts := Function.update w.contexts value
      ((r, (w.replica r).causalContext value) :: w.contexts value) }

def sites (w : Replicas N E) : Sites N N E :=
  ⟨fun r value => (w.replica r).element value, w.contexts, w.journal⟩

abbrev Condition (N E : Type) := Replicas N E → N → E → VV N → Prop

inductive Step [DecidableEq N] [Inhabited N] (cond : Condition N E) (w : Replicas N E) :
    Replicas N E → Prop
  | add (r : N) (value : E) (vv : VV N) : w.sites.Returned value vv → cond w r value vv →
      Step cond w (w.add r value vv)
  | remove (r : N) (value : E) (vv : VV N) : w.sites.Returned value vv → cond w r value vv →
      Step cond w (w.remove r value vv)
  | read (r : N) (value : E) : Step cond w (w.read r value)
  | merge (r : N) (x : ORSet N E) : x ∈ w.pool → Step cond w (w.commit r x)

def Reachable [DecidableEq N] [Inhabited N] (cond : Condition N E) : Replicas N E → Prop :=
  Relation.ReflTransGen (Step cond) init

def AnyContext : Condition N E := fun _ _ _ _ => True

/-- The context is empty or was returned earlier by the writing replica itself. -/
def OwnContext : Condition N E := fun w => w.sites.OwnReturned

/-- A context that raises a counter names only ids the replica has an entry for. -/
def Guarded [DecidableEq N] : Condition N E := fun w => w.sites.Guarded fun r => r

/-- The set is the state of a replica or occurred as a state or delta. -/
def Occurs (w : Replicas N E) (x : ORSet N E) : Prop := (∃ r, x = w.replica r) ∨ x ∈ w.pool

/-- Every `DVVSet` of a replica or in the pool stands in the relation `P` to the
journal of its element. -/
structure Everywhere (P : Journal N Bool → DVVSet N Bool → Prop) (w : Replicas N E) : Prop where
  replica : ∀ r, (w.replica r).All fun value => P (w.journal value)
  pool : ∀ x ∈ w.pool, x.All fun value => P (w.journal value)

theorem log_journal (w : Replicas N E) (r : N) (value value' : E) (vv : VV N) (marker : Bool) :
    (w.log r value vv marker).journal value' = if value' = value then
      ⟨r, vv, marker, (w.replica r).element value⟩ :: w.journal value else w.journal value' :=
  Function.update_apply _ _ _ _

section Everywhere

variable {P : Journal N Bool → DVVSet N Bool → Prop} {w : Replicas N E}

theorem Everywhere.init : Everywhere P (init : Replicas N E) :=
  ⟨fun r => ORSet.All.new _ r, by simp [Replicas.init]⟩

theorem Everywhere.occurs (h : Everywhere P w) {x : ORSet N E} (hx : w.Occurs x) :
    x.All fun value => P (w.journal value) := by
  rcases hx with ⟨r, rfl⟩ | hx
  · exact h.replica r
  · exact h.pool x hx

theorem Everywhere.all_of_pool [Inhabited N] (h : Everywhere P w) {x : ORSet N E}
    (hx : x ∈ w.pool ∨ x = ⟨default, ∅⟩) : x.All fun value => P (w.journal value) := by
  rcases hx with hx | rfl
  · exact h.pool x hx
  · exact ORSet.All.new _ default

theorem Everywhere.log {r : N} {value : E} {vv : VV N} {marker : Bool} (h : Everywhere P w)
    (hcons : ∀ ds, P (w.journal value) ds →
      P (⟨r, vv, marker, (w.replica r).element value⟩ :: w.journal value) ds) :
    Everywhere P (w.log r value vv marker) := by
  have hlog : ∀ value' ds, P (w.journal value') ds →
      P ((w.log r value vv marker).journal value') ds := by
    intro value' ds hds
    rw [log_journal]
    split_ifs with hv
    · subst hv
      exact hcons ds hds
    · exact hds
  exact ⟨fun r' => (h.replica r').imp hlog, fun x hx => (h.pool x hx).imp hlog⟩

end Everywhere

variable [DecidableEq N]

structure Consistent (w : Replicas N E) : Prop where
  owner : ∀ r, (w.replica r).nodeID = r
  recorded : Everywhere Journal.Recorded w
  sites : w.sites.Consistent fun r => r

/-- What holds in addition as long as every write is `Guarded`. -/
structure Causality (w : Replicas N E) : Prop where
  traced : Everywhere Journal.Traced w
  sites : w.sites.Causality

theorem commit_replica (w : Replicas N E) (r r' : N) (x : ORSet N E) :
    (w.commit r x).replica r' = if r' = r then (w.replica r).merge x else w.replica r' :=
  Function.update_apply _ _ _ _

theorem Everywhere.commit {P : Journal N Bool → DVVSet N Bool → Prop} {w : Replicas N E}
    (hsync : ∀ H a b, P H a → P H b → P H (a.sync b)) (h : Everywhere P w) (r : N)
    {x : ORSet N E} (hx : x.All fun value => P (w.journal value)) :
    Everywhere P (w.commit r x) := by
  have hmerge := ORSet.All.merge (fun value => hsync (w.journal value)) (h.replica r) hx
  refine ⟨?_, ?_⟩
  · intro r'
    rw [commit_replica]
    split_ifs with hr
    · exact hmerge
    · exact h.replica r'
  · intro y hy
    rcases List.mem_cons.mp hy with rfl | hy
    · exact hmerge
    rcases List.mem_cons.mp hy with rfl | hy
    · exact hx
    · exact h.pool y hy

theorem sites_grows_commit (w : Replicas N E) (r : N) (x : ORSet N E) :
    w.sites.Grows (w.commit r x).sites := by
  intro r' value i
  change _ ≤ (((w.commit r x).replica r').element value).top i
  rw [commit_replica]
  split_ifs with hr
  · subst hr
    rw [ORSet.top_element_merge]
    exact le_max_left _ _
  · exact le_rfl

theorem sites_reads_read (w : Replicas N E) (r : N) (value : E) :
    w.sites.Reads (w.read r value).sites := by
  intro value' c hc
  change c ∈ Function.update w.contexts value _ value' at hc
  rw [Function.update_apply] at hc
  split_ifs at hc with hv
  · subst hv
    rcases List.mem_cons.mp hc with rfl | hc
    · exact Or.inr (ORSet.causalContext_get value' (w.replica r))
    · exact Or.inl hc
  · exact Or.inl hc

theorem commit_nodeID {w : Replicas N E} (h : ∀ r, (w.replica r).nodeID = r) (r : N)
    (x : ORSet N E) (r' : N) : ((w.commit r x).replica r').nodeID = r' := by
  rw [commit_replica]
  split_ifs with hr
  · exact hr ▸ h r
  · exact h r'

theorem Consistent.init : Consistent (init : Replicas N E) where
  owner _ := rfl
  recorded := .init
  sites := ⟨fun _ => .nil, fun _ _ => .new _, fun _ _ => rfl,
    fun _ _ hc => absurd hc List.not_mem_nil⟩

theorem Causality.init : Causality (init : Replicas N E) where
  traced := .init
  sites := ⟨fun _ _ => .new _, fun _ _ hc => absurd hc List.not_mem_nil⟩

theorem Consistent.commit {w : Replicas N E} (h : Consistent w) (r : N) {x : ORSet N E}
    (hx : x.All fun value => (w.journal value).Recorded) : Consistent (w.commit r x) := by
  have hrec := h.recorded.commit (fun _ _ _ => Journal.Recorded.sync) r hx
  refine ⟨commit_nodeID h.owner r x, hrec, ?_⟩
  exact h.sites.quiet (sites_grows_commit w r x) (fun _ _ hc => Or.inl hc) rfl
    fun r' _ => (hrec.replica r').element (.new _)

theorem Causality.commit {w : Replicas N E} (h : Causality w) (r : N) {x : ORSet N E}
    (hx : x.All fun value => (w.journal value).Traced) : Causality (w.commit r x) := by
  have htraced := h.traced.commit (fun _ _ _ => Journal.Traced.sync) r hx
  exact ⟨htraced, h.sites.quiet (fun _ _ hc => Or.inl hc) rfl
    fun r' _ => (htraced.replica r').element (.new _)⟩

theorem Consistent.read {w : Replicas N E} (h : Consistent w) (r : N) (value : E) :
    Consistent (w.read r value) where
  owner := h.owner
  recorded := ⟨h.recorded.replica, h.recorded.pool⟩
  sites := h.sites.quiet (fun _ _ _ => le_rfl) (sites_reads_read w r value) rfl h.sites.recorded

theorem Causality.read {w : Replicas N E} (h : Causality w) (r : N) (value : E) :
    Causality (w.read r value) :=
  ⟨⟨h.traced.replica, h.traced.pool⟩,
    h.sites.quiet (sites_reads_read w r value) rfl h.sites.traced⟩

variable [Inhabited N]

def marked (r : N) (value : E) (vv : VV N) (marker : Bool) (w : Replicas N E) : Replicas N E :=
  (w.log r value vv marker).commit r ((w.replica r).mark marker value vv)

/-- What a step can do: an effective write, a merge of a set that occurred or of
an empty one, a read. -/
theorem Step.cases {cond : Condition N E} {w w' : Replicas N E} (h : Step cond w w') :
    (∃ r value vv marker, w.sites.Returned value vv ∧ cond w r value vv ∧
      w' = w.marked r value vv marker) ∨
    (∃ r x, (x ∈ w.pool ∨ x = ⟨default, ∅⟩) ∧ w' = w.commit r x) ∨
    ∃ r value, w' = w.read r value := by
  cases h with
  | add r value vv hvv hc => exact Or.inl ⟨r, value, vv, true, hvv, hc, rfl⟩
  | remove r value vv hvv hc =>
    unfold Replicas.remove ORSet.remove
    cases hl : (w.replica r).state.lookup value with
    | none => exact Or.inr (Or.inl ⟨r, _, Or.inr rfl, rfl⟩)
    | some ds => exact Or.inl ⟨r, value, vv, false, hvv, hc, rfl⟩
  | read r value => exact Or.inr (Or.inr ⟨r, value, rfl⟩)
  | merge r x hx => exact Or.inr (Or.inl ⟨r, x, Or.inl hx, rfl⟩)

theorem Reachable.invariant {cond : Condition N E} {I : Replicas N E → Prop} (hinit : I init)
    (hstep : ∀ w w', I w → Step cond w w' → I w') {w : Replicas N E} (h : Reachable cond w) :
    I w := by
  induction h with
  | refl => exact hinit
  | tail _ hs ih => exact hstep _ _ ih hs

theorem Everywhere.marked {P : Journal N Bool → DVVSet N Bool → Prop} {w : Replicas N E}
    (hsync : ∀ H a b, P H a → P H b → P H (a.sync b)) (h : Everywhere P w) {r : N} {value : E}
    {vv : VV N} {marker : Bool} (hr : (w.replica r).nodeID = r)
    (hcons : ∀ ds, P (w.journal value) ds →
      P (⟨r, vv, marker, (w.replica r).element value⟩ :: w.journal value) ds)
    (hresult : P (⟨r, vv, marker, (w.replica r).element value⟩ :: w.journal value)
      (Event.result ⟨r, vv, marker, (w.replica r).element value⟩)) :
    Everywhere P (w.marked r value vv marker) := by
  refine (h.log hcons).commit hsync r (ORSet.All.mark ?_)
  rw [log_journal, if_pos rfl, hr]
  exact hresult

theorem sites_logs_marked (w : Replicas N E) (r : N) (value : E) (vv : VV N) (marker : Bool) :
    w.sites.Logs (w.marked r value vv marker).sites value
      (w.sites.event (fun r => r) r value vv marker) := by
  refine ⟨(log_journal w r value value vv marker).trans (if_pos rfl), fun value' hv => ?_⟩
  exact (log_journal w r value value' vv marker).trans (if_neg hv)

theorem top_marked {w : Replicas N E} {r : N} (hr : (w.replica r).nodeID = r) (value : E)
    (vv : VV N) (marker : Bool) : ((w.replica r).element value).top r + 1 ≤
      (((w.marked r value vv marker).replica r).element value).top r := by
  rw [marked, commit_replica, if_pos rfl, ORSet.top_element_merge, ORSet.element_mark, hr,
    DVVSet.top_update_self]
  exact le_max_right _ _

theorem Consistent.marked {w : Replicas N E} (h : Consistent w) {r : N} {value : E} {vv : VV N}
    (hvv : w.sites.Returned value vv) (marker : Bool) :
    Consistent (w.marked r value vv marker) := by
  have hrec := h.recorded.marked (fun _ _ _ => Journal.Recorded.sync) (h.owner r)
    (fun _ hds => hds.cons _) (h.sites.result hvv marker)
  refine ⟨commit_nodeID h.owner r _, hrec, ?_⟩
  exact h.sites.write (fun _ _ heq => heq) hvv (sites_logs_marked w r value vv marker)
    (sites_grows_commit w r _) (fun _ _ hc => Or.inl hc)
    (fun r' _ => (hrec.replica r').element (.new _)) (top_marked (h.owner r) value vv marker)

theorem Causality.marked {w : Replicas N E} (h : Causality w) (hc : Consistent w) {r : N}
    {value : E} {vv : VV N} (hvv : w.sites.Returned value vv) (hguard : Guarded w r value vv)
    (marker : Bool) : Causality (w.marked r value vv marker) := by
  have htraced := h.traced.marked (fun _ _ _ => Journal.Traced.sync) (hc.owner r)
    (fun _ hds => hds.cons (hc.sites.count r value)) (h.sites.result hc.sites hvv hguard marker)
  refine ⟨htraced, ?_⟩
  exact h.sites.write hc.sites (sites_logs_marked w r value vv marker)
    (fun _ _ hc => Or.inl hc) fun r' _ => (htraced.replica r').element (.new _)

theorem Consistent.step {cond : Condition N E} {w w' : Replicas N E} (h : Consistent w)
    (hs : Step cond w w') : Consistent w' := by
  rcases hs.cases with ⟨r, value, vv, marker, hvv, -, rfl⟩ | ⟨r, x, hx, rfl⟩ | ⟨r, value, rfl⟩
  · exact h.marked hvv marker
  · exact h.commit r (h.recorded.all_of_pool hx)
  · exact h.read r value

theorem Reachable.consistent {cond : Condition N E} {w : Replicas N E} (h : Reachable cond w) :
    Consistent w :=
  h.invariant .init fun _ _ hi hs => hi.step hs

theorem Causality.step {w w' : Replicas N E} (h : Causality w) (hc : Consistent w)
    (hs : Step Guarded w w') : Causality w' := by
  rcases hs.cases with ⟨r, value, vv, marker, hvv, hguard, rfl⟩ | ⟨r, x, hx, rfl⟩ | ⟨r, value, rfl⟩
  · exact h.marked hc hvv hguard marker
  · exact h.commit r (h.traced.all_of_pool hx)
  · exact h.read r value

theorem Reachable.causality {w : Replicas N E} (h : Reachable Guarded w) : Causality w := by
  refine (h.invariant (I := fun w => Consistent w ∧ Causality w) ⟨.init, .init⟩ ?_).2
  exact fun _ _ hi hs => ⟨hi.1.step hs, hi.2.step hi.1 hs⟩

theorem Reachable.anyContext {cond : Condition N E} {w : Replicas N E} (h : Reachable cond w) :
    Reachable AnyContext w := by
  refine h.invariant .refl fun w w' hw hs => hw.tail ?_
  cases hs with
  | add r value vv hvv => exact .add r value vv hvv trivial
  | remove r value vv hvv => exact .remove r value vv hvv trivial
  | read r value => exact .read r value
  | merge r x hx => exact .merge r x hx

theorem Reachable.guarded_of_ownContext {w : Replicas N E} (h : Reachable OwnContext w) :
    Reachable Guarded w := by
  refine (h.invariant (I := fun w => Consistent w ∧ Reachable Guarded w) ⟨.init, .refl⟩ ?_).2
  rintro w w' ⟨hc, hr⟩ hs
  refine ⟨hc.step hs, hr.tail ?_⟩
  have hguard : ∀ r value vv, OwnContext w r value vv → Guarded w r value vv :=
    fun _ _ _ hown => hc.sites.guarded_of_own hown
  cases hs with
  | add r value vv hvv hown => exact .add r value vv hvv (hguard r value vv hown)
  | remove r value vv hvv hown => exact .remove r value vv hvv (hguard r value vv hown)
  | read r value => exact .read r value
  | merge r x hx => exact .merge r x hx

end Replicas
end Commute.Crdt
