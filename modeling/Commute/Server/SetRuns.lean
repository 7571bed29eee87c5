import Commute.Server.Projection

/-!
# What the stores know of the elements of their sets

The markers of an element in the states, logs and messages of a cluster are the
same kind of data as those of a run of `ORSet` replicas, and the two invariants
of `Sites` carry over: `SetConsistent` as long as every context given to a write
was returned earlier, `SetCausality` as long as the writes are guarded as well.
-/
namespace Commute.Server

open Crdt Gossip

variable {A S : Type}

/-- The context is empty or was returned earlier by some store for the same key and
element. -/
def AnyContext [LinearOrder S] : SetCondition A S := fun net _ => (SetNet.sites net).Returned

/-- The context is empty or was returned earlier by the writing store itself. -/
def OwnContext [LinearOrder S] : SetCondition A S := fun net => (SetNet.sites net).OwnReturned

/-- The context was returned earlier, and if it raises the counter of an id that the
store has an entry for, it names no id that the store has no entry for. -/
def GuardedContext [LinearOrder S] (id : A → S) : SetCondition A S := fun net a e vv =>
  (SetNet.sites net).Returned e vv ∧ (SetNet.sites net).Guarded id a e vv

/-- Every element of a set stands in the relation `P` to the element's journal. -/
def Elements [LinearOrder S] (P : Journal S Bool → DVVSet S Bool → Prop) (g : SetHistory A S)
    (key : S) (set : ORSet S S) : Prop :=
  set.All fun value => P (g.journal (key, value))

variable [LinearOrder S]

theorem returned_of_own {net : SetNet A S} {a : A} {e : S × S} {vv : VV S}
    (h : OwnContext net a e vv) : net.sites.Returned e vv :=
  h.imp_right fun hc => ⟨a, hc⟩

theorem markers_eq (net : SetNet A S) (a : A) (key value nodeID : S) :
    net.markers a (key, value) = ((net.ledger a).valueOr (.new nodeID) key).element value := by
  unfold SetNet.markers Ledger.valueOr
  cases (net.ledger a).state.lookup key <;> rfl

theorem Elements.markers {P : Journal S Bool → DVVSet S Bool → Prop} (hnew : ∀ H, P H .new)
    {net : SetNet A S} (h : Network.Values (Elements P) net) (a : A) (e : S × S) :
    P (net.ghost.journal e) (net.markers a e) := by
  rw [markers_eq net a e.1 e.2 e.1]
  exact ((h.ledger a).valueOr (ORSet.All.new _ _)).element (hnew _)

theorem log_journal (g : SetHistory A S) (ev : Event S Bool) (e e' : S × S) :
    (g.log e ev).journal e' = if e' = e then ev :: g.journal e else g.journal e' :=
  Function.update_apply _ _ _ _

theorem sites_reads_read {net : SetNet A S} {a : A} {key : S} {set : ORSet S S}
    (h : (net.ledger a).state.lookup key = some set) : net.sites.Reads
      (SetNet.sites { net with ghost := net.ghost.read a key set.causalContexts }) := by
  intro e c hc
  change c ∈ (net.ghost.read a key set.causalContexts).contexts e at hc
  unfold SetHistory.read at hc
  dsimp only at hc
  split_ifs at hc with hkey
  · rcases List.mem_append.mp hc with hc | hc
    · right
      simp only [Option.mem_toList, Option.map_eq_some_iff, ORSet.causalContexts,
        FMap.lookup_mapVals] at hc
      obtain ⟨_, ⟨ds, hds, rfl⟩, rfl⟩ := hc
      intro i
      change _ = (net.markers a e).top i
      unfold SetNet.markers
      rw [hkey, h, DVVSet.join_get]
      exact congrArg (fun d : DVVSet S Bool => d.top i) (ORSet.element_of_some hds).symm
    · exact Or.inl hc
  · exact Or.inl hc

/-- The invariant of runs whose contexts were all returned earlier. -/
structure SetConsistent (id : A → S) (net : SetNet A S) : Prop where
  recorded : Network.Values (Elements Journal.Recorded) net
  sites : net.sites.Consistent id

/-- What holds in addition as long as every write is guarded. -/
structure SetCausality (net : SetNet A S) : Prop where
  traced : Network.Values (Elements Journal.Traced) net
  sites : net.sites.Causality

theorem SetConsistent.init (id : A → S) :
    SetConsistent id (Network.init SetHistory.empty : SetNet A S) where
  recorded := .init _ _
  sites := ⟨fun _ => .nil, fun _ _ => .new _, fun _ _ => rfl,
    fun _ _ hc => absurd hc List.not_mem_nil⟩

theorem SetCausality.init :
    SetCausality (Network.init SetHistory.empty : SetNet A S) where
  traced := .init _ _
  sites := ⟨fun _ _ => .new _, fun _ _ hc => absurd hc List.not_mem_nil⟩

variable [Inhabited S]

theorem closed_elements {P : Journal S Bool → DVVSet S Bool → Prop}
    (hsync : ∀ H a b, P H a → P H b → P H (a.sync b)) (g : SetHistory A S) :
    Closed (Elements P g) where
  merge ha hb := ORSet.All.merge (fun _ => hsync _) ha hb
  decoded ha := ha
  shared _ ha _ := ha

section Steps

variable [DecidableEq A] {id : A → S} {allowed : SetCondition A S} {net net' : SetNet A S}

theorem sites_grows_step (hs : Network.Step (setRules id allowed) net net') :
    net.sites.Grows net'.sites := by
  intro a e i
  change (net.markers a e).top i ≤ (net'.markers a e).top i
  unfold SetNet.markers
  cases hv : (net.ledger a).state.lookup e.1 with
  | none => simp
  | some set =>
    obtain ⟨set', hv', hle⟩ := (hs.evolves a).grows e.1 set hv
    rw [hv']
    exact ORSet.top_element_le hle e.2 i

theorem sites_reads_step (hs : Network.Step (setRules id allowed) net net') :
    net.sites.Reads net'.sites := by
  cases hs with
  | write a k f g hw =>
    obtain ⟨value, vv, marker, -, -, rfl⟩ := hw
    exact fun _ _ hc => Or.inl hc
  | note g hn =>
    obtain ⟨a, key, set, hset, rfl⟩ := hn
    exact sites_reads_read hset
  | _ => exact fun _ _ hc => Or.inl hc

theorem element_delta (hr : Network.Reachable (setRules id allowed) SetHistory.empty net)
    (a : A) (key value : S) (vv : VV S) (marker : Bool) :
    ((((net.ledger a).valueOr (.new (id a)) key).element value).update
      ((net.ledger a).valueOr (.new (id a)) key).nodeID vv marker) =
      (net.sites.event id a (key, value) vv marker).result := by
  have hnode : ((net.ledger a).valueOr (.new (id a)) key).nodeID = id a :=
    hr.owned ORSet.nodeID (fun _ _ => rfl) a key
  rw [hnode, ← markers_eq]
  rfl

theorem dot_le_write (hr : Network.Reachable (setRules id allowed) SetHistory.empty net)
    (a : A) (key value : S) (vv : VV S) (marker : Bool) (g : SetHistory A S) :
    (net.markers a (key, value)).top (id a) + 1 ≤
      (SetNet.markers { net.put a ((net.ledger a).write (ORSet.new (id a)) key
        (ORSet.mark marker value vv)) with ghost := g } a (key, value)).top (id a) := by
  obtain ⟨set, hset, hle⟩ : ((net.ledger a).write (ORSet.new (id a)) key
      (ORSet.mark marker value vv)).Holds key (ORSet.mark marker value vv
        ((net.ledger a).valueOr (.new (id a)) key)) := Ledger.join_holds _ _ _ _
  have hmarkers : SetNet.markers { net.put a ((net.ledger a).write (ORSet.new (id a)) key
      (ORSet.mark marker value vv)) with ghost := g } a (key, value) = set.element value := by
    unfold SetNet.markers
    rw [Network.put_ledger, if_pos rfl, hset]
  rw [hmarkers]
  refine le_trans (Event.top_result (net.sites.event id a (key, value) vv marker)).ge ?_
  rw [← element_delta hr a key value vv marker]
  refine le_of_eq_of_le ?_ (ORSet.top_element_le hle value (id a))
  rw [ORSet.element_mark]
  rfl

/-- What a step does to the journals: nothing, or one allowed write that its store
then knows. -/
theorem sites_step (hr : Network.Reachable (setRules id allowed) SetHistory.empty net)
    (hs : Network.Step (setRules id allowed) net net') :
    net'.sites.journal = net.sites.journal ∨
      ∃ a e vv marker, allowed net a e vv ∧
        net.sites.Logs net'.sites e (net.sites.event id a e vv marker) ∧
        (net.sites.element a e).top (id a) + 1 ≤ (net'.sites.element a e).top (id a) := by
  cases hs with
  | write a key f g hw =>
    obtain ⟨value, vv, marker, hvv, rfl, rfl⟩ := hw
    refine Or.inr ⟨a, (key, value), vv, marker, hvv, ⟨?_, fun e he => ?_⟩, ?_⟩
    · exact (log_journal _ _ _ _).trans (if_pos rfl)
    · exact (log_journal _ _ _ _).trans (if_neg he)
    · exact dot_le_write hr a key value vv marker _
  | note g hn =>
    obtain ⟨a, key, set, -, rfl⟩ := hn
    exact Or.inl rfl
  | _ => exact Or.inl rfl

/-- A property of markers that merging keeps survives every step in which it survives
the new event and the event's result has it. -/
theorem elements_step {P : Journal S Bool → DVVSet S Bool → Prop}
    (hsync : ∀ H a b, P H a → P H b → P H (a.sync b))
    (hr : Network.Reachable (setRules id allowed) SetHistory.empty net)
    (h : Network.Values (Elements P) net)
    (hcons : ∀ a e vv marker, allowed net a e vv → ∀ ds, P (net.sites.journal e) ds →
      P (net.sites.event id a e vv marker :: net.sites.journal e) ds)
    (hresult : ∀ a e vv marker, allowed net a e vv →
      P (net.sites.event id a e vv marker :: net.sites.journal e)
        (net.sites.event id a e vv marker).result)
    (hs : Network.Step (setRules id allowed) net net') : Network.Values (Elements P) net' := by
  refine h.step (R := setRules id allowed) (closed_elements hsync)
    (fun _ _ _ => ORSet.All.new _ _) ?_ ?_ hs
  · intro key set hset
    rcases sites_step hr hs with hj | ⟨a, e, vv, marker, hvv, hlog, -⟩
    · have : net'.ghost.journal = net.ghost.journal := hj
      exact fun value ds hds => this ▸ hset value ds hds
    · exact fun value ds hds => hlog.mono (hcons a e vv marker hvv) (hset value ds hds)
  · intro a key f g hw
    obtain ⟨value, vv, marker, hvv, rfl, rfl⟩ := hw
    refine ORSet.All.mark ?_
    rw [log_journal, if_pos rfl]
    exact (element_delta hr a key value vv marker).symm ▸ hresult a (key, value) vv marker hvv

theorem SetConsistent.step (hid : Function.Injective id)
    (hreturned : ∀ net a e vv, allowed net a e vv → (SetNet.sites net).Returned e vv)
    (h : SetConsistent id net)
    (hr : Network.Reachable (setRules id allowed) SetHistory.empty net)
    (hs : Network.Step (setRules id allowed) net net') : SetConsistent id net' := by
  have hrec := elements_step (fun _ _ _ => Journal.Recorded.sync) hr h.recorded
    (fun _ _ _ _ _ _ hds => hds.cons _)
    (fun a e vv marker hvv => h.sites.result (hreturned net a e vv hvv) marker) hs
  have helement : ∀ a e, (net'.sites.journal e).Recorded (net'.sites.element a e) :=
    Elements.markers (fun _ => .new _) hrec
  refine ⟨hrec, ?_⟩
  rcases sites_step hr hs with hj | ⟨a, e, vv, marker, hvv, hlog, hdot⟩
  · exact h.sites.quiet (sites_grows_step hs) (sites_reads_step hs) hj
      fun a e => hj ▸ helement a e
  · exact h.sites.write hid (hreturned net a e vv hvv) hlog (sites_grows_step hs)
      (sites_reads_step hs) helement hdot

theorem setConsistent_of_reachable (hid : Function.Injective id)
    (hreturned : ∀ net a e vv, allowed net a e vv → (SetNet.sites net).Returned e vv)
    (h : Network.Reachable (setRules id allowed) SetHistory.empty net) :
    SetConsistent id net :=
  h.invariant (.init id) fun _ _ hr ih hs => ih.step hid hreturned hr hs

theorem SetCausality.step (hc : SetConsistent id net)
    (hreturned : ∀ a e vv, allowed net a e vv → net.sites.Returned e vv)
    (hguarded : ∀ a e vv, allowed net a e vv → net.sites.Guarded id a e vv)
    (h : SetCausality net)
    (hr : Network.Reachable (setRules id allowed) SetHistory.empty net)
    (hs : Network.Step (setRules id allowed) net net') : SetCausality net' := by
  have htraced := elements_step (fun _ _ _ => Journal.Traced.sync) hr h.traced
    (fun a e _ _ _ _ hds => hds.cons (hc.sites.count a e))
    (fun a e vv marker hvv => h.sites.result hc.sites (hreturned a e vv hvv)
      (hguarded a e vv hvv) marker) hs
  have helement : ∀ a e, (net'.sites.journal e).Traced (net'.sites.element a e) :=
    Elements.markers (fun _ => .new _) htraced
  refine ⟨htraced, ?_⟩
  rcases sites_step hr hs with hj | ⟨a, e, vv, marker, hvv, hlog, hdot⟩
  · exact h.sites.quiet (sites_reads_step hs) hj fun a e => hj ▸ helement a e
  · exact h.sites.write hc.sites hlog (sites_reads_step hs) helement

/-- Every context condition that guarantees guarded writes makes sets causal. -/
theorem setCausality_of_reachable (hid : Function.Injective id)
    (hreturned : ∀ net a e vv, allowed net a e vv → (SetNet.sites net).Returned e vv)
    (hguarded : ∀ net a e vv, (SetNet.sites net).Consistent id → allowed net a e vv →
      (SetNet.sites net).Guarded id a e vv)
    (h : Network.Reachable (setRules id allowed) SetHistory.empty net) :
    SetCausality net := by
  refine h.invariant .init fun net net' hr ih hs => ?_
  have hc := setConsistent_of_reachable hid hreturned hr
  exact ih.step hc (hreturned net) (fun a e vv => hguarded net a e vv hc.sites) hr hs

end Steps

/-- A store's own contexts never raise a counter, so runs with such contexts only are
guarded. -/
theorem Cluster.Reachable.guarded_of_own [DecidableEq A] {T R : Type} [Instant T] [Inhabited R]
    {id : A → S} (hid : Function.Injective id) {w : Cluster A S T R}
    (h : Reachable id OwnContext w) : Reachable id (GuardedContext id) w := by
  induction h with
  | refl => exact .refl
  | tail hr hs ih =>
    have hc := setConsistent_of_reachable hid (fun _ _ _ _ => returned_of_own)
      (Reachable.sets hr)
    exact ih.tail (hs.imp fun a e vv hvv => ⟨returned_of_own hvv, hc.sites.guarded_of_own hvv⟩)

end Commute.Server
