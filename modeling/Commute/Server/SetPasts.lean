import Commute.Gossip.Causal
import Commute.Server.SetConvergence

/-!
# A set holds what was added and not observed to be written again

A store that has heard of a write of an element knows the dot of the write, and it knows
no other dots as long as every write is made with a context of its own store. An element
is then in the set of a store exactly if the store has heard of an add whose dot no write
it has heard of had in its context: removes take effect where they are heard of and on the
adds they observed only, and concurrent adds win.
-/
namespace Commute.Server

open Crdt Gossip

section Grounded

variable {N T : Type} [DecidableEq N]

/-- What a store knows of an element rests on the events numbered `s`: it knows only their
dots, and dots die only through the context of one of them. -/
structure Grounded (H : Journal N T) (s : Finset ℕ) (ds : DVVSet N T) : Prop where
  recorded : H.Recorded ds
  heard : ∀ ev ∈ H, ev.dot ≤ ds.top ev.node → ev ∈ known s H
  covered : ∀ i, ds.low i = 0 ∨
    ∃ ev ∈ H, ev.dot ≤ ds.top ev.node ∧ ds.low i ≤ ev.context.get i

variable {H : Journal N T} {s s' : Finset ℕ} {ds ds' : DVVSet N T} {ev : Event N T}

theorem Grounded.new (H : Journal N T) (s : Finset ℕ) : Grounded H s DVVSet.new := by
  refine ⟨.new H, ?_, by simp⟩
  intro ev _ hdot
  simp [Event.dot] at hdot

theorem Grounded.mono (h : Grounded H s ds) (hs : s ⊆ s') : Grounded H s' ds :=
  { h with heard := fun ev hm hdot => (known_mono hs H).mem (h.heard ev hm hdot) }

theorem Grounded.sync (h : Grounded H s ds) (h' : Grounded H s ds') :
    Grounded H s (ds.sync ds') where
  recorded := h.recorded.sync h'.recorded
  heard ev hm hdot := by
    rw [DVVSet.top_sync, le_max_iff] at hdot
    exact hdot.elim (h.heard ev hm) (h'.heard ev hm)
  covered i := by
    rw [DVVSet.low_sync h.recorded.wellFormed h'.recorded.wellFormed]
    rcases max_choice (ds.low i) (ds'.low i) with hmax | hmax <;> rw [hmax]
    · refine (h.covered i).imp_right fun ⟨ev, hm, hdot, hle⟩ => ⟨ev, hm, ?_, hle⟩
      exact hdot.trans ((le_max_left _ _).trans_eq (DVVSet.top_sync ds ds' _).symm)
    · refine (h'.covered i).imp_right fun ⟨ev, hm, hdot, hle⟩ => ⟨ev, hm, ?_, hle⟩
      exact hdot.trans ((le_max_right _ _).trans_eq (DVVSet.top_sync ds ds' _).symm)

theorem Grounded.cons (h : Grounded H s ds)
    (hown : ev.before.top ev.node = Journal.count H ev.node) : Grounded (ev :: H) s ds where
  recorded := h.recorded.cons ev
  heard ev' hm hdot := by
    rcases List.mem_cons.mp hm with rfl | hm
    · have := h.recorded.top_le ev'.node
      rw [Event.dot, hown] at hdot
      omega
    · exact (known_sublist_cons s ev H).mem (h.heard ev' hm hdot)
  covered i := (h.covered i).imp_right fun ⟨ev', hm, hle⟩ => ⟨ev', List.mem_cons_of_mem _ hm, hle⟩

theorem Grounded.result (hH : Journal.Chronicle H) (h : Grounded H s ev.before)
    (hown : ev.before.top ev.node = Journal.count H ev.node)
    (hvv : ∀ i, ev.context.get i ≤ ev.before.top i) :
    Grounded (ev :: H) (insert H.length s) ev.result := by
  have hbelow : ev.before.Below ev.result := DVVSet.below_update h.recorded.wellFormed _ _ _
  have hcovered := (h.cons hown).covered
  -- what the state before the write accounts for is still accounted for
  have hkept : ∀ i, ev.before.low i = 0 ∨ ∃ ev' ∈ ev :: H,
      ev'.dot ≤ ev.result.top ev'.node ∧ ev.before.low i ≤ ev'.context.get i := by
    intro i
    exact (hcovered i).imp_right fun ⟨ev', hm, hdot, hle⟩ =>
      ⟨ev', hm, hdot.trans (hbelow _).1, hle⟩
  refine ⟨h.recorded.result hown fun i => (hvv i).trans (h.recorded.top_le i), ?_, fun i => ?_⟩
  · intro ev' hm hdot
    rw [known_insert_length]
    rcases List.mem_cons.mp hm with rfl | hm
    · exact List.mem_cons_self
    refine List.mem_cons_of_mem _ ((h.mono (Finset.subset_insert _ _)).heard ev' hm ?_)
    by_cases hnode : ev'.node = ev.node
    · rw [hnode, hown, ← hnode]
      exact hH.dot_le ev' hm
    · rw [Event.result, DVVSet.top_update_of_ne _ _ _ hnode] at hdot
      split_ifs at hdot with hs
      · exact hdot.trans (max_le le_rfl (hvv _))
      · simp [Event.dot] at hdot
  · have hself : ∃ ev' ∈ ev :: H, ev'.dot ≤ ev.result.top ev'.node ∧
        ev.context.get i ≤ ev'.context.get i :=
      ⟨ev, List.mem_cons_self, ev.top_result.ge, le_rfl⟩
    by_cases hi : i = ev.node
    · subst hi
      rw [Event.result, DVVSet.low_update_self _ _ _ h.recorded.wellFormed]
      rcases max_choice (ev.before.low ev.node)
        (min (ev.context.get ev.node) (ev.before.top ev.node)) with hmax | hmax <;> rw [hmax]
      · exact hkept _
      · obtain ⟨ev', hm, hdot, hle⟩ := hself
        exact Or.inr ⟨ev', hm, hdot, (min_le_left _ _).trans hle⟩
    · rw [Event.result, DVVSet.low_update_of_ne _ _ h.recorded.wellFormed hi]
      split_ifs
      · rcases max_choice (ev.before.low i) (ev.context.get i) with hmax | hmax <;> rw [hmax]
        · exact hkept i
        · exact Or.inr hself
      · exact Or.inl rfl

/-- The dot of a known event is live exactly if no known event had it in its context. -/
theorem Grounded.low_lt_iff (hH : Journal.Chronicle H) (h : Grounded H s ds)
    (hcausal : H.Causal ds)
    (hown : ∀ ev ∈ H, ∀ i, ev.context.get i ≤ ev.before.top i)
    (hknown : ∀ ev ∈ known s H, ev.dot ≤ ds.top ev.node) (ev : Event N T) :
    ds.low ev.node < ev.dot ↔ ∀ ev' ∈ known s H, ev'.context.get ev.node < ev.dot := by
  have hpos : 0 < ev.dot := Nat.succ_pos _
  constructor
  · intro hlow ev' hm
    by_contra hle
    have hev' := (known_sublist s H).mem hm
    -- the writer had an entry for the node, so its result has the dot dead
    have hentry : (ev'.before.state.lookup ev.node).isSome := by
      by_contra hnone
      rw [Option.not_isSome_iff_eq_none] at hnone
      have := hown ev' hev' ev.node
      rw [DVVSet.top_of_none hnone] at this
      omega
    have hdead := hH.context_le_low hev' hentry
    have hbelow := (hcausal.sound ev' hev' (hknown ev' hm) ev.node).2
    omega
  · intro hcover
    rcases h.covered ev.node with h0 | ⟨ev', hm, hdot, hle⟩
    · omega
    · exact hle.trans_lt (hcover ev' (h.heard ev' hm hdot))

end Grounded

variable {A S : Type} [LinearOrder S]

def numbersOf (s : Finset ((S × S) × ℕ)) (e : S × S) : Finset ℕ :=
  (s.filter fun x => x.1 = e).image Prod.snd

def SetHistory.heard (h : SetHistory A S) (s : Finset ((S × S) × ℕ)) (e : S × S) :
    Journal S Bool :=
  known (numbersOf s e) (h.journal e)

theorem mem_numbersOf {s : Finset ((S × S) × ℕ)} {e : S × S} {n : ℕ} :
    n ∈ numbersOf s e ↔ (e, n) ∈ s := by
  simp [numbersOf]

theorem numbersOf_insert_self (s : Finset ((S × S) × ℕ)) (e : S × S) (n : ℕ) :
    numbersOf (insert (e, n) s) e = insert n (numbersOf s e) := by
  ext m
  simp [mem_numbersOf]

theorem numbersOf_mono {s s' : Finset ((S × S) × ℕ)} (h : s ⊆ s') (e : S × S) :
    numbersOf s e ⊆ numbersOf s' e := fun _ hn => mem_numbersOf.mpr (h (mem_numbersOf.mp hn))

variable [Inhabited S]

/-- The writes of set elements, each numbered in the journal of its element. -/
def observedRules (id : A → S) (allowed : SetCondition A S) :
    CausalRules A S (ORSet S S) (SetHistory A S) ((S × S) × ℕ) where
  toRules := setRules id allowed
  names g x := x.2 < (g.journal x.1).length
  event (net : SetNet A S) a key f g x := ∃ value vv marker, allowed net a (key, value) vv ∧
    f = ORSet.mark marker value vv ∧
      g = net.ghost.log (key, value) (net.sites.event id a (key, value) vv marker) ∧
      x = ((key, value), (net.ghost.journal (key, value)).length)
  event_write := by
    rintro net a key f g x ⟨value, vv, marker, hvv, hf, hg, -⟩
    exact ⟨value, vv, marker, hvv, hf, hg⟩
  event_fresh := by
    rintro net a key f g x ⟨value, vv, marker, -, -, -, rfl⟩
    exact lt_irrefl _
  event_names := by
    rintro net a key f g x ⟨value, vv, marker, -, -, rfl, rfl⟩
    refine ⟨?_, fun y hy => ?_⟩
    · rw [log_journal, if_pos rfl]
      exact Nat.lt_succ_self _
    · rw [log_journal]
      split_ifs with he
      · rw [he] at hy
        exact Nat.lt_succ_of_lt hy
      · exact hy
  note_names := by
    rintro net g ⟨a, key, set, -, rfl⟩ x hx
    exact hx

abbrev ObservedNet (A S : Type) := CausalNetwork A S (ORSet S S) (SetHistory A S) ((S × S) × ℕ)

/-- Every element of a set is grounded in the events heard of. -/
def GroundedSet (g : SetHistory A S) (s : Finset ((S × S) × ℕ)) (key : S)
    (set : ORSet S S) : Prop :=
  set.All fun value => Grounded (g.journal (key, value)) (numbersOf s (key, value))

theorem closed_groundedSet (g : SetHistory A S) (s : Finset ((S × S) × ℕ)) :
    Closed (GroundedSet g s) where
  merge ha hb := ORSet.All.merge (fun _ _ _ => Grounded.sync) ha hb
  decoded ha := ha
  shared _ ha _ := ha

/-- The delta of a write has the dot of its event. -/
def Dots (e : S × S) (d : S × ORSet S S) (ev : Event S Bool) (_ : Journal S Bool) : Prop :=
  d.1 = e.1 ∧ ev.dot ≤ (d.2.element e.2).top ev.node

def logOf (e : S × S) (log : List (((S × S) × ℕ) × S × ORSet S S)) :
    List (ℕ × S × ORSet S S) :=
  log.filterMap fun x => if x.1.1 = e then some (x.1.2, x.2) else none

omit [Inhabited S] in
theorem mem_logOf {e : S × S} {log : List (((S × S) × ℕ) × S × ORSet S S)} {n : ℕ}
    {d : S × ORSet S S} : (n, d) ∈ logOf e log ↔ ((e, n), d) ∈ log := by
  simp only [logOf, List.mem_filterMap, Option.ite_none_right_eq_some, Option.some.injEq]
  constructor
  · rintro ⟨⟨⟨e', m⟩, d'⟩, hx, rfl, heq⟩
    cases heq
    exact hx
  · exact fun hx => ⟨_, hx, rfl, rfl⟩

variable [DecidableEq A] {id : A → S} {c c' : ObservedNet A S}

/-- The writes of a run whose contexts come from the writing store itself. -/
abbrev OwnRules (id : A → S) := observedRules id (OwnContext : SetCondition A S)

theorem consistent_of_own (hid : Function.Injective id)
    (h : CausalNetwork.Reachable (OwnRules id) .empty c) : SetConsistent id c.net :=
  setConsistent_of_reachable hid (fun _ _ _ _ => returned_of_own) h.network.1

theorem causality_of_own (hid : Function.Injective id)
    (h : CausalNetwork.Reachable (OwnRules id) .empty c) : SetCausality c.net :=
  setCausality_of_reachable hid (fun _ _ _ _ => returned_of_own)
    (fun _ _ _ _ hc => hc.guarded_of_own) h.network.1

omit [Inhabited S] [DecidableEq A] in
theorem context_le_of_own {net : SetNet A S} (h : SetConsistent id net) {a : A} {e : S × S}
    {vv : VV S} (hvv : OwnContext net a e vv) (i : S) : vv.get i ≤ (net.markers a e).top i := by
  rcases hvv with rfl | hvv
  · simp
  · exact h.sites.contexts e (a, vv) hvv i

theorem groundedSet_step (hid : Function.Injective id)
    (hr : CausalNetwork.Reachable (OwnRules id) .empty c)
    (h : CausalNetwork.Known GroundedSet c) (hs : CausalNetwork.Step (OwnRules id) c c') :
    CausalNetwork.Known GroundedSet c' := by
  have hc := consistent_of_own hid hr
  have hfresh : ∀ g s a key, GroundedSet (A := A) g s key ((OwnRules id).fresh a) :=
    fun _ _ _ _ => ORSet.All.new _ _
  refine h.step closed_groundedSet hfresh ?_ ?_ ?_ hs
  · intro g s s' key set hsub hset value ds hds
    exact (hset value ds hds).mono (numbersOf_mono hsub _)
  · intro s key set hset value ds hds
    cases hs with
    | write a k f g x hevent =>
      obtain ⟨v, vv, marker, -, -, rfl, -⟩ := hevent
      dsimp only
      rw [log_journal]
      split_ifs with he
      · obtain ⟨rfl, rfl⟩ := Prod.mk.inj he
        exact (hset value ds hds).cons (hc.sites.count a (key, value))
      · exact hset value ds hds
    | note g hn =>
      obtain ⟨a, k, set', -, rfl⟩ := hn
      exact hset value ds hds
    | _ => exact hset value ds hds
  · rintro a key f g x ⟨value, vv, marker, hvv, rfl, rfl, rfl⟩
    refine ORSet.All.mark ?_
    have hbefore : Grounded (c.net.ghost.journal (key, value))
        (numbersOf (c.past a) (key, value)) (SetNet.markers c.net a (key, value)) := by
      rw [markers_eq c.net a key value (id a)]
      exact ORSet.All.element ((h.ledger a).valueOr (ORSet.All.new _ _)) (.new _ _)
    rw [log_journal, if_pos rfl, numbersOf_insert_self]
    have hresult : Grounded
        ((SetNet.sites c.net).event id a (key, value) vv marker :: c.net.ghost.journal (key, value))
        (insert (c.net.ghost.journal (key, value)).length (numbersOf (c.past a) (key, value)))
        ((SetNet.sites c.net).event id a (key, value) vv marker).result :=
      .result (hc.sites.chronicle (key, value)) hbefore (hc.sites.count a (key, value))
        (context_le_of_own hc hvv)
    exact (element_delta hr.network.1 a key value vv marker).symm ▸ hresult

theorem groundedSet_of_reachable (hid : Function.Injective id)
    (h : CausalNetwork.Reachable (OwnRules id) .empty c) : CausalNetwork.Known GroundedSet c :=
  h.invariant (.init _ _) fun _ _ hr hi hs => groundedSet_step hid hr hi hs

/-- The log has the delta of every event, and no context is ahead of its writer. -/
structure Journaled (c : ObservedNet A S) : Prop where
  dots : ∀ e, Numbered (Dots e) (logOf e c.log) (c.net.ghost.journal e)
  own : ∀ e, ∀ ev ∈ c.net.ghost.journal e, ∀ i, ev.context.get i ≤ ev.before.top i

theorem Journaled.step (hid : Function.Injective id)
    (hr : CausalNetwork.Reachable (OwnRules id) .empty c) (h : Journaled c)
    (hs : CausalNetwork.Step (OwnRules id) c c') : Journaled c' := by
  cases hs with
  | write a key f g x hevent =>
    obtain ⟨value, vv, marker, hvv, rfl, rfl, rfl⟩ := hevent
    refine ⟨fun e => ?_, fun e => ?_⟩
    · dsimp only
      rw [log_journal]
      split_ifs with he
      · subst he
        have hlog : ∀ d, logOf (key, value) ((((key, value),
            (c.net.ghost.journal (key, value)).length), d) :: c.log) =
              ((c.net.ghost.journal (key, value)).length, d) :: logOf (key, value) c.log := by
          intro d
          simp [logOf]
        rw [hlog]
        refine ⟨rfl, ⟨rfl, ?_⟩, h.dots (key, value)⟩
        have hdelta := element_delta hr.network.1 a key value vv marker
        rw [ORSet.element_mark]
        exact le_of_eq_of_le (Event.top_result _).symm
          (congrArg (fun ds : DVVSet S Bool => ds.top (id a)) hdelta).ge
      · have hlog : ∀ n d, logOf e ((((key, value), n), d) :: c.log) = logOf e c.log := by
          intro n d
          simp [logOf, Ne.symm he]
        rw [hlog]
        exact h.dots e
    · dsimp only
      rw [log_journal]
      split_ifs with he
      · subst he
        exact List.forall_mem_cons.mpr
          ⟨context_le_of_own (consistent_of_own hid hr) hvv, h.own (key, value)⟩
      · exact h.own e
  | note g hn =>
    obtain ⟨a, k, set, -, rfl⟩ := hn
    exact ⟨h.dots, h.own⟩
  | _ => exact ⟨h.dots, h.own⟩

theorem journaled_of_reachable (hid : Function.Injective id)
    (h : CausalNetwork.Reachable (OwnRules id) .empty c) : Journaled c :=
  h.invariant (I := Journaled) ⟨fun _ => trivial, fun _ _ hm => absurd hm List.not_mem_nil⟩
    fun _ _ hr hi hs => hi.step hid hr hs

theorem dot_le_of_heard (hid : Function.Injective id)
    (h : CausalNetwork.Reachable (OwnRules id) .empty c) {a : A} {e : S × S}
    {ev : Event S Bool} (hev : ev ∈ c.net.ghost.heard (c.past a) e) :
    ev.dot ≤ (SetNet.markers c.net a e).top ev.node := by
  obtain ⟨⟨n, d⟩, hx, hn, -, hkey, hdot⟩ :=
    (((journaled_of_reachable hid h).dots e).mem_known _).1 ev hev
  obtain ⟨set, hset, hle⟩ := (h.heard (fresh_set_le id OwnContext)).past a _ (mem_logOf.mp hx)
    (mem_numbersOf.mp hn)
  have hmarkers : SetNet.markers c.net a e = set.element e.2 := by
    unfold SetNet.markers
    rw [← hkey, hset]
  rw [hmarkers]
  exact hdot.trans (ORSet.top_element_le hle e.2 ev.node)

omit [Inhabited S] [DecidableEq A] in
theorem mem_values_iff_sibling {net : SetNet A S} {a : A} {key value : S}
    (hwf : (net.markers a (key, value)).WellFormed) :
    (∃ set, (net.ledger a).state.lookup key = some set ∧ value ∈ set.values) ↔
      ∃ i n, (net.markers a (key, value)).sibling i n = some true := by
  have hnew : ∀ i n, (DVVSet.new : DVVSet S Bool).sibling i n = none := by
    simp [DVVSet.sibling, DVVSet.new]
  cases hset : (net.ledger a).state.lookup key with
  | none => simp [SetNet.markers, hset, hnew]
  | some set =>
    have hmarkers : net.markers a (key, value) = set.element value := by
      simp [SetNet.markers, hset]
    rw [hmarkers] at hwf ⊢
    simp only [Option.some.injEq, exists_eq_left']
    rw [ORSet.mem_values]
    cases hds : set.state.lookup value with
    | none => simp [ORSet.contains, ORSet.element, hds, hnew]
    | some ds =>
      rw [ORSet.element_of_some hds] at hwf ⊢
      exact ORSet.contains_of_some hds hwf

/-- An element is in the set of a store exactly if the store has heard of an add that no
write it has heard of observed. -/
theorem mem_values_iff_heard (hid : Function.Injective id)
    (h : CausalNetwork.Reachable (OwnRules id) .empty c) (a : A) (key value : S) :
    (∃ set, (c.net.ledger a).state.lookup key = some set ∧ value ∈ set.values) ↔
      ∃ ev ∈ c.net.ghost.heard (c.past a) (key, value), ev.value = true ∧
        ∀ ev' ∈ c.net.ghost.heard (c.past a) (key, value),
          ev'.context.get ev.node < ev.dot := by
  have hH := (consistent_of_own hid h).sites.chronicle (key, value)
  have hground : Grounded (c.net.ghost.journal (key, value))
      (numbersOf (c.past a) (key, value)) (SetNet.markers c.net a (key, value)) := by
    rw [markers_eq c.net a key value (id a)]
    exact ORSet.All.element (((groundedSet_of_reachable hid h).ledger a).valueOr
      (ORSet.All.new _ _)) (.new _ _)
  have hlive := hground.low_lt_iff hH
    ((causality_of_own hid h).sites.traced a (key, value)).causal
    ((journaled_of_reachable hid h).own (key, value)) fun _ hm => dot_le_of_heard hid h hm
  rw [mem_values_iff_sibling hground.recorded.wellFormed]
  constructor
  · rintro ⟨i, n, hs⟩
    obtain ⟨ev, hm, rfl, rfl, hadd⟩ := hground.recorded.genuine i n true hs
    obtain ⟨hlow, htop⟩ := (hground.recorded.wellFormed.sibling_isSome _ _).mp
      (Option.isSome_of_eq_some hs)
    exact ⟨ev, hground.heard ev hm htop, hadd, (hlive ev).mp hlow⟩
  · rintro ⟨ev, hm, hadd, hcover⟩
    refine ⟨ev.node, ev.dot, ?_⟩
    rw [← hadd]
    exact hground.recorded.sibling_eq hH ((known_sublist _ _).mem hm) ((hlive ev).mpr hcover)
      (dot_le_of_heard hid h hm)

end Commute.Server
