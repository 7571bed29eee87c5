import Commute.Crdt.DVVSet

/-!
# Writes of one element and the histories they leave

A journal lists every `Update` executed on one element, at whatever replica,
newest first. Two kinds of facts tie a `DVVSet` that occurs in a run to the
journal. `Recorded` says that its siblings come from events and that dots only
die because some context covered them. `Causal` says that a set which knows the
dot of an event also knows everything the event's result knew.

`Causal` is what makes the order on counters sound (`Causal.low_le`). A write
keeps it unless its context raises a counter that the replica has while naming
an id the replica has no entry for.
-/
namespace Commute.Crdt

variable {N T : Type} [DecidableEq N]

/-- One execution of `Update`. -/
structure Event (N T : Type) where
  node : N
  context : VV N
  value : T
  before : DVVSet N T

namespace Event

def result (ev : Event N T) : DVVSet N T := ev.before.update ev.node ev.context ev.value

def dot (ev : Event N T) : ℕ := ev.before.top ev.node + 1

theorem top_result (ev : Event N T) : ev.result.top ev.node = ev.dot :=
  DVVSet.top_update_self _ _ _ _

end Event

namespace DVVSet

/-- Every dot that `ds` knows is known to `other`, and every dot that is known
and not live in `ds` is not live in `other`. -/
def Below (ds other : DVVSet N T) : Prop :=
  ∀ i, ds.top i ≤ other.top i ∧ ds.low i ≤ other.low i

theorem Below.refl (ds : DVVSet N T) : ds.Below ds := fun _ => ⟨le_rfl, le_rfl⟩

theorem Below.trans {a b c : DVVSet N T} (hab : a.Below b) (hbc : b.Below c) : a.Below c :=
  fun i => ⟨(hab i).1.trans (hbc i).1, (hab i).2.trans (hbc i).2⟩

theorem below_sync_left {a b : DVVSet N T} (ha : a.WellFormed) (hb : b.WellFormed) :
    a.Below (a.sync b) := fun i =>
  ⟨(le_max_left _ _).trans_eq (top_sync a b i).symm,
    (le_max_left _ _).trans_eq (low_sync ha hb i).symm⟩

theorem below_sync_right {a b : DVVSet N T} (ha : a.WellFormed) (hb : b.WellFormed) :
    b.Below (a.sync b) := fun i =>
  ⟨(le_max_right _ _).trans_eq (top_sync a b i).symm,
    (le_max_right _ _).trans_eq (low_sync ha hb i).symm⟩

theorem below_update {ds : DVVSet N T} (h : ds.WellFormed) (r : N) (vv : VV N) (value : T) :
    ds.Below (ds.update r vv value) := by
  intro i
  by_cases hi : i = r
  · subst hi
    rw [top_update_self, low_update_self i vv value h]
    exact ⟨Nat.le_succ _, le_max_left _ _⟩
  · rw [top_update_of_ne vv value ds hi, low_update_of_ne vv value h hi]
    split_ifs with hs
    · exact ⟨le_max_left _ _, le_max_left _ _⟩
    · rw [Option.not_isSome_iff_eq_none] at hs
      simp [top_of_none hs, low_of_none hs]

/-- The context is ahead of the replica for an id the replica has an entry for. -/
def Raises (ds : DVVSet N T) (r : N) (vv : VV N) : Prop :=
  ∃ i, i ≠ r ∧ (ds.state.lookup i).isSome ∧ ds.top i < vv.get i

/-- The replica has an entry for every id the context names. -/
def Absorbs (ds : DVVSet N T) (vv : VV N) : Prop :=
  ∀ i, 0 < vv.get i → (ds.state.lookup i).isSome

end DVVSet

abbrev Journal (N T : Type) := List (Event N T)

namespace Journal

open DVVSet

def count (H : Journal N T) (i : N) : ℕ := H.countP fun ev => ev.node = i

theorem count_cons_self (ev : Event N T) (H : Journal N T) :
    count (ev :: H) ev.node = count H ev.node + 1 := by
  simp [count]

theorem count_le_cons (ev : Event N T) (H : Journal N T) (i : N) :
    count H i ≤ count (ev :: H) i := by
  unfold count
  rw [List.countP_cons]
  exact Nat.le_add_right _ _

/-- A dot belongs to one event only, and a context is never ahead of the writer
about the writer itself. -/
structure Chronicle (H : Journal N T) : Prop where
  wellFormed : ∀ ev ∈ H, ev.before.WellFormed
  dot_le : ∀ ev ∈ H, ev.dot ≤ count H ev.node
  context_le : ∀ ev ∈ H, ev.context.get ev.node ≤ ev.before.top ev.node
  unique : ∀ ev ∈ H, ∀ ev' ∈ H, ev.node = ev'.node → ev.dot = ev'.dot → ev = ev'

theorem Chronicle.nil : Chronicle ([] : Journal N T) := ⟨by simp, by simp, by simp, by simp⟩

theorem Chronicle.cons {H : Journal N T} (h : Chronicle H) {ev : Event N T}
    (hwf : ev.before.WellFormed) (hown : ev.before.top ev.node = count H ev.node)
    (hvv : ev.context.get ev.node ≤ count H ev.node) : Chronicle (ev :: H) := by
  have hdot : ev.dot = count H ev.node + 1 := by rw [Event.dot, hown]
  have hold : ∀ ev' ∈ H, ev.node = ev'.node → ev.dot ≠ ev'.dot := by
    intro ev' hm hn heq
    have := h.dot_le ev' hm
    rw [← hn] at this
    omega
  refine ⟨?_, ?_, ?_, ?_⟩
  · exact List.forall_mem_cons.mpr ⟨hwf, h.wellFormed⟩
  · intro ev' hm
    rcases List.mem_cons.mp hm with rfl | hm
    · rw [hdot, count_cons_self]
    · exact (h.dot_le ev' hm).trans (count_le_cons ev H _)
  · intro ev' hm
    rcases List.mem_cons.mp hm with rfl | hm
    · exact hvv.trans_eq hown.symm
    · exact h.context_le ev' hm
  · intro ev₁ h₁ ev₂ h₂ hn hd
    rcases List.mem_cons.mp h₁ with rfl | hm₁ <;> rcases List.mem_cons.mp h₂ with rfl | hm₂
    · rfl
    · exact absurd hd (hold ev₂ hm₂ hn)
    · exact absurd hd.symm (hold ev₁ hm₁ hn.symm)
    · exact h.unique ev₁ hm₁ ev₂ hm₂ hn hd

/-- What every `DVVSet` of a run owes to the journal. -/
structure Recorded (H : Journal N T) (ds : DVVSet N T) : Prop where
  wellFormed : ds.WellFormed
  top_le : ∀ i, ds.top i ≤ count H i
  genuine : ∀ i n v, ds.sibling i n = some v →
    ∃ ev ∈ H, ev.node = i ∧ ev.dot = n ∧ ev.value = v
  covered : ∀ i, ds.low i = 0 ∨ ∃ ev ∈ H, ds.low i ≤ ev.context.get i

theorem Recorded.new (H : Journal N T) : Recorded H DVVSet.new :=
  ⟨by simp [WellFormed, DVVSet.new], by simp, by simp [sibling, DVVSet.new], by simp⟩

theorem Recorded.cons {H : Journal N T} {ds : DVVSet N T} (h : Recorded H ds) (ev : Event N T) :
    Recorded (ev :: H) ds where
  wellFormed := h.wellFormed
  top_le i := (h.top_le i).trans (count_le_cons ev H i)
  genuine i n v hs := by
    obtain ⟨ev', hm, hev⟩ := h.genuine i n v hs
    exact ⟨ev', List.mem_cons_of_mem _ hm, hev⟩
  covered i := (h.covered i).imp_right fun ⟨ev', hm, hle⟩ => ⟨ev', List.mem_cons_of_mem _ hm, hle⟩

theorem Recorded.sync {H : Journal N T} {a b : DVVSet N T} (ha : Recorded H a)
    (hb : Recorded H b) : Recorded H (a.sync b) where
  wellFormed := ha.wellFormed.sync hb.wellFormed
  top_le i := (top_sync a b i).trans_le (max_le (ha.top_le i) (hb.top_le i))
  genuine i n v hs := (sibling_sync hs).elim (ha.genuine i n v) (hb.genuine i n v)
  covered i := by
    rw [low_sync ha.wellFormed hb.wellFormed]
    rcases max_choice (a.low i) (b.low i) with h | h <;> rw [h]
    · exact ha.covered i
    · exact hb.covered i

theorem Recorded.result {H : Journal N T} {ev : Event N T} (h : Recorded H ev.before)
    (hown : ev.before.top ev.node = count H ev.node) (hvv : ∀ i, ev.context.get i ≤ count H i) :
    Recorded (ev :: H) ev.result where
  wellFormed := h.wellFormed.update
  top_le i := by
    by_cases hi : i = ev.node
    · subst hi
      rw [Event.top_result, count_cons_self, Event.dot, hown]
    · refine le_trans ?_ (count_le_cons ev H i)
      rw [Event.result, top_update_of_ne _ _ _ hi]
      split_ifs
      · exact max_le (h.top_le i) (hvv i)
      · exact Nat.zero_le _
  genuine i n v hs := by
    rcases sibling_update h.wellFormed hs with ⟨rfl, rfl, rfl⟩ | hs
    · exact ⟨ev, List.mem_cons_self, rfl, rfl, rfl⟩
    · exact (h.cons ev).genuine i n v hs
  covered i := by
    by_cases hi : i = ev.node
    · subst hi
      rw [Event.result, low_update_self _ _ _ h.wellFormed]
      rcases max_choice (ev.before.low ev.node)
        (min (ev.context.get ev.node) (ev.before.top ev.node)) with hm | hm <;> rw [hm]
      · exact (h.cons ev).covered _
      · exact Or.inr ⟨ev, List.mem_cons_self, min_le_left _ _⟩
    · rw [Event.result, low_update_of_ne _ _ h.wellFormed hi]
      split_ifs
      · rcases max_choice (ev.before.low i) (ev.context.get i) with hm | hm <;> rw [hm]
        · exact (h.cons ev).covered i
        · exact Or.inr ⟨ev, List.mem_cons_self, le_rfl⟩
      · exact Or.inl rfl

/-- A live sibling carries the value of the event its dot belongs to. -/
theorem Recorded.sibling_eq {H : Journal N T} (hH : Chronicle H) {ds : DVVSet N T}
    (h : Recorded H ds) {ev : Event N T} (hev : ev ∈ H) (hlow : ds.low ev.node < ev.dot)
    (htop : ev.dot ≤ ds.top ev.node) : ds.sibling ev.node ev.dot = some ev.value := by
  obtain ⟨v, hv⟩ := Option.isSome_iff_exists.mp
    ((h.wellFormed.sibling_isSome ev.node ev.dot).mpr ⟨hlow, htop⟩)
  obtain ⟨ev', hm, hn, hd, rfl⟩ := h.genuine _ _ v hv
  rw [hv, hH.unique ev' hm ev hev hn hd]

theorem Recorded.sibling_congr {H : Journal N T} (hH : Chronicle H) {a b : DVVSet N T}
    (ha : Recorded H a) (hb : Recorded H b) (hab : a.Below b) (hba : b.Below a) {i : N} {n : ℕ}
    {v : T} (hs : a.sibling i n = some v) : b.sibling i n = some v := by
  obtain ⟨ev, hm, rfl, rfl, rfl⟩ := ha.genuine i n v hs
  obtain ⟨hlow, htop⟩ := (ha.wellFormed.sibling_isSome _ _).mp (Option.isSome_of_eq_some hs)
  exact hb.sibling_eq hH hm ((hba _).2.trans_lt hlow) (htop.trans (hab _).1)

/-- Knowing the dot of an event means knowing what the event's result knew, and
dots die only through an event that is known. -/
structure Causal (H : Journal N T) (ds : DVVSet N T) : Prop where
  sound : ∀ ev ∈ H, ev.dot ≤ ds.top ev.node → ev.result.Below ds
  caused : ∀ i, ds.low i = 0 ∨
    ∃ ev ∈ H, ev.dot ≤ ds.top ev.node ∧ ds.low i ≤ ev.result.low i

/-- Among causal histories the order on counters already orders the dead dots. -/
theorem Causal.low_le {H : Journal N T} {a b : DVVSet N T} (ha : Causal H a) (hb : Causal H b)
    (h : ∀ i, a.top i ≤ b.top i) (i : N) : a.low i ≤ b.low i := by
  rcases ha.caused i with h0 | ⟨ev, hm, hdot, hle⟩
  · exact h0 ▸ Nat.zero_le _
  · exact hle.trans (hb.sound ev hm (hdot.trans (h _)) i).2

theorem Causal.new (H : Journal N T) : Causal H DVVSet.new := by
  refine ⟨?_, by simp⟩
  intro ev _ hdot
  simp [Event.dot] at hdot

theorem Causal.cons {H : Journal N T} {ds : DVVSet N T} (h : Causal H ds) (hr : Recorded H ds)
    {ev : Event N T} (hown : ev.before.top ev.node = count H ev.node) : Causal (ev :: H) ds where
  sound ev' hm hdot := by
    rcases List.mem_cons.mp hm with rfl | hm
    · have := hr.top_le ev'.node
      rw [Event.dot, hown] at hdot
      omega
    · exact h.sound ev' hm hdot
  caused i := (h.caused i).imp_right fun ⟨ev', hm, hle⟩ => ⟨ev', List.mem_cons_of_mem _ hm, hle⟩

theorem Causal.sync {H : Journal N T} {a b : DVVSet N T} (ha : Causal H a) (hb : Causal H b)
    (hra : a.WellFormed) (hrb : b.WellFormed) : Causal H (a.sync b) where
  sound ev hm hdot := by
    rw [top_sync, le_max_iff] at hdot
    rcases hdot with hdot | hdot
    · exact (ha.sound ev hm hdot).trans (below_sync_left hra hrb)
    · exact (hb.sound ev hm hdot).trans (below_sync_right hra hrb)
  caused i := by
    rw [low_sync hra hrb]
    rcases max_choice (a.low i) (b.low i) with h | h <;> rw [h]
    · refine (ha.caused i).imp_right fun ⟨ev, hm, hdot, hle⟩ => ⟨ev, hm, ?_, hle⟩
      exact hdot.trans ((le_max_left _ _).trans_eq (top_sync a b _).symm)
    · refine (hb.caused i).imp_right fun ⟨ev, hm, hdot, hle⟩ => ⟨ev, hm, ?_, hle⟩
      exact hdot.trans ((le_max_right _ _).trans_eq (top_sync a b _).symm)

/-- The result of a write knows its context, as far as the replica has entries. -/
theorem Chronicle.context_le_low {H : Journal N T} (hH : Chronicle H) {ev : Event N T}
    (hev : ev ∈ H) {i : N} (hi : (ev.before.state.lookup i).isSome) :
    ev.context.get i ≤ ev.result.low i := by
  have hwf := hH.wellFormed ev hev
  by_cases h : i = ev.node
  · subst h
    have := hH.context_le ev hev
    rw [Event.result, low_update_self _ _ _ hwf]
    omega
  · rw [Event.result, low_update_of_ne _ _ hwf h, if_pos hi]
    exact le_max_right _ _

/-- Both kinds of facts about a set of a run. -/
structure Traced (H : Journal N T) (ds : DVVSet N T) : Prop where
  recorded : Recorded H ds
  causal : Causal H ds

theorem Traced.new (H : Journal N T) : Traced H DVVSet.new := ⟨.new H, .new H⟩

theorem Traced.sync {H : Journal N T} {a b : DVVSet N T} (ha : Traced H a) (hb : Traced H b) :
    Traced H (a.sync b) :=
  ⟨ha.recorded.sync hb.recorded,
    ha.causal.sync hb.causal ha.recorded.wellFormed hb.recorded.wellFormed⟩

theorem Traced.sibling_congr {H : Journal N T} (hH : Chronicle H) {a b : DVVSet N T}
    (ha : Traced H a) (hb : Traced H b) (h : ∀ i, a.top i = b.top i) {i : N} {n : ℕ} {v : T}
    (hs : a.sibling i n = some v) : b.sibling i n = some v := by
  have hab : a.Below b := fun j =>
    ⟨(h j).le, ha.causal.low_le hb.causal (fun k => (h k).le) j⟩
  have hba : b.Below a := fun j =>
    ⟨(h j).ge, hb.causal.low_le ha.causal (fun k => (h k).ge) j⟩
  exact ha.recorded.sibling_congr hH hb.recorded hab hba hs

/-- Among traced sets a merge that the order skips would change nothing. -/
theorem Traced.sync_lookup {H : Journal N T} {a b : DVVSet N T} (ha : Traced H a)
    (hb : Traced H b) (h : ∀ i, b.top i ≤ a.top i) (i : N) :
    (a.sync b).state.lookup i = a.state.lookup i :=
  sync_lookup_of_le ha.recorded.wellFormed hb.recorded.wellFormed h
    (hb.causal.low_le ha.causal h) i

theorem Traced.cons {H : Journal N T} {ds : DVVSet N T} (h : Traced H ds) {ev : Event N T}
    (hown : ev.before.top ev.node = count H ev.node) : Traced (ev :: H) ds :=
  ⟨h.recorded.cons ev, h.causal.cons h.recorded hown⟩

/-- The context is the causal history of a set that occurred in the run. -/
def Observed (H : Journal N T) (vv : VV N) : Prop := ∃ ds, Traced H ds ∧ ∀ i, vv.get i = ds.top i

theorem Observed.empty (H : Journal N T) : Observed H ∅ := ⟨.new, .new H, by simp⟩

theorem Observed.cons {H : Journal N T} {vv : VV N} (h : Observed H vv) {ev : Event N T}
    (hown : ev.before.top ev.node = count H ev.node) : Observed (ev :: H) vv := by
  obtain ⟨ds, hds, heq⟩ := h
  exact ⟨ds, hds.cons hown, heq⟩

theorem Observed.get_le {H : Journal N T} {vv : VV N} (h : Observed H vv) (i : N) :
    vv.get i ≤ count H i := by
  obtain ⟨ds, hds, heq⟩ := h
  exact (heq i).trans_le (hds.recorded.top_le i)

/-- Where a context raises a counter, the result knows all that the context's
origin knew. -/
theorem below_result_of_absorbs {H : Journal N T} {ev : Event N T} (h : Recorded H ev.before)
    (hown : ev.before.top ev.node = count H ev.node) {ds : DVVSet N T} (hds : Recorded H ds)
    (hvv : ∀ i, ev.context.get i = ds.top i) (habs : ev.before.Absorbs ev.context) :
    ds.Below ev.result := by
  intro i
  have hlow := ds.low_le_top i
  by_cases hi : i = ev.node
  · subst hi
    have htop := hds.top_le ev.node
    have heq := hvv ev.node
    rw [Event.top_result, Event.result, low_update_self _ _ _ h.wellFormed, Event.dot]
    omega
  · rw [Event.result, top_update_of_ne _ _ _ hi, low_update_of_ne _ _ h.wellFormed hi]
    have heq := hvv i
    split_ifs with hs
    · omega
    · have hzero : ¬ 0 < ev.context.get i := fun hpos => hs (habs i hpos)
      omega

/-- A write keeps causality unless its context raises a known counter and names
an unknown id at the same time. -/
theorem Causal.result {H : Journal N T} (hH : Chronicle H) {ev : Event N T}
    (h : Traced H ev.before) (hown : ev.before.top ev.node = count H ev.node)
    (hvv : Observed H ev.context)
    (hctx : ev.before.Raises ev.node ev.context → ev.before.Absorbs ev.context) :
    Causal (ev :: H) ev.result where
  sound ev' hm hdot := by
    rcases List.mem_cons.mp hm with rfl | hm
    · exact Below.refl _
    have hbelow : ev.before.Below ev.result := below_update h.recorded.wellFormed _ _ _
    by_cases hknown : ev'.dot ≤ ev.before.top ev'.node
    · exact (h.causal.sound ev' hm hknown).trans hbelow
    -- the dot is known only through the context, which therefore raises a counter
    have hne : ev'.node ≠ ev.node := by
      intro heq
      rw [heq, hown, ← heq] at hknown
      exact hknown (hH.dot_le ev' hm)
    rw [Event.result, top_update_of_ne _ _ _ hne] at hdot
    split_ifs at hdot with hs
    · obtain ⟨ds, hds, heq⟩ := hvv
      have hraise : ev.before.top ev'.node < ev.context.get ev'.node := by omega
      have hdot' : ev'.dot ≤ ds.top ev'.node := by
        rw [← heq]
        omega
      exact (hds.causal.sound ev' hm hdot').trans (below_result_of_absorbs h.recorded hown
        hds.recorded heq (hctx ⟨_, hne, hs, hraise⟩))
    · simp [Event.dot] at hdot
  caused i := Or.inr ⟨ev, List.mem_cons_self, ev.top_result.ge, le_rfl⟩

theorem Traced.result {H : Journal N T} (hH : Chronicle H) {ev : Event N T}
    (h : Traced H ev.before) (hown : ev.before.top ev.node = count H ev.node)
    (hvv : Observed H ev.context)
    (hctx : ev.before.Raises ev.node ev.context → ev.before.Absorbs ev.context) :
    Traced (ev :: H) ev.result :=
  ⟨h.recorded.result hown hvv.get_le, .result hH h hown hvv hctx⟩

end Journal
end Commute.Crdt
