import Commute.Crdt.Journal

/-!
# Sites that write the elements of replicated sets

A view of a run in which only three things matter: what every site knows of
every element, which contexts were given out, and the journal of every element.
How knowledge travels between sites is left open; a step may replace what a site
knows by anything that knows at least as much and is recorded in the journal.

The two invariants are proved here once for every kind of run: `Consistent` for
all runs and `Causality` for runs whose writes are `Guarded`.
-/
namespace Commute.Crdt

/-- The elements as the sites `I` know them, the contexts the sites gave out, and
the writes of each element. -/
structure Sites (I N E : Type) where
  element : I → E → DVVSet N Bool
  contexts : E → List (I × VV N)
  journal : E → Journal N Bool

namespace Sites

variable {I N E : Type}

/-- The journal grew by one write of `e`. -/
def Logs (v v' : Sites I N E) (e : E) (ev : Event N Bool) : Prop :=
  v'.journal e = ev :: v.journal e ∧ ∀ e', e' ≠ e → v'.journal e' = v.journal e'

theorem Logs.mono {v v' : Sites I N E} {e : E} {ev : Event N Bool} (hlog : v.Logs v' e ev)
    {P : Journal N Bool → DVVSet N Bool → Prop}
    (hcons : ∀ ds, P (v.journal e) ds → P (ev :: v.journal e) ds) {e' : E} {ds : DVVSet N Bool}
    (hds : P (v.journal e') ds) : P (v'.journal e') ds := by
  by_cases he : e' = e
  · subst he
    rw [hlog.1]
    exact hcons ds hds
  · rwa [hlog.2 e' he]

variable [DecidableEq N]

/-- The context is empty or was given out earlier for this element. -/
def Returned (v : Sites I N E) (e : E) (vv : VV N) : Prop := vv = ∅ ∨ ∃ s, (s, vv) ∈ v.contexts e

/-- The context is empty or was given out earlier by the writing site itself. -/
def OwnReturned (v : Sites I N E) (s : I) (e : E) (vv : VV N) : Prop :=
  vv = ∅ ∨ (s, vv) ∈ v.contexts e

/-- A context that raises a counter names only ids the site has an entry for. -/
def Guarded (id : I → N) (v : Sites I N E) (s : I) (e : E) (vv : VV N) : Prop :=
  (v.element s e).Raises (id s) vv → (v.element s e).Absorbs vv

/-- The write that a site is about to make. -/
def event (id : I → N) (v : Sites I N E) (s : I) (e : E) (vv : VV N) (marker : Bool) :
    Event N Bool :=
  ⟨id s, vv, marker, v.element s e⟩

/-- No site knows less than before. -/
def Grows (v v' : Sites I N E) : Prop :=
  ∀ s e i, (v.element s e).top i ≤ (v'.element s e).top i

/-- The contexts given out in a step are what the sites know. -/
def Reads (v v' : Sites I N E) : Prop :=
  ∀ e, ∀ c ∈ v'.contexts e, c ∈ v.contexts e ∨ ∀ i, c.2.get i = (v.element c.1 e).top i

/-- The invariant of all runs: no site is ahead of the journal, and every site is
up to date about its own writes. -/
structure Consistent (id : I → N) (v : Sites I N E) : Prop where
  chronicle : ∀ e, (v.journal e).Chronicle
  recorded : ∀ s e, (v.journal e).Recorded (v.element s e)
  count : ∀ s e, (v.element s e).top (id s) = (v.journal e).count (id s)
  contexts : ∀ e, ∀ c ∈ v.contexts e, ∀ i, c.2.get i ≤ (v.element c.1 e).top i

section Consistent

variable {id : I → N} {v v' : Sites I N E}

theorem Consistent.context_le (h : Consistent id v) {e : E} {vv : VV N} (hvv : v.Returned e vv)
    (i : N) : vv.get i ≤ (v.journal e).count i := by
  rcases hvv with rfl | ⟨s, hs⟩
  · simp
  · exact (h.contexts e (s, vv) hs i).trans ((h.recorded s e).top_le i)

theorem Consistent.contexts_of_grows (h : Consistent id v) (hgrow : v.Grows v')
    (hreads : v.Reads v') (e : E) (c : I × VV N) (hc : c ∈ v'.contexts e) (i : N) :
    c.2.get i ≤ (v'.element c.1 e).top i := by
  rcases hreads e c hc with hc | heq
  · exact (h.contexts e c hc i).trans (hgrow _ _ _)
  · exact (heq i).trans_le (hgrow _ _ _)

theorem Consistent.quiet (h : Consistent id v) (hgrow : v.Grows v') (hreads : v.Reads v')
    (hjournal : v'.journal = v.journal)
    (hrec : ∀ s e, (v.journal e).Recorded (v'.element s e)) : Consistent id v' where
  chronicle e := hjournal ▸ h.chronicle e
  recorded s e := hjournal ▸ hrec s e
  count s e := by
    rw [hjournal]
    exact le_antisymm ((hrec s e).top_le _) ((h.count s e).ge.trans (hgrow s e _))
  contexts := h.contexts_of_grows hgrow hreads

theorem Consistent.result (h : Consistent id v) {s : I} {e : E} {vv : VV N}
    (hvv : v.Returned e vv) (marker : Bool) :
    Journal.Recorded (v.event id s e vv marker :: v.journal e)
      (v.event id s e vv marker).result :=
  Journal.Recorded.result (h.recorded s e) (h.count s e) (h.context_le hvv)

/-- A step with a write at the site `s`, which then knows the write's dot. -/
theorem Consistent.write (hid : Function.Injective id) (h : Consistent id v) {s : I} {e : E}
    {vv : VV N} {marker : Bool} (hvv : v.Returned e vv)
    (hlog : v.Logs v' e (v.event id s e vv marker)) (hgrow : v.Grows v') (hreads : v.Reads v')
    (hrec : ∀ s' e', (v'.journal e').Recorded (v'.element s' e'))
    (hdot : (v.element s e).top (id s) + 1 ≤ (v'.element s e).top (id s)) :
    Consistent id v' where
  chronicle e' := by
    by_cases he : e' = e
    · subst he
      rw [hlog.1]
      exact (h.chronicle e').cons (h.recorded s e').wellFormed (h.count s e')
        (h.context_le hvv (id s))
    · rw [hlog.2 e' he]
      exact h.chronicle e'
  recorded := hrec
  count s' e' := by
    refine le_antisymm ((hrec s' e').top_le _) ?_
    by_cases he : e' = e
    · subst he
      rw [hlog.1]
      by_cases hs : s' = s
      · subst hs
        have hcount : Journal.count (v.event id s' e' vv marker :: v.journal e') (id s') =
            Journal.count (v.journal e') (id s') + 1 := Journal.count_cons_self _ _
        rw [hcount, ← h.count]
        exact hdot
      · have hne : id s ≠ id s' := fun heq => hs (hid heq.symm)
        have hcount : Journal.count (v.event id s e' vv marker :: v.journal e') (id s') =
            Journal.count (v.journal e') (id s') := by
          simp [Journal.count, event, hne]
        rw [hcount, ← h.count]
        exact hgrow s' e' _
    · rw [hlog.2 e' he, ← h.count]
      exact hgrow s' e' _
  contexts := h.contexts_of_grows hgrow hreads

theorem Consistent.guarded_of_own (h : Consistent id v) {s : I} {e : E} {vv : VV N}
    (hvv : v.OwnReturned s e vv) : Guarded id v s e vv := by
  rintro ⟨i, -, -, hlt⟩
  rcases hvv with rfl | hown
  · simp at hlt
  · exact absurd (h.contexts e (s, vv) hown i) (not_le.mpr hlt)

end Consistent

/-- What holds in addition as long as every write is `Guarded`. -/
structure Causality (v : Sites I N E) : Prop where
  traced : ∀ s e, (v.journal e).Traced (v.element s e)
  observed : ∀ e, ∀ c ∈ v.contexts e, (v.journal e).Observed c.2

section Causality

variable {id : I → N} {v v' : Sites I N E}

theorem Causality.context (h : Causality v) {e : E} {vv : VV N} (hvv : v.Returned e vv) :
    (v.journal e).Observed vv := by
  rcases hvv with rfl | ⟨s, hs⟩
  · exact .empty _
  · exact h.observed e (s, vv) hs

theorem Causality.result (h : Causality v) (hc : Consistent id v) {s : I} {e : E} {vv : VV N}
    (hvv : v.Returned e vv) (hguard : Guarded id v s e vv) (marker : Bool) :
    Journal.Traced (v.event id s e vv marker :: v.journal e)
      (v.event id s e vv marker).result :=
  .result (hc.chronicle e) (h.traced s e) (hc.count s e) (h.context hvv) hguard

/-- A context given out is the causal history of what the site knows. -/
theorem Causality.observed_of_reads (h : Causality v) (hreads : v.Reads v') (e : E)
    (c : I × VV N) (hc : c ∈ v'.contexts e) : (v.journal e).Observed c.2 := by
  rcases hreads e c hc with hc | heq
  · exact h.observed e c hc
  · exact ⟨_, h.traced c.1 e, heq⟩

theorem Causality.quiet (h : Causality v) (hreads : v.Reads v')
    (hjournal : v'.journal = v.journal)
    (htraced : ∀ s e, (v.journal e).Traced (v'.element s e)) : Causality v' :=
  ⟨fun s e => hjournal ▸ htraced s e,
    fun e c hc => hjournal ▸ h.observed_of_reads hreads e c hc⟩

theorem Causality.write (h : Causality v) (hc : Consistent id v) {s : I} {e : E} {vv : VV N}
    {marker : Bool} (hlog : v.Logs v' e (v.event id s e vv marker)) (hreads : v.Reads v')
    (htraced : ∀ s' e', (v'.journal e').Traced (v'.element s' e')) : Causality v' := by
  refine ⟨htraced, ?_⟩
  intro e' c hm
  have hobs := h.observed_of_reads hreads e' c hm
  by_cases he : e' = e
  · subst he
    rw [hlog.1]
    exact hobs.cons (hc.count s e')
  · rwa [hlog.2 e' he]

end Causality

end Sites
end Commute.Crdt
