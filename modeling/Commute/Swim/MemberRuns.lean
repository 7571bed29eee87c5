import Commute.Foundation.Machine
import Commute.Swim.PeerList

/-!
# Runs of the membership goroutines

A goroutine inside `process` has calls whose state section is still to come, and
one call that may have written the state already; `pending`, `written` and
`deleting` collect these over all goroutines, and every action is described by
what it takes out of and puts into them.
-/
namespace Commute.Swim

/-- The events whose state section is still to come. -/
def Task.pending (t : Task) : List Event :=
  match t.stage with
  | .record => t.current.event :: t.rest.map Announcement.event
  | _ => t.rest.map Announcement.event

/-- The event that is written to the state and not yet sent. -/
def Task.written (t : Task) : List Event :=
  match t.stage with
  | .record => []
  | _ => [t.current.event]

/-- The event between its state section and its delete section. -/
def Task.deleting (t : Task) : List Event :=
  match t.stage with
  | .delete => [t.current.event]
  | _ => []

namespace Member

variable {σ β : Type} {self : Bytes} {notify : Peer → EventKind → σ → σ} {m m' : Member σ}
  {t : Task}

theorem flatMap_tasks (f : Task → List β) (ht : t ∈ m.tasks) :
    (m.tasks.flatMap f).Perm (f t ++ (m.tasks.erase t).flatMap f) :=
  (List.perm_cons_erase ht).flatMap_right f

theorem flatMap_finish (f : Task → List β) (ht : t ∈ m.tasks) :
    (f t ++ (m.finish t).tasks.flatMap f).Perm
      ((start t.rest).flatMap f ++ m.tasks.flatMap f) := by
  rw [finish, List.flatMap_append]
  exact (List.perm_append_comm_assoc ..).trans ((flatMap_tasks f ht).symm.append_left _)

theorem flatMap_enter (f : Task → List β) (ht : t ∈ m.tasks) (stage : Stage) :
    (f t ++ (m.enter t stage).tasks.flatMap f).Perm
      (f { t with stage := stage } ++ m.tasks.flatMap f) := by
  rw [enter, List.flatMap_cons]
  exact (List.perm_append_comm_assoc ..).trans ((flatMap_tasks f ht).symm.append_left _)

/-- The events whose state section is still to come. -/
abbrev pending (m : Member σ) : List Event := m.tasks.flatMap Task.pending

/-- The events that are written to the state and not yet sent. -/
abbrev written (m : Member σ) : List Event := m.tasks.flatMap Task.written

/-- The events between their state section and their delete section. -/
abbrev deleting (m : Member σ) : List Event := m.tasks.flatMap Task.deleting

section Start

variable (as : List Announcement)

@[simp] theorem flatMap_pending_start :
    (start as).flatMap Task.pending = as.map Announcement.event := by
  cases as <;> simp [start, Task.pending]

@[simp] theorem flatMap_written_start : (start as).flatMap Task.written = [] := by
  cases as <;> simp [start, Task.written]

@[simp] theorem flatMap_deleting_start : (start as).flatMap Task.deleting = [] := by
  cases as <;> simp [start, Task.deleting]

end Start

/-- What one section of a call of `process` does. -/
inductive Advanced (t : Task) (m m' : Member σ) : Prop
  | ignored (stage : t.stage = .record) (known : m.peers.record t.current.event = none)
      (peers : m'.peers = m.peers) (pending : m.pending.Perm (t.current.event :: m'.pending))
      (written : m'.written.Perm m.written) (deleting : m'.deleting.Perm m.deleting)
  | recorded (stage : t.stage = .record) (new : m.peers.record t.current.event = some m'.peers)
      (pending : m.pending.Perm (t.current.event :: m'.pending))
      (written : m'.written.Perm (t.current.event :: m.written))
      (deleting : m'.deleting.Perm
        (if t.current.event.kind = .dead then t.current.event :: m.deleting else m.deleting))
  | deleted (stage : t.stage = .delete)
      (peers : m'.peers = (m.peers.delete t.current.event.node).2)
      (pending : m'.pending.Perm m.pending) (written : m'.written.Perm m.written)
      (deleting : m.deleting.Perm (t.current.event :: m'.deleting))
  | sent (stage : t.stage = .send) (room : m.events.length < eventsCap)
      (peers : m'.peers = m.peers) (pending : m'.pending.Perm m.pending)
      (written : m.written.Perm (t.current.event :: m'.written))
      (deleting : m'.deleting.Perm m.deleting)
  | blocked (stage : t.stage = .send) (full : ¬ m.events.length < eventsCap) (same : m' = m)

theorem pending_finish_record (ht : t ∈ m.tasks) (hs : t.stage = .record) :
    m.pending.Perm (t.current.event :: (m.finish t).pending) := by
  have h := flatMap_finish Task.pending ht
  rw [flatMap_pending_start, Task.pending, hs] at h
  exact ((List.perm_append_left_iff _).mp (List.perm_middle.trans h)).symm

theorem pending_enter_record (ht : t ∈ m.tasks) (hs : t.stage = .record) {stage : Stage}
    (hstage : stage ≠ .record) :
    m.pending.Perm (t.current.event :: (m.enter t stage).pending) := by
  have h := flatMap_enter Task.pending ht stage
  have hnext : Task.pending { t with stage := stage } = t.rest.map Announcement.event := by
    cases stage <;> simp_all [Task.pending]
  rw [hnext, Task.pending, hs] at h
  exact ((List.perm_append_left_iff _).mp (List.perm_middle.trans h)).symm

theorem finish_send (ht : t ∈ m.tasks) (hs : t.stage = .send) :
    (m.finish t).pending.Perm m.pending ∧ m.written.Perm (t.current.event :: (m.finish t).written) ∧
      (m.finish t).deleting.Perm m.deleting := by
  refine ⟨?_, ?_, ?_⟩
  · simpa [Task.pending, hs, List.perm_append_left_iff] using flatMap_finish Task.pending ht
  · simpa [Task.written, hs] using (flatMap_finish Task.written ht).symm
  · simpa [Task.deleting, hs] using flatMap_finish Task.deleting ht

theorem advanced_record (ht : t ∈ m.tasks) (hs : t.stage = .record) :
    Advanced t m (m.advance t) := by
  unfold advance
  rw [hs]
  dsimp only
  cases hrecord : m.peers.record t.current.event with
  | none =>
    refine .ignored hs hrecord rfl (pending_finish_record ht hs) ?_ ?_
    · simpa [Task.written, hs] using flatMap_finish Task.written ht
    · simpa [Task.deleting, hs] using flatMap_finish Task.deleting ht
  | some peers =>
    have ht' : t ∈ ({ m with peers := peers } : Member σ).tasks := ht
    cases hkind : t.current.event.kind with
    | alive =>
      refine .recorded hs hrecord (pending_enter_record ht' hs (by decide)) ?_ ?_
      · simpa [Task.written, hs] using flatMap_enter Task.written ht' .send
      · simpa [Task.deleting, hs, hkind] using flatMap_enter Task.deleting ht' .send
    | dead =>
      refine .recorded hs hrecord (pending_enter_record ht' hs (by decide)) ?_ ?_
      · simpa [Task.written, hs] using flatMap_enter Task.written ht' .delete
      · simpa [Task.deleting, hs, hkind] using flatMap_enter Task.deleting ht' .delete

theorem advanced_advance (ht : t ∈ m.tasks) : Advanced t m (m.advance t) := by
  cases hs : t.stage with
  | record => exact advanced_record ht hs
  | delete =>
    have ht' : t ∈ ({ m with peers := (m.peers.delete t.current.event.node).2 } : Member σ).tasks :=
      ht
    have hadvance : m.advance t =
        ({ m with peers := (m.peers.delete t.current.event.node).2 } : Member σ).enter t .send := by
      unfold advance
      rw [hs]
    rw [hadvance]
    refine .deleted hs rfl ?_ ?_ ?_
    · simpa [Task.pending, hs, List.perm_append_left_iff] using flatMap_enter Task.pending ht' .send
    · simpa [Task.written, hs] using flatMap_enter Task.written ht' .send
    · simpa [Task.deleting, hs] using (flatMap_enter Task.deleting ht' .send).symm
  | send =>
    by_cases hroom : m.events.length < eventsCap
    · have ht' : t ∈ ({ m with events := m.events ++ [t.current] } : Member σ).tasks := ht
      have hadvance : m.advance t =
          ({ m with events := m.events ++ [t.current] } : Member σ).finish t := by
        unfold advance
        rw [hs]
        exact if_pos hroom
      rw [hadvance]
      obtain ⟨hpending, hwritten, hdeleting⟩ := finish_send ht' hs
      exact .sent hs hroom rfl hpending hwritten hdeleting
    · refine .blocked hs hroom ?_
      unfold advance
      rw [hs]
      exact if_neg hroom

end Member
end Commute.Swim
