import Commute.Swim.StateAgreement

/-!
# Announcements of membership changes

`process` writes the state of an address under the lock and sends the event
afterwards. The log of a run has every write and every event that reaches the
events channel. Where no context ends before its event is sent, and no call
writes the state of an address while another one still has to send its event for
it, the events of every address are announced once and in order.
-/
namespace Commute.Swim.Member

variable {σ : Type} {self : Bytes} {notify : Peer → EventKind → σ → σ} {m m' : Member σ}

inductive LogEntry where
  | wrote (e : Event)
  | sent (e : Event)
deriving DecidableEq

/-- What an action writes to the states, or sends to the events channel. -/
def log : Action → Member σ → List LogEntry
  | .advance t, m =>
    match t.stage with
    | .record => if (m.peers.record t.current.event).isSome then [.wrote t.current.event] else []
    | .delete => []
    | .send => if m.events.length < eventsCap then [.sent t.current.event] else []
  | _, _ => []

def LogEntry.wroteFor (x : Bytes) : LogEntry → Option Event
  | .wrote e => if e.node = x then some e else none
  | .sent _ => none

def LogEntry.sentFor (x : Bytes) : LogEntry → Option Event
  | .wrote _ => none
  | .sent e => if e.node = x then some e else none

def writes (x : Bytes) (entries : List LogEntry) : List Event :=
  entries.filterMap (LogEntry.wroteFor x)

/-- The events for an address that reached the channel, in order. -/
def sends (x : Bytes) (entries : List LogEntry) : List Event :=
  entries.filterMap (LogEntry.sentFor x)

/-- No context ends before its event is sent, and no call writes the state of an address
while another one still has to send its event for that address. -/
def InTurn : Action → Member σ → Prop
  | .cancel _, _ => False
  | .advance t, m => t.stage = .record →
      m.peers.kind t.current.event.node ≠ some t.current.event.kind →
      ∀ e ∈ m.written, e.node ≠ t.current.event.node
  | _, _ => True

instance : (a : Action) → (m : Member σ) → Decidable (InTurn a m)
  | .cancel _, _ => .isFalse id
  | .advance t, m => inferInstanceAs (Decidable (t.stage = .record →
      m.peers.kind t.current.event.node ≠ some t.current.event.kind →
      ∀ e ∈ m.written, e.node ≠ t.current.event.node))
  | .join _ _, _ | .declareDead _, _ | .fanOut, _ | .deliver _, _ => .isTrue trivial

/-- The events for an address that are written and not yet sent. -/
def unsent (x : Bytes) (m : Member σ) : List Event := m.written.filter fun e => e.node = x

/-- What was written for every address is what was sent, and at most one event that is
still to be sent; the last one written is recorded. -/
structure Announces (entries : List LogEntry) (m : Member σ) : Prop where
  inOrder : ∀ x, writes x entries = sends x entries ++ unsent x m
  atMostOne : ∀ x, (unsent x m).length ≤ 1
  recorded : ∀ x, m.peers.state.lookup x = (writes x entries).getLast?

section Lists

variable {x : Bytes} {entries : List LogEntry} {e : Event}

theorem writes_wrote : writes x (entries ++ [.wrote e]) =
    writes x entries ++ [e].filter fun e => e.node = x := by
  by_cases h : e.node = x <;> simp [writes, LogEntry.wroteFor, h]

theorem sends_wrote : sends x (entries ++ [.wrote e]) = sends x entries := by
  simp [sends, LogEntry.sentFor]

theorem writes_sent : writes x (entries ++ [.sent e]) = writes x entries := by
  simp [writes, LogEntry.wroteFor]

theorem sends_sent : sends x (entries ++ [.sent e]) =
    sends x entries ++ [e].filter fun e => e.node = x := by
  by_cases h : e.node = x <;> simp [sends, LogEntry.sentFor, h]

theorem eq_of_perm {α : Type} {xs ys : List α} (h : xs.Perm ys) (hys : ys.length ≤ 1) :
    xs = ys := by
  match ys, hys with
  | [], _ => exact h.eq_nil
  | [y], _ => exact h.eq_singleton

end Lists

theorem Announces.init (start : σ) : Announces [] (init start) :=
  ⟨fun _ => rfl, fun _ => Nat.zero_le 1, fun _ => rfl⟩

section Step

variable {entries : List LogEntry} {e : Event}

theorem Announces.of_eq (h : Announces entries m) (hstate : m'.peers.state = m.peers.state)
    (hwritten : m'.written.Perm m.written) : Announces (entries ++ []) m' := by
  have hunsent : ∀ x, unsent x m' = unsent x m :=
    fun x => eq_of_perm (hwritten.filter _) (h.atMostOne x)
  rw [List.append_nil]
  refine ⟨fun x => ?_, fun x => ?_, fun x => ?_⟩
  · rw [hunsent]
    exact h.inOrder x
  · rw [hunsent]
    exact h.atMostOne x
  · rw [hstate]
    exact h.recorded x

theorem Announces.wrote (h : Announces entries m) (hnew : m.peers.record e = some m'.peers)
    (hwritten : m'.written.Perm (e :: m.written)) (hturn : ∀ e' ∈ m.written, e'.node ≠ e.node) :
    Announces (entries ++ [.wrote e]) m' := by
  have hidle : unsent e.node m = [] := by
    rw [unsent, List.filter_eq_nil_iff]
    simpa using hturn
  have hunsent : ∀ x, unsent x m' = unsent x m ++ [e].filter fun e => e.node = x := by
    intro x
    have hperm : (unsent x m').Perm ((e :: m.written).filter fun e => e.node = x) :=
      hwritten.filter _
    rw [← List.singleton_append, List.filter_append] at hperm
    refine eq_of_perm (hperm.trans List.perm_append_comm) ?_
    by_cases hx : e.node = x
    · simp [← hx, hidle]
    · simpa [hx] using h.atMostOne x
  refine ⟨fun x => ?_, fun x => ?_, fun x => ?_⟩
  · rw [writes_wrote, sends_wrote, hunsent, h.inOrder, List.append_assoc]
  · rw [hunsent]
    by_cases hx : e.node = x
    · simp [← hx, hidle]
    · simpa [hx] using h.atMostOne x
  · rw [Peers.record_eq_some hnew, writes_wrote, FMap.lookup_insert_eq, h.recorded x]
    by_cases hx : e.node = x
    · simp [hx]
    · simp [hx, Ne.symm hx]

theorem Announces.sent (h : Announces entries m) (hpeers : m'.peers = m.peers)
    (hwritten : m.written.Perm (e :: m'.written)) : Announces (entries ++ [.sent e]) m' := by
  have hunsent : ∀ x, unsent x m = ([e].filter fun e => e.node = x) ++ unsent x m' := by
    intro x
    have hperm : (unsent x m).Perm ((e :: m'.written).filter fun e => e.node = x) :=
      hwritten.filter _
    rw [← List.singleton_append, List.filter_append] at hperm
    exact eq_of_perm hperm (hperm.length_eq ▸ h.atMostOne x)
  refine ⟨fun x => ?_, fun x => ?_, fun x => ?_⟩
  · rw [writes_sent, sends_sent, h.inOrder, hunsent, List.append_assoc]
  · have hle := h.atMostOne x
    rw [hunsent, List.length_append] at hle
    omega
  · rw [writes_sent, hpeers]
    exact h.recorded x

theorem Announces.advance {t : Task} (h : Announces entries m) (ht : t ∈ m.tasks)
    (hturn : InTurn (.advance t) m) :
    Announces (entries ++ log (.advance t) m) (m.advance t) := by
  cases advanced_advance ht with
  | ignored hstage hknown hpeers _ hwritten _ =>
    have hlog : log (.advance t) m = [] := by simp [log, hstage, hknown]
    rw [hlog]
    exact h.of_eq (congrArg Peers.state hpeers) hwritten
  | recorded hstage hnew _ hwritten _ =>
    have hlog : log (.advance t) m = [.wrote t.current.event] := by simp [log, hstage, hnew]
    rw [hlog]
    refine h.wrote hnew hwritten (hturn hstage ?_)
    rw [Ne, ← Peers.record_eq_none, hnew]
    exact Option.some_ne_none _
  | deleted hstage hpeers _ hwritten _ =>
    have hlog : log (.advance t) m = [] := by simp [log, hstage]
    have hstate : (m.advance t).peers.state = m.peers.state := by
      rw [hpeers]
      rfl
    rw [hlog]
    exact h.of_eq hstate hwritten
  | sent hstage hroom hpeers _ hwritten _ =>
    have hlog : log (.advance t) m = [.sent t.current.event] := by simp [log, hstage, hroom]
    rw [hlog]
    exact h.sent hpeers hwritten
  | blocked hstage hfull hsame =>
    have hlog : log (.advance t) m = [] := by simp [log, hstage, hfull]
    rw [hlog, hsame]
    exact h.of_eq rfl (.refl _)

theorem Announces.exec (h : Announces entries m) {a : Action} (ha : enabled a m)
    (hturn : InTurn a m) : Announces (entries ++ log a m) (exec self notify a m) := by
  cases a with
  | join draw body =>
    exact h.of_eq (Peers.joined_join self draw body m.peers).state
      (by simp [Member.exec, Member.join, written])
  | declareDead nodes => exact h.of_eq rfl (by simp [Member.exec, Member.declareDead, written])
  | advance t => exact h.advance ha hturn
  | cancel t => exact hturn.elim
  | fanOut =>
    simp only [Member.exec, fanOut]
    split
    · exact h.of_eq rfl (.refl _)
    · exact h.of_eq rfl (.refl _)
  | deliver n => exact h.of_eq rfl (.refl _)

end Step

/-- In every run in which no context ends before its event is sent and the calls for an
address take turns, what reaches the events channel for an address is what was written for
it, up to an event that is still to be sent, and the last one is what is recorded. -/
theorem sends_eq_writes {start : σ} {as : List Action}
    (h : ((machine self notify).restrict InTurn).Legal (init start) as) (x : Bytes) :
    sends x ((machine self notify).emits log (init start) as) <+:
        writes x ((machine self notify).emits log (init start) as) ∧
      (((machine self notify).after (init start) as).tasks = [] →
        sends x ((machine self notify).emits log (init start) as) =
            writes x ((machine self notify).emits log (init start) as) ∧
          (sends x ((machine self notify).emits log (init start) as)).getLast? =
            ((machine self notify).after (init start) as).peers.state.lookup x) := by
  have hann := h.emits_invariant log (I := Announces) (.init start)
    fun a entries m hm ha => hm.exec ha.1 ha.2
  rw [Machine.emits_restrict, Machine.after_restrict, List.nil_append] at hann
  generalize (machine self notify).after (init start) as = m at hann
  generalize (machine self notify).emits log (init start) as = entries at hann
  refine ⟨⟨unsent x m, (hann.inOrder x).symm⟩, fun hidle => ?_⟩
  have hunsent : unsent x m = [] := by rw [unsent, written, hidle]; rfl
  have heq : sends x entries = writes x entries := by
    rw [hann.inOrder x, hunsent, List.append_nil]
  exact ⟨heq, by rw [heq, hann.recorded x]⟩

theorem sends_cameAndWent :
    sends [98] (membership.emits log (init ()) cameAndWent) =
        writes [98] (membership.emits log (init ()) cameAndWent) ∧
      writes [98] (membership.emits log (init ()) cameAndWent) =
        [⟨.alive, [98]⟩, ⟨.dead, [98]⟩] :=
  ⟨((sends_eq_writes (by decide) [98]).2 (by decide)).1, by decide⟩

/-- The client of a join request goes away, and the event for the added `b` is lost. -/
def cancelledJoin : List Action :=
  [joinB, aliveB .record, .cancel ⟨.send, ⟨⟨.alive, [98]⟩, some ⟨[98], 1⟩⟩, []⟩]

/-- A join has recorded `b` as alive; `Listen` hears that `b` is dead and sends its event
first. -/
def overtakenSend : List Action :=
  [joinB, aliveB .record, .declareDead [[98]], deadB .record, deadB .delete, deadB .send,
    aliveB .send]

theorem sends_cancelled_overtaken :
    (membership.Legal (init ()) cancelledJoin ∧
      (membership.after (init ()) cancelledJoin).tasks = [] ∧
      writes [98] (membership.emits log (init ()) cancelledJoin) = [⟨.alive, [98]⟩] ∧
      sends [98] (membership.emits log (init ()) cancelledJoin) = []) ∧
    membership.Legal (init ()) overtakenSend ∧
      (membership.after (init ()) overtakenSend).tasks = [] ∧
      writes [98] (membership.emits log (init ()) overtakenSend) =
        [⟨.alive, [98]⟩, ⟨.dead, [98]⟩] ∧
      sends [98] (membership.emits log (init ()) overtakenSend) =
        [⟨.dead, [98]⟩, ⟨.alive, [98]⟩] := by
  decide

end Commute.Swim.Member
