import Commute.Swim.MemberRuns

/-!
# Recorded states and the member list

A join adds a peer to the list in one section and records it as alive in a later
one; `process` records a peer as dead in one section and removes it from the list
in a later one. Where these do not overlap for one address, the address is
settled, joining or dying, and list and recorded state agree whenever no call is
in progress. Where they overlap they can disagree for good.
-/
namespace Commute.Swim

namespace Peers

variable {self : Bytes} {p p' : Peers}

def kind (p : Peers) (x : Bytes) : Option EventKind := (p.state.lookup x).map Event.kind

def Admits (self : Bytes) (body : JoinBody) (p : Peers) (x : Bytes) : Prop :=
  (∃ jp ∈ body.peers, jp.udpAddr = x) ∧ x ≠ self ∧ x ∉ p.addrs ∧ (p.Dead x → x = body.src)

instance (body : JoinBody) (x : Bytes) : Decidable (p.Admits self body x) :=
  inferInstanceAs (Decidable (_ ∧ _))

theorem record_eq_none {e : Event} : p.record e = none ↔ p.kind e.node = some e.kind := by
  unfold record kind
  cases p.state.lookup e.node <;> simp

theorem kind_of_record {e : Event} (h : p.record e = some p') (x : Bytes) :
    p'.kind x = if x = e.node then some e.kind else p.kind x := by
  rw [record_eq_some h, kind, FMap.lookup_insert_eq]
  split_ifs <;> rfl

theorem admits_of_mem_added {draw : ℕ → ℕ} {body : JoinBody} {x : Bytes}
    (h : x ∈ (p.join self draw body).2.map Peer.udpAddr) : p.Admits self body x := by
  obtain ⟨q, hq, rfl⟩ := List.mem_map.mp h
  have hj := joined_join self draw body p
  refine ⟨List.mem_map.mp (join_added self draw body p q hq), (hj.alive q hq).1,
    hj.fresh.2 q hq, ?_⟩
  intro hdead
  by_contra hne
  apply (hj.alive q hq).2
  unfold Dead at hdead ⊢
  rwa [hj.deadPeers, AList.lookup_erase_ne hne]

end Peers

namespace Member

variable {σ : Type} {self : Bytes} {notify : Peer → EventKind → σ → σ} {m m' : Member σ}
  {x : Bytes}

/-- Calls for one address do not overlap: no join adds an address between the two sections
of a call that declares it dead, and no address is recorded as dead between the join that
added it and the section that records it as alive. -/
def Separate (self : Bytes) : Action → Member σ → Prop
  | .join _ body, m => ∀ e ∈ m.deleting, ¬ m.peers.Admits self body e.node
  | .advance t, m => t.stage = .record → t.current.event.kind = .dead →
      m.peers.kind t.current.event.node ≠ some .dead →
      ⟨.alive, t.current.event.node⟩ ∉ m.pending
  | _, _ => True

instance : (a : Action) → (m : Member σ) → Decidable (Separate self a m)
  | .join _ body, m =>
    inferInstanceAs (Decidable (∀ e ∈ m.deleting, ¬ m.peers.Admits self body e.node))
  | .advance t, m => inferInstanceAs (Decidable (t.stage = .record → t.current.event.kind = .dead →
      m.peers.kind t.current.event.node ≠ some .dead →
      ⟨.alive, t.current.event.node⟩ ∉ m.pending))
  | .declareDead _, _ | .cancel _, _ | .fanOut, _ | .deliver _, _ => .isTrue trivial

/-- Where an address is between its additions and removals; `joins` of its calls are to
record it as alive and `removals` are to take it off the list. -/
inductive Phase (listed : Prop) (kind : Option EventKind) (joins removals : ℕ) : Prop
  | settled (hj : joins = 0) (hr : removals = 0) (h : listed ↔ kind = some .alive)
  | joining (hj : joins = 1) (hr : removals = 0) (h : listed) (hk : kind ≠ some .alive)
  | dying (hj : joins = 0) (hr : removals = 1) (hk : kind = some .dead)

namespace Phase

variable {listed : Prop} {kind : Option EventKind} {joins removals : ℕ}

theorem add (h : Phase listed kind joins removals) (hl : ¬ listed) (hr : removals = 0) :
    Phase True kind (1 + joins) removals := by
  cases h with
  | settled hj _ h => exact .joining (by omega) hr trivial (mt h.mpr hl)
  | joining _ _ h => exact absurd h hl
  | dying _ hr' => omega

theorem not_alive (h : Phase listed kind (joins + 1) removals) : kind ≠ some .alive := by
  cases h with
  | settled hj => omega
  | joining _ _ _ hk => exact hk
  | dying hj => omega

theorem recordAlive (h : Phase listed kind (joins + 1) removals) :
    Phase listed (some .alive) joins removals := by
  cases h with
  | settled hj => omega
  | joining hj hr h _ => exact .settled (by omega) hr (by simp [h])
  | dying hj => omega

theorem recordDead (h : Phase listed kind 0 removals) (hk : kind ≠ some .dead) :
    Phase listed (some .dead) 0 (removals + 1) := by
  cases h with
  | settled _ hr _ => exact .dying rfl (by omega) rfl
  | joining hj => omega
  | dying _ _ hk' => exact absurd hk' hk

theorem remove (h : Phase listed kind joins (removals + 1)) :
    Phase False kind joins removals := by
  cases h with
  | settled _ hr => omega
  | joining _ hr => omega
  | dying hj hr hk => exact .settled hj (by omega) (by simp [hk])

end Phase

structure Agreed (m : Member σ) : Prop where
  phase : ∀ x, Phase (x ∈ m.peers.addrs) (m.peers.kind x) (m.pending.count ⟨.alive, x⟩)
    (m.deleting.count ⟨.dead, x⟩)
  dead : ∀ e ∈ m.deleting, e.kind = .dead

theorem Agreed.init (start : σ) : Agreed (init start) :=
  ⟨fun x => .settled rfl rfl (by simp [Member.init, Peers.new, Peers.addrs, Peers.kind]),
    fun _ h => absurd h List.not_mem_nil⟩

/-- A step that changes neither the list nor a state, and no number that counts. -/
theorem Agreed.of_eq (h : Agreed m) (hpeers : m'.peers = m.peers)
    (hpending : ∀ x, m'.pending.count ⟨.alive, x⟩ = m.pending.count ⟨.alive, x⟩)
    (hdeleting : m'.deleting.Perm m.deleting) : Agreed m' := by
  refine ⟨fun x => ?_, fun e he => h.dead e (hdeleting.mem_iff.mp he)⟩
  rw [hpeers, hpending, hdeleting.count_eq]
  exact h.phase x

theorem count_alive (added : List Peer) (x : Bytes) :
    (added.map fun p => (⟨.alive, p.udpAddr⟩ : Event)).count ⟨.alive, x⟩ =
      (added.map Peer.udpAddr).count x := by
  induction added with
  | nil => rfl
  | cons p added ih => simp [List.count_cons, ih]

theorem Agreed.join (h : Agreed m) (draw : ℕ → ℕ) (body : JoinBody)
    (hsep : Separate self (.join draw body) m) : Agreed (m.join self draw body) := by
  have hj := Peers.joined_join self draw body m.peers
  have hpending : (m.join self draw body).pending =
      (m.peers.join self draw body).2.map (fun p => ⟨.alive, p.udpAddr⟩) ++ m.pending := by
    simp [Member.join, pending]
  have hdeleting : (m.join self draw body).deleting = m.deleting := by
    simp [Member.join, deleting]
  refine ⟨fun x => ?_, by rw [hdeleting]; exact h.dead⟩
  have hstate : (m.join self draw body).peers.state = m.peers.state := hj.state
  have hkind : (m.join self draw body).peers.kind x = m.peers.kind x := by
    rw [Peers.kind, hstate, Peers.kind]
  have hlisted : x ∈ (m.join self draw body).peers.addrs ↔ _ := hj.mem_addrs x
  rw [hlisted, hkind, hpending, hdeleting, List.count_append, count_alive]
  by_cases hx : x ∈ (m.peers.join self draw body).2.map Peer.udpAddr
  · have hadmit := Peers.admits_of_mem_added hx
    have hidle : ⟨.dead, x⟩ ∉ m.deleting := fun hmem => hsep _ hmem hadmit
    rw [List.count_eq_one_of_mem hj.fresh.1 hx, eq_true (Or.inr hx)]
    exact (h.phase x).add hadmit.2.2.1 (List.count_eq_zero_of_not_mem hidle)
  · rw [List.count_eq_zero_of_not_mem hx, Nat.zero_add, or_iff_left hx]
    exact h.phase x

theorem Agreed.declareDead (h : Agreed m) (nodes : List Bytes) : Agreed (m.declareDead nodes) := by
  refine h.of_eq rfl (fun x => ?_) (by simp [Member.declareDead, deleting])
  have hnone : (⟨.alive, x⟩ : Event) ∉ nodes.map fun node => (⟨.dead, node⟩ : Event) := by simp
  have hpending : (m.declareDead nodes).pending =
      (nodes.map fun node => (⟨.dead, node⟩ : Event)) ++ m.pending := by
    simp [Member.declareDead, pending]
  rw [hpending, List.count_append, List.count_eq_zero_of_not_mem hnone, Nat.zero_add]

section Advance

variable {e : Event}

theorem Agreed.ignored (h : Agreed m) (hknown : m.peers.record e = none)
    (hpeers : m'.peers = m.peers) (hpending : m.pending.Perm (e :: m'.pending))
    (hdeleting : m'.deleting.Perm m.deleting) : Agreed m' := by
  refine h.of_eq hpeers (fun x => ?_) hdeleting
  have hphase := h.phase x
  have hcount := hpending.count_eq ⟨.alive, x⟩
  rw [List.count_cons] at hcount
  split_ifs at hcount with he
  · obtain rfl := eq_of_beq he
    rw [hcount] at hphase
    exact absurd (Peers.record_eq_none.mp hknown) hphase.not_alive
  · omega

theorem Agreed.recorded (h : Agreed m) (hnew : m.peers.record e = some m'.peers)
    (hpending : m.pending.Perm (e :: m'.pending))
    (hdeleting : m'.deleting.Perm (if e.kind = .dead then e :: m.deleting else m.deleting))
    (hsep : e.kind = .dead → m.peers.kind e.node ≠ some .dead → ⟨.alive, e.node⟩ ∉ m.pending) :
    Agreed m' := by
  have hkind : m.peers.kind e.node ≠ some e.kind := by
    rw [Ne, ← Peers.record_eq_none, hnew]
    exact Option.some_ne_none _
  have haddrs : m'.peers.addrs = m.peers.addrs := by
    rw [Peers.record_eq_some hnew]
    rfl
  refine ⟨fun x => ?_, ?_⟩
  · have hphase := h.phase x
    have hjoins := hpending.count_eq ⟨.alive, x⟩
    rw [List.count_cons] at hjoins
    rw [haddrs, Peers.kind_of_record hnew, hdeleting.count_eq]
    obtain ⟨kind, node⟩ := e
    by_cases hx : x = node
    · subst hx
      rw [if_pos rfl]
      cases kind with
      | alive =>
        rw [if_pos (beq_self_eq_true _)] at hjoins
        rw [hjoins] at hphase
        exact hphase.recordAlive
      | dead =>
        have hidle := List.count_eq_zero_of_not_mem (hsep rfl hkind)
        rw [hidle] at hphase hjoins
        rw [if_pos rfl, List.count_cons_self]
        have hjoins' : m'.pending.count ⟨.alive, x⟩ = 0 := by omega
        rw [hjoins']
        exact hphase.recordDead hkind
    · have hne : ∀ k k' : EventKind, (⟨k, node⟩ : Event) ≠ ⟨k', x⟩ :=
        fun _ _ heq => hx (congrArg Event.node heq).symm
      have hremovals : (if kind = .dead then (⟨kind, node⟩ : Event) :: m.deleting
          else m.deleting).count ⟨.dead, x⟩ = m.deleting.count ⟨.dead, x⟩ := by
        split_ifs
        · exact List.count_cons_of_ne (hne _ _)
        · rfl
      rw [if_neg (by simp [hne]), Nat.add_zero] at hjoins
      rw [if_neg hx, hremovals, ← hjoins]
      exact hphase
  · intro e' he'
    rw [hdeleting.mem_iff] at he'
    split_ifs at he' with hdead
    · rcases List.mem_cons.mp he' with rfl | he'
      · exact hdead
      · exact h.dead e' he'
    · exact h.dead e' he'

theorem Agreed.deleted (h : Agreed m) (hpeers : m'.peers = (m.peers.delete e.node).2)
    (hpending : m'.pending.Perm m.pending) (hdeleting : m.deleting.Perm (e :: m'.deleting)) :
    Agreed m' := by
  have hdead : e.kind = .dead := h.dead e (hdeleting.mem_iff.mpr List.mem_cons_self)
  refine ⟨fun x => ?_, fun e' he' => h.dead e' (hdeleting.mem_iff.mpr (List.mem_cons_of_mem _ he'))⟩
  have hphase := h.phase x
  have hremovals := hdeleting.count_eq ⟨.dead, x⟩
  have hkind : (m.peers.delete e.node).2.kind x = m.peers.kind x := rfl
  rw [hpeers, Peers.mem_addrs_delete, hkind, hpending.count_eq]
  by_cases hx : x = e.node
  · have he : e = ⟨.dead, x⟩ := by rw [← hdead, hx]
    rw [he, List.count_cons_self] at hremovals
    rw [hremovals] at hphase
    rw [eq_false (not_and_not_right.mpr fun _ => hx)]
    exact hphase.remove
  · have hne : e ≠ ⟨.dead, x⟩ := fun heq => hx (congrArg Event.node heq).symm
    rw [List.count_cons_of_ne hne] at hremovals
    rw [← hremovals, and_iff_left hx]
    exact hphase

theorem Agreed.advance {t : Task} (h : Agreed m) (ht : t ∈ m.tasks)
    (hsep : Separate self (.advance t) m) : Agreed (m.advance t) := by
  cases advanced_advance ht with
  | ignored _ hknown hpeers hpending _ hdeleting =>
    exact h.ignored hknown hpeers hpending hdeleting
  | recorded hstage hnew hpending _ hdeleting =>
    exact h.recorded hnew hpending hdeleting (hsep hstage)
  | deleted _ hpeers hpending _ hdeleting => exact h.deleted hpeers hpending hdeleting
  | sent _ _ hpeers hpending _ hdeleting =>
    exact h.of_eq hpeers (fun x => hpending.count_eq _) hdeleting
  | blocked _ _ hsame => rwa [hsame]

end Advance

theorem Agreed.exec (h : Agreed m) {a : Action} (ha : enabled a m) (hsep : Separate self a m) :
    Agreed (exec self notify a m) := by
  cases a with
  | join draw body => exact h.join draw body hsep
  | declareDead nodes => exact h.declareDead nodes
  | advance t => exact h.advance ha hsep
  | cancel t =>
    obtain ⟨hpending, -, hdeleting⟩ := finish_send ha.1 ha.2
    exact h.of_eq rfl (fun x => hpending.count_eq _) hdeleting
  | fanOut =>
    simp only [Member.exec, fanOut]
    split
    · exact h
    · exact ⟨h.phase, h.dead⟩
  | deliver n => exact ⟨h.phase, h.dead⟩

/-- In every run in which the calls for an address do not overlap, the member list holds
exactly the addresses recorded as alive, whenever no call is in progress. -/
theorem listed_iff_alive {start : σ} {as : List Action}
    (h : ((machine self notify).restrict (Separate self)).Legal (init start) as)
    (hidle : ((machine self notify).after (init start) as).tasks = []) (x : Bytes) :
    x ∈ ((machine self notify).after (init start) as).peers.addrs ↔
      ((machine self notify).after (init start) as).peers.kind x = some .alive := by
  have hagreed := h.invariant (I := Agreed) (.init start) fun a m hm ha => hm.exec ha.1 ha.2
  rw [Machine.after_restrict] at hagreed
  generalize (machine self notify).after (init start) as = m at hagreed hidle
  have hphase := hagreed.phase x
  rw [pending, deleting, hidle] at hphase
  cases hphase with
  | settled _ _ h => exact h
  | joining hj => cases hj
  | dying _ hr => cases hr

/-- The node `a` learns about `b` in a join exchange. -/
def joinB : Action := .join id ⟨[98], [⟨[98], 1⟩]⟩

/-- The call that announces the added `b`, before or after the section that records it. -/
def aliveB (stage : Stage) : Action := .advance ⟨stage, ⟨⟨.alive, [98]⟩, some ⟨[98], 1⟩⟩, []⟩

def deadB (stage : Stage) : Action := .advance ⟨stage, ⟨⟨.dead, [98]⟩, none⟩, []⟩

/-- A machine of which only the membership matters. -/
abbrev membership : Machine (Member Unit) Action := machine [97] fun _ _ => id

/-- `Listen` hears that `b` is dead while the join that added `b` still has to send its event,
and records the death after that. -/
def cameAndWent : List Action :=
  [joinB, aliveB .record, .declareDead [[98]], aliveB .send, deadB .record, deadB .delete,
    deadB .send]

theorem listed_iff_alive_cameAndWent :
    ([98] ∈ (membership.after (init ()) cameAndWent).peers.addrs ↔
      (membership.after (init ()) cameAndWent).peers.kind [98] = some .alive) ∧
    (membership.after (init ()) cameAndWent).peers.kind [98] = some .dead :=
  ⟨listed_iff_alive (by decide) (by decide) [98], by decide⟩

/-- `Listen` hears that `b` is dead after the join added `b` and before it recorded `b` as
alive: `b` ends up recorded as alive and not in the list. -/
def overtakenJoin : List Action :=
  [joinB, .declareDead [[98]], deadB .record, deadB .delete, deadB .send, aliveB .record,
    aliveB .send]

theorem not_listed_overtakenJoin : membership.Legal (init ()) overtakenJoin ∧
    (membership.after (init ()) overtakenJoin).tasks = [] ∧
    [98] ∉ (membership.after (init ()) overtakenJoin).peers.addrs ∧
    (membership.after (init ()) overtakenJoin).peers.kind [98] = some .alive := by
  decide

end Member
end Commute.Swim
