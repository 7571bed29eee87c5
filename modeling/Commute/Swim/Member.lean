import Commute.Foundation.FiniteMap
import Commute.Foundation.Machine
import Commute.Swim.Message

/-!
# Membership changes and their announcement

A join exchange adds peers to the member list and announces each of them as
alive; a failed probe or a piggybacked event announces a peer as dead. An
announcement passes through the lock-protected sections of `process`, the events
channel, and the fan-out of `Start`, which calls the notifier in a goroutine of
its own.

The state of a `Member` has the goroutines that are inside `process`, the
channel and the pending notifications; an action is one section of one goroutine.
An announcement remembers the peer whose addition caused it. This is a history
variable that no action reads.
-/
namespace Commute.Swim

structure Peer where
  udpAddr : Bytes
  httpPort : UInt16
deriving DecidableEq

def newPeer (udpAddr : Bytes) : Peer := ⟨udpAddr, 0⟩

/-- What `strings.Cut` finds before the first colon. -/
def cutHost (addr : Bytes) : Bytes := addr.takeWhile fun b => b ≠ 58

def formatUint (n : ℕ) : Bytes := (Nat.toDigits 10 n).map fun c => UInt8.ofNat c.toNat

def Peer.httpAddr (p : Peer) : Bytes := cutHost p.udpAddr ++ [58] ++ formatUint p.httpPort.toNat

structure JoinPeer where
  udpAddr : Bytes
  httpPort : UInt16

structure JoinBody where
  src : Bytes
  peers : List JoinPeer

/-- The member list, the last event of every address, and the addresses known to be dead. -/
structure Peers where
  peers : List Peer
  state : FMap Bytes Event
  deadPeers : FMap Bytes Unit

def swap {α : Type} (xs : List α) (i j : ℕ) : List α :=
  match xs[i]?, xs[j]? with
  | some a, some b => (xs.set i b).set j a
  | _, _ => xs

namespace Peers

def new : Peers := ⟨[], ∅, ∅⟩

/-- One entry of a join body; `draw n` is what the random source returns for `IntN(n)`. -/
def joinEntry (self : Bytes) (draw : ℕ → ℕ) (st : Peers × List Peer) (jp : JoinPeer) :
    Peers × List Peer :=
  if jp.udpAddr = self then st
  else if (st.1.deadPeers.lookup jp.udpAddr).isSome then st
  else if st.1.peers.any fun q => q.udpAddr = jp.udpAddr then st
  else
    let peers := st.1.peers ++ [⟨jp.udpAddr, jp.httpPort⟩]
    ({ st.1 with peers := swap peers (peers.length - 1) (draw peers.length % peers.length) },
      st.2 ++ [⟨jp.udpAddr, jp.httpPort⟩])

/-- The member list after a join exchange, and the peers it added. The source of the
exchange is alive; what it says about others does not bring back the dead. -/
def join (self : Bytes) (draw : ℕ → ℕ) (body : JoinBody) (p : Peers) : Peers × List Peer :=
  body.peers.foldl (joinEntry self draw) ({ p with deadPeers := p.deadPeers.erase body.src }, [])

def delete (peer : Bytes) (p : Peers) : Bool × Peers :=
  (p.peers.any fun q => q.udpAddr = peer,
    { p with
      peers := p.peers.filter fun q => q.udpAddr ≠ peer
      deadPeers := p.deadPeers.insert peer () })

/-- The first section of `process`: nothing happens if the event is known already. -/
def record (e : Event) (p : Peers) : Option Peers :=
  if (p.state.lookup e.node).any fun known => known.kind = e.kind then none
  else some { p with state := p.state.insert e.node e }

theorem record_eq_some {p p' : Peers} {e : Event} (h : p.record e = some p') :
    p' = { p with state := p.state.insert e.node e } := by
  unfold record at h
  split_ifs at h
  exact (Option.some.inj h).symm

end Peers

/-- An event on its way to the notifier and the peer whose addition caused it. -/
structure Announcement where
  event : Event
  origin : Option Peer
deriving DecidableEq

inductive Stage where
  | record
  | delete
  | send
deriving DecidableEq

/-- A goroutine inside `process`, with the calls it makes afterwards. -/
structure Task where
  stage : Stage
  current : Announcement
  rest : List Announcement
deriving DecidableEq

/-- A call of `Notify` that has not run yet. -/
structure Notification where
  peer : Peer
  kind : EventKind
  origin : Option Peer
deriving DecidableEq

/-- An announcement with an origin says that the origin is alive. -/
def Announcement.Genuine (a : Announcement) : Prop :=
  ∀ p, a.origin = some p → a.event = ⟨.alive, p.udpAddr⟩

/-- A notification for an added peer is about its address and has lost its port. -/
def Notification.Genuine (n : Notification) : Prop :=
  ∀ p, n.origin = some p → n.peer = newPeer p.udpAddr ∧ n.kind = .alive

/-- A call of `Notify` that has run, and what it left behind. -/
structure Delivery (σ : Type) where
  call : Notification
  after : σ

structure Member (σ : Type) where
  peers : Peers
  tasks : List Task
  events : List Announcement
  notifying : List Notification
  notifier : σ
  delivered : List (Delivery σ)

namespace Member

variable {σ : Type}

def init (notifier : σ) : Member σ := ⟨.new, [], [], [], notifier, []⟩

/-- A goroutine that calls `process` for one announcement after the other. -/
def start : List Announcement → List Task
  | [] => []
  | a :: rest => [⟨.record, a, rest⟩]

/-- The join section, after which every added peer is announced as alive. -/
def join (self : Bytes) (draw : ℕ → ℕ) (body : JoinBody) (m : Member σ) : Member σ :=
  let joined := m.peers.join self draw body
  { m with
    peers := joined.1
    tasks := start (joined.2.map fun p => ⟨⟨.alive, p.udpAddr⟩, some p⟩) ++ m.tasks }

/-- `Listen` read a message that says that nodes are dead, or `Probe` got no answer. -/
def declareDead (nodes : List Bytes) (m : Member σ) : Member σ :=
  { m with tasks := start (nodes.map fun node => ⟨⟨.dead, node⟩, none⟩) ++ m.tasks }

def finish (t : Task) (m : Member σ) : Member σ :=
  { m with tasks := start t.rest ++ m.tasks.erase t }

/-- The goroutine goes on to another section of the same call. -/
def enter (t : Task) (stage : Stage) (m : Member σ) : Member σ :=
  { m with tasks := { t with stage := stage } :: m.tasks.erase t }

def eventsCap : ℕ := 64

/-- A goroutine runs its next section. A send waits until the channel has room. -/
def advance (t : Task) (m : Member σ) : Member σ :=
  match t.stage with
  | .record =>
    match m.peers.record t.current.event with
    | none => m.finish t
    | some peers =>
      match t.current.event.kind with
      | .alive => { m with peers := peers }.enter t .send
      | .dead => { m with peers := peers }.enter t .delete
  | .delete => { m with peers := (m.peers.delete t.current.event.node).2 }.enter t .send
  | .send =>
    if m.events.length < eventsCap then { m with events := m.events ++ [t.current] }.finish t
    else m

/-- The fan-out takes one event from the channel and starts a notification. It also puts
the event into the queue for piggybacking, which no action here reads. -/
def fanOut (m : Member σ) : Member σ :=
  match m.events with
  | [] => m
  | a :: events =>
    { m with
      events := events
      notifying := ⟨newPeer a.event.node, a.event.kind, a.origin⟩ :: m.notifying }

def deliver (notify : Peer → EventKind → σ → σ) (n : Notification) (m : Member σ) : Member σ :=
  let after := notify n.peer n.kind m.notifier
  { m with
    notifying := m.notifying.erase n
    notifier := after
    delivered := ⟨n, after⟩ :: m.delivered }

inductive Action where
  | join (draw : ℕ → ℕ) (body : JoinBody)
  | declareDead (nodes : List Bytes)
  | advance (t : Task)
  | cancel (t : Task)
  | fanOut
  | deliver (n : Notification)

/-- The context of a call may end while it waits to send its event. -/
def enabled : Action → Member σ → Prop
  | .advance t, m => t ∈ m.tasks
  | .cancel t, m => t ∈ m.tasks ∧ t.stage = .send
  | .deliver n, m => n ∈ m.notifying
  | _, _ => True

def exec (self : Bytes) (notify : Peer → EventKind → σ → σ) : Action → Member σ → Member σ
  | .join draw body, m => m.join self draw body
  | .declareDead nodes, m => m.declareDead nodes
  | .advance t, m => m.advance t
  | .cancel t, m => m.finish t
  | .fanOut, m => m.fanOut
  | .deliver n, m => m.deliver notify n

def machine (self : Bytes) (notify : Peer → EventKind → σ → σ) : Machine (Member σ) Action :=
  ⟨enabled, exec self notify⟩

instance {self : Bytes} {notify : Peer → EventKind → σ → σ} : (a : Action) → (m : Member σ) →
    Decidable ((machine self notify).enabled a m)
  | .advance t, m => inferInstanceAs (Decidable (t ∈ m.tasks))
  | .cancel t, m => inferInstanceAs (Decidable (t ∈ m.tasks ∧ t.stage = .send))
  | .deliver n, m => inferInstanceAs (Decidable (n ∈ m.notifying))
  | .join _ _, _ | .declareDead _, _ | .fanOut, _ => .isTrue trivial

/-- Every announcement in a call of `process` or in the channel has the property. -/
structure Carries (Q : Announcement → Prop) (m : Member σ) : Prop where
  tasks : ∀ t ∈ m.tasks, ∀ a ∈ t.current :: t.rest, Q a
  events : ∀ a ∈ m.events, Q a

section Carries

variable {Q : Announcement → Prop} {m : Member σ} {t : Task}

theorem Carries.start (h : Carries Q m) {as : List Announcement} (has : ∀ a ∈ as, Q a) :
    Carries Q { m with tasks := start as ++ m.tasks } := by
  refine { h with tasks := List.forall_mem_append.mpr ⟨?_, h.tasks⟩ }
  cases as with
  | nil => exact List.forall_mem_nil _
  | cons a as => exact List.forall_mem_singleton.mpr has

theorem Carries.finish (h : Carries Q m) (ht : t ∈ m.tasks) : Carries Q (m.finish t) := by
  have hrest : Carries Q { m with tasks := m.tasks.erase t } :=
    { h with tasks := fun t' ht' => h.tasks t' (List.mem_of_mem_erase ht') }
  exact hrest.start (List.forall_mem_cons.mp (h.tasks t ht)).2

theorem Carries.enter (h : Carries Q m) (ht : t ∈ m.tasks) (stage : Stage) :
    Carries Q (m.enter t stage) :=
  { h with
    tasks := List.forall_mem_cons.mpr
      ⟨h.tasks t ht, fun t' ht' => h.tasks t' (List.mem_of_mem_erase ht')⟩ }

theorem Carries.setPeers (h : Carries Q m) (peers : Peers) :
    Carries Q { m with peers := peers } :=
  { h with }

theorem Carries.advance (h : Carries Q m) (ht : t ∈ m.tasks) : Carries Q (m.advance t) := by
  unfold Member.advance
  split
  · split
    · exact h.finish ht
    · next peers _ => split <;> exact (h.setPeers peers).enter ht _
  · exact (h.setPeers (m.peers.delete t.current.event.node).2).enter ht _
  · split_ifs
    · have hsent : Carries Q { m with events := m.events ++ [t.current] } :=
        { h with
          events := List.forall_mem_append.mpr ⟨h.events, List.forall_mem_singleton.mpr
            (List.forall_mem_cons.mp (h.tasks t ht)).1⟩ }
      exact hsent.finish ht
    · exact h

theorem Carries.fanOut (h : Carries Q m) : Carries Q m.fanOut := by
  unfold Member.fanOut
  split
  · exact h
  · next a events hevents =>
    have hall := h.events
    rw [hevents] at hall
    exact { h with events := (List.forall_mem_cons.mp hall).2 }

/-- Only the second section of `process` changes the list. -/
theorem peers_advance {t : Task} (ht : t.stage ≠ .delete) (m : Member σ) :
    (m.advance t).peers.peers = m.peers.peers := by
  unfold Member.advance
  split
  · split
    · rfl
    · next peers hrecord =>
      have hpeers := Peers.record_eq_some hrecord
      split <;> (rw [hpeers]; rfl)
  · next hstage => exact absurd hstage ht
  · split_ifs <;> rfl

theorem advance_notified (t : Task) (m : Member σ) :
    (m.advance t).notifying = m.notifying ∧ (m.advance t).delivered = m.delivered := by
  unfold Member.advance
  split
  · split
    · exact ⟨rfl, rfl⟩
    · split <;> exact ⟨rfl, rfl⟩
  · exact ⟨rfl, rfl⟩
  · split_ifs <;> exact ⟨rfl, rfl⟩

end Carries

/-- What every run keeps of the origins of announcements. -/
structure Announced (notify : Peer → EventKind → σ → σ) (m : Member σ) : Prop where
  tasks : ∀ t ∈ m.tasks, t.current.Genuine ∧ ∀ a ∈ t.rest, a.Genuine
  events : ∀ a ∈ m.events, a.Genuine
  notifying : ∀ n ∈ m.notifying, n.Genuine
  delivered : ∀ d ∈ m.delivered, d.call.Genuine ∧
    ∃ before, d.after = notify d.call.peer d.call.kind before

section Announced

variable {self : Bytes} {notify : Peer → EventKind → σ → σ} {m m' : Member σ}

theorem Announced.init (start : σ) : Announced notify (init start) :=
  ⟨by simp [Member.init], by simp [Member.init], by simp [Member.init], by simp [Member.init]⟩

theorem Announced.carries (h : Announced notify m) : Carries Announcement.Genuine m :=
  ⟨fun t ht => List.forall_mem_cons.mpr (h.tasks t ht), h.events⟩

theorem Announced.of_carries (h : Announced notify m) (hm' : Carries Announcement.Genuine m')
    (hnotifying : m'.notifying = m.notifying) (hdelivered : m'.delivered = m.delivered) :
    Announced notify m' :=
  ⟨fun t ht => List.forall_mem_cons.mp (hm'.tasks t ht), hm'.events, hnotifying ▸ h.notifying,
    hdelivered ▸ h.delivered⟩

theorem Announced.fanOut (h : Announced notify m) : Announced notify m.fanOut := by
  have hevents := h.carries.fanOut.events
  unfold Member.fanOut at hevents ⊢
  cases hm : m.events with
  | nil => exact h
  | cons a events =>
    rw [hm] at hevents
    refine { h with events := hevents, notifying := List.forall_mem_cons.mpr ⟨?_, h.notifying⟩ }
    intro p hp
    have ha := h.events a (by rw [hm]; exact List.mem_cons_self) p hp
    exact ⟨congrArg (fun e => newPeer e.node) ha, congrArg Event.kind ha⟩

theorem Announced.deliver (h : Announced notify m) {n : Notification} (hn : n ∈ m.notifying) :
    Announced notify (m.deliver notify n) :=
  { h with
    notifying := fun n' hn' => h.notifying n' (List.mem_of_mem_erase hn')
    delivered := List.forall_mem_cons.mpr ⟨⟨h.notifying n hn, _, rfl⟩, h.delivered⟩ }

theorem Announced.exec (h : Announced notify m) {a : Action} (ha : enabled a m) :
    Announced notify (exec self notify a m) := by
  cases a with
  | join draw body =>
    refine h.of_carries ((h.carries.setPeers _).start ?_) rfl rfl
    simp only [List.forall_mem_map]
    intro p _ q hq
    rw [Option.some.inj hq]
  | declareDead nodes =>
    refine h.of_carries (h.carries.start ?_) rfl rfl
    simp [Announcement.Genuine]
  | advance t =>
    obtain ⟨hnotifying, hdelivered⟩ := advance_notified t m
    exact h.of_carries (h.carries.advance ha) hnotifying hdelivered
  | cancel t => exact h.of_carries (h.carries.finish ha.1) rfl rfl
  | fanOut => exact h.fanOut
  | deliver n => exact h.deliver ha

theorem announced_of_reaches {start : σ} (h : (machine self notify).Reaches (.init start) m) :
    Announced notify m := by
  obtain ⟨as, hlegal, rfl⟩ := h
  exact hlegal.invariant (.init start) fun a m hm ha => hm.exec ha

end Announced
end Member
end Commute.Swim
