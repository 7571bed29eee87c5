import Commute.Server.AdvertiseAddr
import Commute.Server.CausalReads
import Commute.Swim.Group

/-!
# The processes that `runServer` starts

A process runs a member of the group and a server, and the server is the notifier of the
member. A run interleaves the sections of all members and all servers, and the only thing
that passes between the two halves of a process is a notification.

Notifications carry the UDP address of a peer and the port zero. No server listens there,
so every request goes to nobody, and a server that is asked by another one does not know
it. Every server answers from the writes that were made at itself.
-/
namespace Commute.Cmd

open Crdt Gossip Server Swim

variable {ι S T R : Type}

def advertiseAddr (s : Site) : Bytes := hostPort s.settings.advertiseHost s.appPort

structure Processes (ι S T R : Type) where
  group : Group ι Unit
  servers : Servers S T R

inductive Action (ι S T R : Type) where
  | swim (a : Group.Action ι)
  | serve (a : Servers.Action S T R)

namespace Processes

def init (id : Bytes → S) : Processes ι S T R := ⟨.init fun _ => (), .init id⟩

/-- A notification that runs is a call of the server of its process. -/
def notified (site : ι → Site) : Group.Action ι → Servers S T R → Servers S T R
  | .act i (.member (.deliver c)), w => w.notify (advertiseAddr (site i)) c.peer c.kind
  | _, w => w

section Machine

variable (crc : Bytes → UInt32) (site : ι → Site) [LinearOrder S] [Inhabited S]

/-- Nobody but the member of its process notifies a server. -/
def enabled (allowed : Servers.Contexts S) : Action ι S T R → Processes ι S T R → Prop
  | .swim a, p => Group.enabled crc site (fun _ _ u => u) a p.group
  | .serve (.notify _ _ _), _ => False
  | .serve a, p => Servers.enabled allowed a p.servers

variable [DecidableEq ι] [Instant T] [Inhabited R]

def exec : Action ι S T R → Processes ι S T R → Processes ι S T R
  | .swim a, p => ⟨Group.exec crc site (fun _ _ u => u) a p.group, notified site a p.servers⟩
  | .serve a, p => { p with servers := Servers.exec a p.servers }

def machine (allowed : Servers.Contexts S) : Machine (Processes ι S T R) (Action ι S T R) :=
  ⟨enabled crc site allowed, exec crc site⟩

end Machine

end Processes

section Port

/-- A notified address, at which no server listens. -/
def Unserved (x : Bytes) : Prop := ∃ host, x = hostPort host 0

theorem formatUint_eq_zero {n : ℕ} (h : formatUint n = formatUint 0) : n = 0 := by
  have hlength : (Nat.toDigits 10 n).length ≤ 1 := by
    have hmap := congrArg List.length h
    simpa [formatUint] using hmap.le
  have hlt : n < 10 := by
    simpa using (Nat.length_toDigits_le_iff (by decide) (by decide)).mp hlength
  have hdigit : UInt8.ofNat n.digitChar.toNat = 48 := by
    rw [formatUint, Nat.toDigits_of_lt_base hlt] at h
    exact List.head_eq_of_cons_eq h
  rw [Nat.toNat_digitChar_of_lt_ten hlt] at hdigit
  have hnat := congrArg UInt8.toNat hdigit
  simp at hnat
  omega

theorem port_eq_zero {host host' : Bytes} {port : UInt16}
    (h : hostPort host port = hostPort host' 0) : port = 0 := by
  have hlength : host.length = host'.length := by
    have hindex := congrArg (lastIndexByte · 58) h
    rw [lastIndexByte_hostPort, lastIndexByte_hostPort] at hindex
    exact Option.some.inj hindex
  unfold hostPort at h
  rw [List.append_assoc, List.append_assoc] at h
  have hdigits := List.append_cancel_left (List.append_inj h hlength).2
  exact UInt16.toNat_inj.mp (formatUint_eq_zero hdigits)

theorem unserved_httpAddr {peer : Peer} (h : peer.httpPort = 0) : Unserved peer.httpAddr :=
  ⟨cutHost peer.udpAddr, by rw [Peer.httpAddr, hostPort, h]⟩

end Port

namespace Processes

section Notifying

variable {σ : Type} {crc : Bytes → UInt32} {m : Settings} {notify : Peer → EventKind → σ → σ}
  {n : Node σ}

/-- The calls of the notifier that are under way carry the port zero. -/
def Portless (n : Node σ) : Prop := ∀ c ∈ n.member.notifying, c.peer.httpPort = 0

theorem Portless.exec (h : Portless n) (a : Node.Action) :
    Portless (Node.exec crc m notify a n) := by
  have hstep : Node.MemberStep m notify a n (Node.exec crc m notify a n) := Node.memberStep_exec a
  unfold Portless at h ⊢
  cases hstep with
  | same hmember => rwa [hmember]
  | act b _ hmember =>
    rw [hmember]
    cases b with
    | join | declareDead | cancel => exact h
    | advance t =>
      simp only [Member.exec, (Member.advance_notified t n.member).1]
      exact h
    | fanOut =>
      simp only [Member.exec, Member.fanOut]
      split
      · exact h
      · exact List.forall_mem_cons.mpr ⟨rfl, h⟩
    | deliver c => exact fun c' hc' => h c' (List.mem_of_mem_erase hc')
  | probe _ _ _ _ _ _ hmember => rwa [hmember]

end Notifying

section Apart

/-- No server gossips with another one: it knows only addresses at which nobody listens. -/
structure Apart (site : ι → Site) (w : Servers S T R) : Prop where
  peers : ∀ a, ∀ x ∈ (w.server a).peers, (∃ i, a = advertiseAddr (site i)) ∧ Unserved x
  loop : ∀ a call, (w.server a).loop = some call →
    (∃ i, a = advertiseAddr (site i)) ∧ Unserved call.peer
  requests : ∀ r ∈ w.requests, (∃ i, r.src = advertiseAddr (site i)) ∧ Unserved r.dst
  merging : w.merging = []
  acks : w.acks = []
  acking : w.acking = []

variable {site : ι → Site} {w w' : Servers S T R}

theorem server_put (w : Servers S T R) (a b : Bytes) (srv : ServerState S T R) :
    (w.put a srv).server b = if b = a then srv else w.server b :=
  Function.update_apply _ _ _ _

theorem Apart.init (site : ι → Site) (id : Bytes → S) :
    Apart site (Servers.init id : Servers S T R) where
  peers a := List.forall_mem_nil _
  loop a call hcall := by cases hcall
  requests := List.forall_mem_nil _
  merging := rfl
  acks := rfl
  acking := rfl

theorem Apart.put (h : Apart site w) {a : Bytes} {srv : ServerState S T R}
    (hpeers : ∀ x ∈ srv.peers, (∃ i, a = advertiseAddr (site i)) ∧ Unserved x)
    (hloop : ∀ call, srv.loop = some call →
      (∃ i, a = advertiseAddr (site i)) ∧ Unserved call.peer) : Apart site (w.put a srv) := by
  refine { h with peers := fun b x hx => ?_, loop := fun b call hcall => ?_ }
  · rw [server_put] at hx
    split_ifs at hx with hb
    · exact hb ▸ hpeers x hx
    · exact h.peers b x hx
  · rw [server_put] at hcall
    split_ifs at hcall with hb
    · exact hb ▸ hloop call hcall
    · exact h.loop b call hcall

theorem Apart.putStore (h : Apart site w) (a : Bytes) (st : Store Bytes S T R) :
    Apart site (w.putStore a st) :=
  h.put (h.peers a) (h.loop a)

theorem Apart.notify (h : Apart site w) (i : ι) {peer : Peer} (hport : peer.httpPort = 0)
    (kind : EventKind) : Apart site (w.notify (advertiseAddr (site i)) peer kind) := by
  refine h.put (fun x hx => ?_) (h.loop _)
  cases kind with
  | alive =>
    simp only [Server.notify] at hx
    split_ifs at hx with hmem
    · exact h.peers _ x hx
    · rcases List.mem_append.mp hx with hx | hx
      · exact h.peers _ x hx
      · rw [List.mem_singleton.mp hx]
        exact ⟨⟨i, rfl⟩, unserved_httpAddr hport⟩
  | dead => exact h.peers _ x (List.mem_of_mem_filter hx)

theorem Apart.tick (h : Apart site w) (a : Bytes) (draw : ℕ) : Apart site (w.tick a draw) := by
  unfold Servers.tick
  split
  · exact h
  · next peer hpeer =>
    refine h.put (h.peers a) fun call hcall => ?_
    obtain rfl := Option.some.inj hcall
    exact h.peers a peer (List.mem_of_getElem? hpeer)

theorem Apart.postGossip (h : Apart site w) (hports : ∀ i, (site i).appPort ≠ 0) (i : ℕ)
    (msg : Message S T R) : w.postGossip i msg = w := by
  unfold Servers.postGossip
  split
  · rfl
  · next r hr =>
    split_ifs with hmem
    · obtain ⟨⟨j, hj⟩, -⟩ := h.requests r (List.mem_of_getElem? hr)
      obtain ⟨-, host, hhost⟩ := h.peers r.dst r.src (List.contains_iff_mem.mp hmem)
      exact absurd (port_eq_zero (hj.symm.trans hhost)) (hports j)
    · rfl

variable [LinearOrder S] [Inhabited S] [Instant T]

theorem Apart.delta (h : Apart site w) (a : Bytes) : Apart site (w.delta a) := by
  unfold Servers.delta
  cases hcall : (w.server a).loop with
  | none => exact h
  | some call =>
    have hpeer := h.loop a call hcall
    dsimp only
    split
    · refine h.put (h.peers a) fun call' hcall' => ?_
      obtain rfl := Option.some.inj hcall'
      exact hpeer
    · have hidle : Apart site (w.put a { w.server a with
          store := ((w.store a).deltaSection call.lock call.peer call.draft).2, loop := none }) :=
        h.put (h.peers a) fun call' hcall' => by cases hcall'
      refine { hidle with requests := List.forall_mem_append.mpr ⟨fun r hr => ?_, h.requests⟩ }
      obtain ⟨msg, -, rfl⟩ := Option.map_eq_some_iff.mp (Option.mem_toList.mp hr)
      exact hpeer

variable [Inhabited R]

theorem Apart.exec (h : Apart site w) (hports : ∀ i, (site i).appPort ≠ 0)
    (a : Servers.Action S T R) (ha : ∀ b peer kind, a ≠ .notify b peer kind) :
    Apart site (Servers.exec a w) := by
  cases a with
  | incrementCounter a key value => exact { h.putStore a _ with }
  | decrementCounter a key value => exact { h.putStore a _ with }
  | setRegister a key value now => exact { h.putStore a _ with }
  | addSet a key value vv =>
    have hlogged : Apart site (w.logSet a key value vv true) := { h with }
    exact hlogged.putStore a _
  | removeSet a key value vv =>
    have hlogged : Apart site (w.logSet a key value vv false) := { h with }
    simp only [Servers.exec, Servers.removeSet]
    split_ifs
    · exact hlogged.putStore a _
    · exact h.putStore a _
  | getSet a key => exact { h with }
  | notify b peer kind => exact absurd rfl (ha b peer kind)
  | tick a draw => exact h.tick a draw
  | delta a => exact h.delta a
  | postGossip i msg =>
    simp only [Servers.exec]
    rwa [h.postGossip hports]
  | merge i => simpa [Servers.exec, Servers.merge, h.merging] using h
  | postAck i => simpa [Servers.exec, Servers.postAck, h.acks] using h
  | ack i => simpa [Servers.exec, Servers.ack, h.acking] using h

end Apart

section Own

theorem apply_putPast {β : Type} {w : Servers S T R} (f : Past S → β) {a : Bytes} {q : Past S}
    (hq : f q = f (w.past a)) (b : Bytes) : f ((w.putPast a q).past b) = f (w.past b) := by
  rw [Servers.past_putPast]
  split_ifs with hb
  · rw [hq, hb]
  · rfl

variable [LinearOrder S]

/-- Every server has heard of exactly the writes that were made at itself. -/
structure Own (id : Bytes → S) (w : Servers S T R) : Prop where
  counters : ∀ a, Marks (fun u => u.store = a) (w.past a).counters w.updates
  registers : ∀ a, Marks (fun x => x.2.writerID = id a) (w.past a).registers w.writes
  sets : ∀ a e, Marks (fun ev => ev.node = id a) (numbersOf (w.past a).sets e)
    (w.history.journal e)

variable {id : Bytes → S} {site : ι → Site} {w w' : Servers S T R}

theorem Own.init (id : Bytes → S) : Own id (Servers.init id : Servers S T R) :=
  ⟨fun _ => .nil _, fun _ => .nil _, fun _ _ => .nil _⟩

theorem Own.of_eq (h : Own id w) (hpast : w'.past = w.past) (hupdates : w'.updates = w.updates)
    (hwrites : w'.writes = w.writes) (hjournal : w'.history.journal = w.history.journal) :
    Own id w' where
  counters := by rw [hpast, hupdates]; exact h.counters
  registers := by rw [hpast, hwrites]; exact h.registers
  sets := by rw [hpast, hjournal]; exact h.sets

theorem Own.counter (h : Own id w) {a : Bytes} {u : CounterUpdate Bytes S} (hu : u.store = a)
    (hpast : w'.past = (w.putPast a { w.past a with
      counters := insert w.updates.length (w.past a).counters }).past)
    (hupdates : w'.updates = u :: w.updates) (hwrites : w'.writes = w.writes)
    (hjournal : w'.history.journal = w.history.journal) : Own id w' := by
  refine ⟨fun b => ?_, fun b => ?_, fun b e => ?_⟩
  · rw [hpast, Servers.past_putPast, hupdates]
    split_ifs with hb
    · subst hb
      exact (h.counters b).cons hu
    · exact (h.counters b).cons_of_not (by rw [hu]; exact fun heq => hb heq.symm)
  · rw [hpast, apply_putPast Past.registers, hwrites]
    · exact h.registers b
    · rfl
  · rw [hpast, apply_putPast Past.sets, hjournal]
    · exact h.sets b e
    · rfl

theorem Own.register (h : Own id w) (hid : Function.Injective id) {a : Bytes} {key : S}
    {e : LWWEntry S T R} (he : e.writerID = id a)
    (hpast : w'.past = (w.putPast a { w.past a with
      registers := insert w.writes.length (w.past a).registers }).past)
    (hupdates : w'.updates = w.updates) (hwrites : w'.writes = (key, e) :: w.writes)
    (hjournal : w'.history.journal = w.history.journal) : Own id w' := by
  refine ⟨fun b => ?_, fun b => ?_, fun b e => ?_⟩
  · rw [hpast, apply_putPast Past.counters, hupdates]
    · exact h.counters b
    · rfl
  · rw [hpast, Servers.past_putPast, hwrites]
    split_ifs with hb
    · subst hb
      exact (h.registers b).cons he
    · exact (h.registers b).cons_of_not (by rw [he]; exact fun heq => hb (hid heq).symm)
  · rw [hpast, apply_putPast Past.sets, hjournal]
    · exact h.sets b e
    · rfl

theorem Own.set (h : Own id w) (hid : Function.Injective id) {a : Bytes} {e : S × S}
    {ev : Crdt.Event S Bool} (hev : ev.node = id a)
    (hpast : w'.past = (w.putPast a { w.past a with
      sets := insert (e, (w.history.journal e).length) (w.past a).sets }).past)
    (hupdates : w'.updates = w.updates) (hwrites : w'.writes = w.writes)
    (hhistory : w'.history = w.history.log e ev) : Own id w' := by
  refine ⟨fun b => ?_, fun b => ?_, fun b e' => ?_⟩
  · rw [hpast, apply_putPast Past.counters, hupdates]
    · exact h.counters b
    · rfl
  · rw [hpast, apply_putPast Past.registers, hwrites]
    · exact h.registers b
    · rfl
  · rw [hpast, Servers.past_putPast, hhistory, log_journal]
    by_cases hb : b = a <;> by_cases he : e' = e
    · subst hb he
      rw [if_pos rfl, if_pos rfl, numbersOf_insert_self]
      exact (h.sets b e').cons hev
    · have hnumbers : numbersOf (insert (e, (w.history.journal e).length) (w.past a).sets) e' =
          numbersOf (w.past a).sets e' := by
        ext n
        simp [mem_numbersOf, he]
      rw [if_pos hb, if_neg he, hnumbers, ← hb]
      exact h.sets b e'
    · subst he
      rw [if_neg hb, if_pos rfl]
      exact (h.sets b e').cons_of_not (by rw [hev]; exact fun heq => hb (hid heq).symm)
    · rw [if_neg hb, if_neg he]
      exact h.sets b e'

variable [Inhabited S] [Instant T] [Inhabited R]

/-- Among servers that do not reach each other, nobody hears of the writes of another one. -/
theorem Own.exec (h : Own id w) (hid : Function.Injective id)
    (hnode : ∀ a, (w.store a).nodeID = id a) (hapart : Apart site w)
    (hports : ∀ i, (site i).appPort ≠ 0) (a : Servers.Action S T R) :
    Own id (Servers.exec a w) := by
  cases a with
  | incrementCounter a key value => exact h.counter (u := ⟨a, key, true, value⟩) rfl rfl rfl rfl rfl
  | decrementCounter a key value =>
    exact h.counter (u := ⟨a, key, false, value⟩) rfl rfl rfl rfl rfl
  | setRegister a key value now => exact h.register hid (hnode a) rfl rfl rfl rfl
  | addSet a key value vv => exact h.set hid (hnode a) rfl rfl rfl rfl
  | removeSet a key value vv =>
    simp only [Servers.exec, Servers.removeSet]
    split_ifs
    · exact h.set hid (hnode a) rfl rfl rfl rfl
    · exact h.of_eq rfl rfl rfl rfl
  | getSet a key => exact h.of_eq rfl rfl rfl rfl
  | notify a peer kind => exact h.of_eq rfl rfl rfl rfl
  | tick a draw =>
    simp only [Servers.exec, Servers.tick]
    split
    · exact h
    · exact h.of_eq rfl rfl rfl rfl
  | delta a =>
    simp only [Servers.exec, Servers.delta]
    split
    · exact h
    · split <;> exact h.of_eq rfl rfl rfl rfl
  | postGossip i msg =>
    simp only [Servers.exec]
    rwa [hapart.postGossip hports]
  | merge i => simpa [Servers.exec, Servers.merge, hapart.merging] using h
  | postAck i => simpa [Servers.exec, Servers.postAck, hapart.acks] using h
  | ack i => simpa [Servers.exec, Servers.ack, hapart.acking] using h

end Own

section Runs

variable [LinearOrder S] [Inhabited S] [Instant T] [Inhabited R]

structure Isolated (site : ι → Site) (id : Bytes → S) (allowed : Servers.Contexts S)
    (p : Processes ι S T R) : Prop where
  notifying : ∀ i, Portless (p.group.node i)
  reaches : (Servers.machine allowed).Reaches (Servers.init id) p.servers
  apart : Apart site p.servers
  own : Own id p.servers

theorem Isolated.init (site : ι → Site) (id : Bytes → S) (allowed : Servers.Contexts S) :
    Isolated site id allowed (init id : Processes ι S T R) :=
  ⟨fun _ => List.forall_mem_nil _, .refl _, .init site id, .init id⟩

variable [DecidableEq ι] {crc : Bytes → UInt32} {site : ι → Site} {id : Bytes → S}
  {allowed : Servers.Contexts S} {p : Processes ι S T R}

theorem Isolated.exec (h : Isolated site id allowed p) (hid : Function.Injective id)
    (hports : ∀ i, (site i).appPort ≠ 0) (a : Action ι S T R)
    (ha : enabled crc site allowed a p) : Isolated site id allowed (exec crc site a p) := by
  have hnode := (Servers.refines_of_reaches h.reaches).nodeID
  cases a with
  | serve a =>
    have hnotify : ∀ b peer kind, a ≠ .notify b peer kind := by
      rintro b peer kind rfl
      exact ha
    have henabled : Servers.enabled allowed a p.servers := by
      cases a with
      | notify b peer kind => exact ha.elim
      | _ => exact ha
    exact ⟨h.notifying, h.reaches.trans (.step a henabled), h.apart.exec hports a hnotify,
      h.own.exec hid hnode h.apart hports a⟩
  | swim a =>
    cases a with
    | asJoinBody i => exact { h with }
    | act i a =>
      have hnotifying : ∀ j, Portless ((Group.exec crc site (fun _ _ u => u)
          (.act i a) p.group).node j) := by
        intro j
        simp only [Group.exec]
        by_cases hij : j = i
        · subst hij
          rw [Function.update_self]
          exact (h.notifying j).exec a
        · rw [Function.update_of_ne hij]
          exact h.notifying j
      -- nothing but a notification passes from the member to the server
      cases a with
      | member a =>
        cases a with
        | deliver c =>
          have hport := h.notifying i c ha.1.2.2
          exact ⟨hnotifying,
            h.reaches.trans (.step (M := Servers.machine allowed)
              (Servers.Action.notify (advertiseAddr (site i)) c.peer c.kind) trivial),
            h.apart.notify i hport c.kind, h.own.of_eq rfl rfl rfl rfl⟩
        | _ => exact ⟨hnotifying, h.reaches, h.apart, h.own⟩
      | _ => exact ⟨hnotifying, h.reaches, h.apart, h.own⟩

theorem isolated_of_reaches (hid : Function.Injective id) (hports : ∀ i, (site i).appPort ≠ 0)
    (h : (machine crc site allowed).Reaches (init id) p) : Isolated site id allowed p := by
  obtain ⟨as, has, rfl⟩ := h
  exact has.invariant (.init site id allowed) fun a p hp ha => hp.exec hid hports a ha

/-- In a group of processes that serve on real ports, gossip goes to addresses at which nobody
listens, no server takes a message or an acknowledgement from another one, and every server
answers from the writes that were made at itself. -/
theorem answers_own [LinearOrder T] [LinearInstant T] (hid : Function.Injective id)
    (hports : ∀ i, (site i).appPort ≠ 0)
    (h : (machine crc site fun v => v.OwnReturned).Reaches (init id) p)
    (hfit : ∀ isIncrement key i, nodeTotal id p.servers.updates isIncrement key i < 2 ^ 64)
    (a : Bytes) (key value : S) :
    (∀ r ∈ p.servers.requests, ∀ i, r.dst ≠ advertiseAddr (site i)) ∧
      p.servers.merging = [] ∧ p.servers.acking = [] ∧
      ((p.servers.store a).getCounter key).1.toInt =
        ((total (p.servers.updates.filter fun u => u.store = a) true key : ℤ) -
          total (p.servers.updates.filter fun u => u.store = a) false key).bmod (2 ^ 64) ∧
      (((p.servers.store a).getRegister key).2 = true ↔
        ∃ e, (key, e) ∈ p.servers.writes ∧ e.writerID = id a) ∧
      (((p.servers.store a).getRegister key).2 = true →
        ∃ e : LWWEntry S T R, ((p.servers.store a).getRegister key).1 = e.value ∧
          (e = default ∨ ((key, e) ∈ p.servers.writes ∧ e.writerID = id a)) ∧
          ∀ e', (key, e') ∈ p.servers.writes → e'.writerID = id a → e'.stamp ≤ e.stamp) ∧
      (value ∈ ((p.servers.store a).getSet key).1 ↔
        ∃ ev ∈ p.servers.history.journal (key, value), ev.node = id a ∧ ev.value = true ∧
          ∀ ev' ∈ p.servers.history.journal (key, value), ev'.node = id a →
            ev'.context.get ev.node < ev.dot) := by
  have hp := isolated_of_reaches hid hports h
  have hrefines := Servers.refines_of_reaches hp.reaches
  have hwrites : ∀ e, (key, e) ∈ known (p.servers.past a).registers p.servers.writes ↔
      (key, e) ∈ p.servers.writes ∧ e.writerID = id a := by
    rw [(hp.own.registers a).known_eq]
    simp
  refine ⟨fun r hr i heq => ?_, hp.apart.merging, hp.apart.acking, ?_, ?_, ?_, ?_⟩
  · obtain ⟨-, host, hhost⟩ := hp.apart.requests r hr
    exact hports i (port_eq_zero (heq.symm.trans hhost))
  · rw [← (hp.own.counters a).known_eq]
    exact (hrefines.getCounter hid hfit a key).1
  · simp only [(hrefines.getRegister a key).1, hwrites]
  · intro hfound
    obtain ⟨e, hvalue, hwritten, hlatest⟩ := (hrefines.getRegister a key).2 hfound
    simp only [hwrites] at hwritten hlatest
    exact ⟨e, hvalue, hwritten, fun e' he' hwriter => hlatest e' ⟨he', hwriter⟩⟩
  · have hheard := (hp.own.sets a (key, value)).known_eq
    rw [hrefines.mem_getSet_iff hid, SetHistory.heard, hheard]
    simp [and_assoc]

end Runs

/-- The member of the first of two processes learns of the second one and notifies its
server. -/
def meeting : List (Group.Action Bool) :=
  let b : Bytes := [98, 58, 49]
  let a : Announcement := ⟨⟨.alive, b⟩, some ⟨b, 1⟩⟩
  [.asJoinBody true, .act false (.member (.join id ⟨b, [⟨b, 1⟩]⟩)),
    .act false (.member (.advance ⟨.record, a, []⟩)),
    .act false (.member (.advance ⟨.send, a, []⟩)), .act false .fanOut,
    .act false (.member (.deliver ⟨newPeer b, .alive, some ⟨b, 1⟩⟩))]

/-- The server takes an increment and gossips. -/
def gossiping : List (Servers.Action ℕ ℕ ℕ) :=
  let a : Bytes := [97, 58, 49]
  [.incrementCounter a 7 5, .tick a 0, .delta a, .delta a, .delta a]

def twoProcesses : List (Action Bool ℕ ℕ ℕ) := meeting.map .swim ++ gossiping.map .serve

abbrev pairMachine : Machine (Processes Bool ℕ ℕ ℕ) (Action Bool ℕ ℕ ℕ) :=
  machine crc32 Group.pair fun v => v.OwnReturned

def met : Processes Bool ℕ ℕ ℕ := pairMachine.after (init Servers.bytesID) twoProcesses

theorem reaches_met : pairMachine.Reaches (init Servers.bytesID) met := by
  have hmeeting : (Group.machine crc32 Group.pair fun _ _ u => u).Legal (.init fun _ => ())
      meeting := by decide +kernel
  obtain ⟨h₁, h₂, h₃, h₄, h₅, h₆, -⟩ := hmeeting
  exact ⟨twoProcesses,
    ⟨h₁, h₂, h₃, h₄, h₅, h₆, trivial, rfl, trivial, trivial, trivial, trivial⟩, rfl⟩

theorem answers_own_met :
    (met.servers.requests.map fun r => r.dst) = [[98, 58, 48]] ∧
      total met.servers.updates true 7 = 5 ∧
      ((met.servers.store [98, 58, 49]).getCounter 7).1.toInt = 0 := by
  have hports : ∀ i, (Group.pair i).appPort ≠ 0 := by decide
  have hfit : ∀ isIncrement key i,
      nodeTotal Servers.bytesID met.servers.updates isIncrement key i < 2 ^ 64 :=
    fun _ _ _ => (nodeTotal_le_sum _ _ _ _ _).trans_lt (by decide +kernel)
  have hanswers := answers_own Servers.bytesID_injective hports reaches_met hfit [98, 58, 49] 7 0
  exact ⟨by decide +kernel, by decide +kernel, hanswers.2.2.2.1.trans (by decide +kernel)⟩

end Processes
end Commute.Cmd
