import Commute.Swim.Outbox
import Mathlib.Data.List.Count
import Mathlib.Data.List.Nodup
import Mathlib.Data.List.Perm.Basic

/-!
# Where every pushed event is

Every event instance that was ever pushed is in the queue, held by one call of
`sendToAddr`, or dropped, and nowhere twice. Its send count is the number of
successful writes that carried it. A step can only add a new instance, move
instances, count a successful write, or drop those that reached the limit; the
accounting follows from this one description of a step.
-/
namespace Commute.Swim

/-- `heap.Pop` by its contract: it takes an item that no other one is `Less` than. -/
structure HeapPop (queue : List EventItem) (item : EventItem) (rest : List EventItem) :
    Prop where
  perm : (item :: rest).Perm queue
  least : ∀ b ∈ rest, ¬ b.sendCount < item.sendCount

inductive PopLoop : ℕ → List EventItem → List EventItem → List EventItem → Prop
  | done (queue : List EventItem) : PopLoop 0 queue [] queue
  | next {n : ℕ} {queue queue' items rest : List EventItem} {item : EventItem} :
    HeapPop queue item queue' → PopLoop n queue' items rest →
      PopLoop (n + 1) queue (item :: items) rest

theorem PopLoop.perm {n : ℕ} {queue items rest : List EventItem}
    (h : PopLoop n queue items rest) : (items ++ rest).Perm queue := by
  induction h with
  | done queue => exact .refl queue
  | next hpop _ ih => exact (ih.cons _).trans hpop.perm

/-- Popping one by one gives what the model lets a pop take. -/
theorem PopLoop.pops {n : ℕ} {queue items rest : List EventItem}
    (h : PopLoop (min n queue.length) queue items rest) : Pops n queue items rest := by
  have hloop : ∀ {m queue items rest}, PopLoop m queue items rest → items.length = m ∧
      items.Pairwise (fun a b => a.sendCount ≤ b.sendCount) ∧
      ∀ a ∈ items, ∀ b ∈ rest, a.sendCount ≤ b.sendCount := by
    intro m queue items rest h
    induction h with
    | done queue => simp
    | next hpop hrest ih =>
      obtain ⟨hlength, hsorted, hleast⟩ := ih
      have hfirst : ∀ b ∈ _ ++ _, _ ≤ EventItem.sendCount b := fun b hb =>
        Nat.le_of_not_lt (hpop.least b (hrest.perm.subset hb))
      refine ⟨by simp [hlength], ?_, ?_⟩
      · exact List.pairwise_cons.mpr ⟨fun b hb => hfirst b (List.mem_append_left _ hb), hsorted⟩
      · exact List.forall_mem_cons.mpr ⟨fun b hb => hfirst b (List.mem_append_right _ hb), hleast⟩
  obtain ⟨hlength, hsorted, hleast⟩ := hloop h
  exact ⟨h.perm, hlength, hsorted, hleast⟩

def EventItem.sent (i : EventItem) : EventItem := { i with sendCount := i.sendCount + 1 }

theorem map_number_sent (items : List EventItem) :
    (items.map EventItem.sent).map EventItem.number = items.map EventItem.number := by
  rw [List.map_map]
  rfl

variable {O : Type}

/-- The items that a call holds, counted as the write left them. -/
def Send.held (s : Send O) : List EventItem :=
  if s.stage = .written then s.items.map EventItem.sent else s.items

theorem Send.pushed_written {s : Send O} (h : s.stage = .written) (maxDisseminations : ℤ) :
    s.pushed maxDisseminations =
      s.held.filter fun i => (i.sendCount : ℤ) < maxDisseminations := by
  rw [Send.pushed, Send.held, if_pos h, if_pos h]
  rfl

theorem Send.held_of_ne {s : Send O} (h : s.stage ≠ .written) : s.held = s.items := if_neg h

theorem Send.pushed_of_ne {s : Send O} (h : s.stage ≠ .written) (maxDisseminations : ℤ) :
    s.pushed maxDisseminations = s.items := if_neg h

namespace Outbox

/-- Everything that is in the queue or on its way. -/
def items (o : Outbox O) : List EventItem := o.queue ++ o.sends.flatMap Send.held

/-- Every pushed number is at one place, and every count is the number of writes. -/
structure Accounted (carried : List ℕ) (dropped : List EventItem) (o : Outbox O) : Prop where
  once : ((o.items ++ dropped).map EventItem.number).Perm (List.range o.pushes)
  counts : ∀ i ∈ o.items ++ dropped, i.sendCount = carried.count i.number
  pushed : ∀ n ∈ carried, n < o.pushes

namespace Accounted

variable {sent : List ℕ} {gone : List EventItem} {o o' : Outbox O}

theorem nodup (h : Accounted sent gone o) : ((o.items ++ gone).map EventItem.number).Nodup :=
  h.once.nodup_iff.mpr List.nodup_range

theorem nodup_items (h : Accounted sent gone o) : (o.items.map EventItem.number).Nodup := by
  have := h.nodup
  rw [List.map_append] at this
  exact (List.nodup_append.mp this).1

theorem lt_pushes (h : Accounted sent gone o) {i : EventItem} (hi : i ∈ o.items ++ gone) :
    i.number < o.pushes :=
  List.mem_range.mp (h.once.subset (List.mem_map_of_mem hi))

theorem move (h : Accounted sent gone o) (hpushes : o'.pushes = o.pushes) {gone' : List EventItem}
    (hperm : (o'.items ++ gone').Perm (o.items ++ gone)) : Accounted sent gone' o' where
  once := by
    rw [hpushes]
    exact (hperm.map _).trans h.once
  counts i hi := h.counts i (hperm.subset hi)
  pushed n hn := hpushes ▸ h.pushed n hn

theorem push (h : Accounted sent gone o) {e : Event}
    (hitems : o'.items = ⟨o.pushes, e, 0⟩ :: o.items) (hpushes : o'.pushes = o.pushes + 1) :
    Accounted sent gone o' where
  once := by
    rw [hitems, hpushes, List.range_succ, List.cons_append, List.map_cons]
    exact (h.once.cons _).trans (List.perm_append_singleton ..).symm
  counts := by
    rw [hitems, List.cons_append]
    refine List.forall_mem_cons.mpr ⟨?_, h.counts⟩
    exact (List.count_eq_zero.mpr fun hmem => Nat.lt_irrefl _ (h.pushed _ hmem)).symm
  pushed n hn := by
    rw [hpushes]
    exact Nat.lt_succ_of_lt (h.pushed n hn)

theorem carry (h : Accounted sent gone o) {items rest : List EventItem}
    (hold : o.items.Perm (items ++ rest))
    (hnew : o'.items.Perm (items.map EventItem.sent ++ rest)) (hpushes : o'.pushes = o.pushes) :
    Accounted (sent ++ items.map EventItem.number) gone o' := by
  have hbefore : (o.items ++ gone).Perm (items ++ (rest ++ gone)) := by
    rw [← List.append_assoc]
    exact hold.append_right gone
  have hafter : (o'.items ++ gone).Perm (items.map EventItem.sent ++ (rest ++ gone)) := by
    rw [← List.append_assoc]
    exact hnew.append_right gone
  have hnodup := ((hbefore.map EventItem.number).nodup_iff).mp h.nodup
  rw [List.map_append, List.nodup_append] at hnodup
  refine ⟨?_, ?_, ?_⟩
  · rw [hpushes]
    refine (hafter.map EventItem.number).trans (.trans ?_ h.once)
    refine .trans ?_ (hbefore.map EventItem.number).symm
    rw [List.map_append, map_number_sent, ← List.map_append]
  · intro i hi
    rw [List.count_append]
    rcases List.mem_append.mp (hafter.subset hi) with hmem | hmem
    · obtain ⟨j, hj, rfl⟩ := List.mem_map.mp hmem
      have hcount : (items.map EventItem.number).count j.number = 1 :=
        List.count_eq_one_of_mem hnodup.1 (List.mem_map_of_mem hj)
      have hj' := h.counts j (hbefore.symm.subset (List.mem_append_left _ hj))
      change j.sendCount + 1 = sent.count j.number + (items.map EventItem.number).count j.number
      rw [hj', hcount]
    · have hcount : (items.map EventItem.number).count i.number = 0 :=
        List.count_eq_zero.mpr fun hin => hnodup.2.2 _ hin _ (List.mem_map_of_mem hmem) rfl
      rw [hcount, Nat.add_zero]
      exact h.counts i (hbefore.symm.subset (List.mem_append_right _ hmem))
  · intro n hn
    rw [hpushes]
    rcases List.mem_append.mp hn with hn | hn
    · exact h.pushed n hn
    · obtain ⟨j, hj, rfl⟩ := List.mem_map.mp hn
      exact h.lt_pushes (hbefore.symm.subset (List.mem_append_left _ hj))

end Accounted

/-- What holds of a call of `sendToAddr` after these actions. -/
structure Prepared (actions : List (Action O)) (s : Send O) : Prop where
  idle : s.stage = .pop → s.items = []
  written : s.stage = .written → .write { s with stage := .write } true ∈ actions
  events : s.msg.events = s.items.map EventItem.event
  length : s.items.length ≤ maxPiggybackEvents

theorem Prepared.mono {actions : List (Action O)} {s : Send O} (h : Prepared actions s)
    (a : Action O) : Prepared (actions ++ [a]) s :=
  { h with written := fun hstage => List.mem_append_left _ (h.written hstage) }

variable [DecidableEq O] (crc : Bytes → UInt32)

/-- The event instances that a successful write carries. -/
def carried : Action O → Outbox O → List ℕ
  | .write s true, _ =>
    match s.msg.marshalBinary crc with
    | .error _ => []
    | .ok _ => s.items.map EventItem.number
  | _, _ => []

def dropped (a : Action O) (o : Outbox O) : List EventItem :=
  o.items.filter fun i => i.number ∉ (exec crc a o).items.map EventItem.number

theorem items_perm {o : Outbox O} {s : Send O} (hs : s ∈ o.sends) :
    o.items.Perm (s.held ++ (o.queue ++ (o.sends.erase s).flatMap Send.held)) := by
  have hsends := (List.perm_cons_erase hs).flatMap_right Send.held
  rw [List.flatMap_cons] at hsends
  exact (hsends.append_left o.queue).trans (List.perm_append_comm_assoc ..)

variable {crc} {a : Action O} {o : Outbox O}

theorem items_pop {s : Send O} (hs : s ∈ o.sends) (hidle : s.items = []) (hstage : s.stage = .pop)
    {items rest : List EventItem} (hperm : (items ++ rest).Perm o.queue) :
    o.items.Perm (o.pop s items rest).items := by
  have hheld : s.held = [] := by rw [Send.held_of_ne (by simp [hstage]), hidle]
  have hold := items_perm hs
  rw [hheld, List.nil_append] at hold
  refine hold.trans ((hperm.symm.append_right _).trans ?_)
  rw [List.append_assoc]
  exact List.perm_append_comm_assoc ..

theorem items_write (crc : Bytes → UInt32) {s : Send O} (hs : s ∈ o.sends)
    (hstage : s.stage = .write) (ok : Bool) :
    (o.items.Perm (o.write crc s ok).items ∧ carried crc (.write s ok) o = []) ∨
    ∃ rest, o.items.Perm (s.items ++ rest) ∧
      (o.write crc s ok).items.Perm (s.items.map EventItem.sent ++ rest) ∧
      carried crc (.write s ok) o = s.items.map EventItem.number := by
  have hold := items_perm hs
  rw [Send.held_of_ne (by simp [hstage])] at hold
  unfold write
  cases hb : s.msg.marshalBinary crc with
  | error fault =>
    refine Or.inl ⟨.refl _, ?_⟩
    cases ok <;> simp [carried, hb]
  | ok b =>
    cases ok with
    | false => exact Or.inl ⟨hold.trans (List.perm_append_comm_assoc ..), rfl⟩
    | true =>
      refine Or.inr ⟨_, hold, List.perm_append_comm_assoc .., ?_⟩
      simp [carried, hb]

theorem items_pushBack {s : Send O} (hs : s ∈ o.sends) (k : ℤ) :
    o.items.Perm ((o.pushBack s k).items ++
      if s.stage = .written then s.held.filter (fun i => k ≤ (i.sendCount : ℤ)) else []) := by
  refine (items_perm hs).trans ?_
  have hitems : (o.pushBack s k).items =
      s.pushed k ++ (o.queue ++ (o.sends.erase s).flatMap Send.held) := List.append_assoc ..
  rw [hitems]
  split_ifs with hstage
  · rw [Send.pushed_written hstage]
    have hsplit := List.filter_append_perm (fun i => ((i.sendCount : ℤ) < k : Bool)) s.held
    simp only [← decide_not, Int.not_lt] at hsplit
    exact (hsplit.symm.append_right _).trans (by
      rw [List.append_assoc, List.append_assoc]
      exact List.Perm.append_left _ List.perm_append_comm)
  · rw [Send.pushed_of_ne hstage, Send.held_of_ne hstage, List.append_nil]

theorem dropped_perm (hnodup : (o.items.map EventItem.number).Nodup) {missing : List EventItem}
    (h : o.items.Perm ((exec crc a o).items ++ missing)) : (dropped crc a o).Perm missing := by
  have hnumbers := ((h.map EventItem.number).nodup_iff).mp hnodup
  rw [List.map_append, List.nodup_append] at hnumbers
  refine (h.filter _).trans ?_
  rw [List.filter_append]
  have hkept : (exec crc a o).items.filter
      (fun i => i.number ∉ (exec crc a o).items.map EventItem.number) = [] := by
    rw [List.filter_eq_nil_iff]
    intro i hi
    simpa using ⟨i, hi, rfl⟩
  have hmissing : missing.filter
      (fun i => i.number ∉ (exec crc a o).items.map EventItem.number) = missing := by
    rw [List.filter_eq_self]
    intro i hi
    exact decide_eq_true fun hmem => hnumbers.2.2 _ hmem _ (List.mem_map_of_mem hi) rfl
  rw [hkept, hmissing, List.nil_append]

theorem dropped_eq_nil
    (h : o.items.map EventItem.number ⊆ (exec crc a o).items.map EventItem.number) :
    dropped crc a o = [] := by
  unfold dropped
  rw [List.filter_eq_nil_iff]
  intro i hi
  simpa using h (List.mem_map_of_mem hi)

/-- What a step does to the items: it adds one that was never sent, moves items, counts a
successful write, or drops the items of a call that reached its limit. -/
inductive Effect (crc : Bytes → UInt32) (a : Action O) (o : Outbox O) : Prop
  | push (e : Event) (items : (exec crc a o).items = ⟨o.pushes, e, 0⟩ :: o.items)
    (pushes : (exec crc a o).pushes = o.pushes + 1) (carried : carried crc a o = [])
    (dropped : dropped crc a o = [])
  | move (items : o.items.Perm (exec crc a o).items)
    (pushes : (exec crc a o).pushes = o.pushes) (carried : carried crc a o = [])
    (dropped : dropped crc a o = [])
  | carry (s : Send O) (rest : List EventItem) (before : o.items.Perm (s.items ++ rest))
    (after : (exec crc a o).items.Perm (s.items.map EventItem.sent ++ rest))
    (pushes : (exec crc a o).pushes = o.pushes)
    (carried : carried crc a o = s.items.map EventItem.number) (dropped : dropped crc a o = [])
  | drop (s : Send O) (k : ℤ) (action : a = .pushBack s k) (stage : s.stage = .written)
    (items : o.items.Perm ((exec crc a o).items ++ dropped crc a o))
    (pushes : (exec crc a o).pushes = o.pushes) (carried : carried crc a o = [])
    (dropped : ∀ i ∈ dropped crc a o, i ∈ s.held ∧ k ≤ (i.sendCount : ℤ))

theorem effect (crc : Bytes → UInt32) (h : enabled a o)
    (hidle : ∀ s ∈ o.sends, s.stage = .pop → s.items = [])
    (hnodup : (o.items.map EventItem.number).Nodup) : Effect crc a o := by
  have hmove : o.items.Perm (exec crc a o).items → dropped crc a o = [] :=
    fun hperm => dropped_eq_nil (hperm.map _).subset
  cases a with
  | push e => exact .push e rfl rfl rfl (dropped_eq_nil (List.subset_cons_self ..))
  | start origin msg => exact .move (.refl _) rfl rfl (hmove (.refl _))
  | pop s items rest =>
    obtain ⟨-, ⟨hs, hstage⟩, hpops⟩ := h
    have hperm := items_pop hs (hidle s hs hstage) hstage hpops.perm
    exact .move hperm rfl rfl (hmove hperm)
  | write s ok =>
    obtain ⟨-, hs, hstage⟩ := h
    have hpushes : (o.write crc s ok).pushes = o.pushes := by
      unfold write
      split <;> rfl
    obtain ⟨hperm, hcarried⟩ | ⟨rest, hbefore, hafter, hcarried⟩ := items_write crc hs hstage ok
    · exact .move hperm hpushes hcarried (hmove hperm)
    · refine .carry s rest hbefore hafter hpushes hcarried (dropped_eq_nil ?_)
      refine List.Subset.trans (hbefore.map _).subset ?_
      refine List.Subset.trans ?_ (hafter.map _).symm.subset
      rw [List.map_append, List.map_append, map_number_sent]
      exact List.Subset.refl _
  | pushBack s k =>
    obtain ⟨-, hs, hstage⟩ := h
    have hperm := items_pushBack hs k
    split_ifs at hperm with hwritten
    · have hdropped : (dropped crc (.pushBack s k) o).Perm _ := dropped_perm hnodup hperm
      refine .drop s k rfl hwritten ?_ rfl rfl ?_
      · exact hperm.trans (hdropped.symm.append_left _)
      · intro i hi
        obtain ⟨hheld, hlimit⟩ := List.mem_filter.mp (hdropped.subset hi)
        exact ⟨hheld, of_decide_eq_true hlimit⟩
    · rw [List.append_nil] at hperm
      exact .move hperm rfl rfl (hmove hperm)

/-- Every step keeps the accounts, with what it carried and dropped added to them. -/
theorem Accounted.exec {sent : List ℕ} {gone : List EventItem} (h : Accounted sent gone o)
    (heffect : Effect crc a o) :
    Accounted (sent ++ carried crc a o) (gone ++ dropped crc a o) (exec crc a o) := by
  cases heffect with
  | push e items pushes carried dropped =>
    rw [carried, dropped, List.append_nil, List.append_nil]
    exact h.push items pushes
  | move items pushes carried dropped =>
    rw [carried, dropped, List.append_nil, List.append_nil]
    exact h.move pushes (items.symm.append_right _)
  | carry s rest before after pushes carried dropped =>
    rw [carried, dropped, List.append_nil]
    exact h.carry before after pushes
  | drop s k action stage items pushes carried dropped =>
    rw [carried, List.append_nil]
    apply h.move pushes
    refine (List.perm_append_comm.append_left _).trans ?_
    rw [← List.append_assoc]
    exact items.symm.append_right gone

/-- Every call is prepared and every message has room for its events. -/
structure Piggybacked (actions : List (Action O)) (o : Outbox O) : Prop where
  sends : ∀ s ∈ o.sends, Prepared actions s
  packets : ∀ p ∈ o.packets, p.msg.events.length ≤ maxPiggybackEvents

theorem Piggybacked.replace {actions : List (Action O)} (h : Piggybacked actions o)
    (a : Action O) (s : Send O) {s' : Send O} (hs' : Prepared (actions ++ [a]) s') :
    ∀ t ∈ s' :: o.sends.erase s, Prepared (actions ++ [a]) t :=
  List.forall_mem_cons.mpr ⟨hs', fun t ht => (h.sends t (List.mem_of_mem_erase ht)).mono a⟩

/-- Callers pass messages without events, as `NewMessage` makes them. -/
theorem Piggybacked.exec {actions : List (Action O)} (h : Piggybacked actions o)
    (hfresh : ∀ origin msg, a = .start origin msg → msg.events = []) (ha : enabled a o) :
    Piggybacked (actions ++ [a]) (exec crc a o) := by
  have hmono : ∀ s ∈ o.sends, Prepared (actions ++ [a]) s := fun s hs => (h.sends s hs).mono a
  cases a with
  | push e => exact ⟨hmono, h.packets⟩
  | start origin msg =>
    refine ⟨List.forall_mem_cons.mpr ⟨⟨fun _ => rfl, nofun, ?_, Nat.zero_le _⟩, hmono⟩, h.packets⟩
    exact hfresh origin msg rfl
  | pop s items rest =>
    obtain ⟨-, ⟨hs, hstage⟩, hpops⟩ := ha
    have hs' := h.sends s hs
    refine ⟨h.replace _ s ⟨nofun, nofun, ?_, hpops.length ▸ Nat.min_le_left ..⟩, h.packets⟩
    change s.msg.events ++ items.map EventItem.event = items.map EventItem.event
    rw [hs'.events, hs'.idle hstage, List.map_nil, List.nil_append]
  | write s ok =>
    obtain ⟨-, hs, hstage⟩ := ha
    have hs' := h.sends s hs
    simp only [Outbox.exec, Outbox.write]
    split
    · exact ⟨hmono, h.packets⟩
    · refine ⟨h.replace _ s { hs' with idle := ?_, written := ?_ }, ?_⟩
      · cases ok <;> exact nofun
      · cases ok with
        | false => exact nofun
        | true =>
          intro _
          rw [← hstage]
          exact List.mem_append_right _ (List.mem_singleton_self _)
      · refine List.forall_mem_append.mpr ⟨h.packets, List.forall_mem_singleton.mpr ?_⟩
        rw [hs'.events, List.length_map]
        exact hs'.length
  | pushBack s k => exact ⟨fun t ht => hmono t (List.mem_of_mem_erase ht), h.packets⟩

/-- What a step may do with the event instances, after the actions before it. -/
structure StepAccounted (crc : Bytes → UInt32) (actions : List (Action O)) (o : Outbox O)
    (a : Action O) : Prop where
  /-- Dropping takes a successful write of the same call and a count at the limit. -/
  dropped : ∀ i ∈ dropped crc a o, ∃ s k, a = .pushBack s k ∧ s.stage = .written ∧
    .write { s with stage := .write } true ∈ actions ∧ i ∈ s.held ∧ k ≤ (i.sendCount : ℤ)
  /-- A call whose write failed gives its items back as they were. -/
  failed : ∀ s k, a = .pushBack s k → s.stage = .failed → s.items ⊆ (exec crc a o).queue
  written : ∀ s ok, a = .write s ok →
    s.msg.events = s.items.map EventItem.event ∧ s.items.length ≤ maxPiggybackEvents
  popped : ∀ s items rest, a = .pop s items rest →
    ∀ i ∈ items, ∀ j ∈ (exec crc a o).queue, i.sendCount ≤ j.sendCount

theorem stepAccounted {actions : List (Action O)} (h : Piggybacked actions o)
    (hnodup : (o.items.map EventItem.number).Nodup) (ha : enabled a o) :
    StepAccounted crc actions o a where
  dropped := by
    intro i hi
    cases effect crc ha (fun s hs => (h.sends s hs).idle) hnodup with
    | push _ _ _ _ dropped | move _ _ _ dropped | carry _ _ _ _ _ _ dropped =>
      rw [dropped] at hi
      cases hi
    | drop s k action stage _ _ _ dropped =>
      subst action
      exact ⟨s, k, rfl, stage, (h.sends s ha.2.1).written stage, dropped i hi⟩
  failed := by
    rintro s k rfl hstage i hi
    refine List.mem_append_left _ ?_
    rwa [Send.pushed_of_ne (by simp [hstage])]
  written := by
    rintro s ok rfl
    have hs := h.sends s ha.2.1
    exact ⟨hs.events, hs.length⟩
  popped := by
    rintro s items rest rfl
    exact ha.2.2.least

/-- After every run of pushes and of calls with messages that have no events of their own. -/
theorem accounted_after {as : List (Action O)} (h : (machine crc O).Legal .init as)
    (hfresh : ∀ origin msg, .start origin msg ∈ as → msg.events = []) :
    Accounted ((machine crc O).emits (carried crc) .init as)
      ((machine crc O).emits (dropped crc) .init as) ((machine crc O).after .init as) ∧
    Piggybacked as ((machine crc O).after .init as) := by
  refine h.snoc_induction (P := fun as =>
    (∀ origin msg, .start origin msg ∈ as → msg.events = []) →
      Accounted ((machine crc O).emits (carried crc) .init as)
        ((machine crc O).emits (dropped crc) .init as) ((machine crc O).after .init as) ∧
      Piggybacked as ((machine crc O).after .init as)) ?_ ?_ hfresh
  · intro _
    refine ⟨⟨.refl _, List.forall_mem_nil _, List.forall_mem_nil _⟩, ?_⟩
    exact ⟨List.forall_mem_nil _, List.forall_mem_nil _⟩
  · intro as a _ ha ih hfresh
    obtain ⟨haccounted, hpiggybacked⟩ :=
      ih fun origin msg hmem => hfresh origin msg (List.mem_append_left _ hmem)
    rw [Machine.emits_append, Machine.emits_append, Machine.emits_singleton,
      Machine.emits_singleton, Machine.after_append]
    refine ⟨haccounted.exec ?_, hpiggybacked.exec ?_ ha⟩
    · exact effect crc ha (fun s hs => (hpiggybacked.sends s hs).idle) haccounted.nodup_items
    · rintro origin msg rfl
      exact hfresh origin msg (List.mem_append_right _ (List.mem_singleton_self _))

/-- At all times every pushed event instance is in the queue, held by one call, or dropped;
its count is the number of successful writes that carried it; no message carries too many
events; and every step drops, gives back and pops as it should. -/
theorem events_accounted {as : List (Action O)} (h : (machine crc O).Legal .init as)
    (hfresh : ∀ origin msg, .start origin msg ∈ as → msg.events = []) :
    Accounted ((machine crc O).emits (carried crc) .init as)
      ((machine crc O).emits (dropped crc) .init as) ((machine crc O).after .init as) ∧
    (∀ p ∈ ((machine crc O).after .init as).packets,
      p.msg.events.length ≤ maxPiggybackEvents) ∧
    ∀ before a rest, as = before ++ a :: rest →
      StepAccounted crc before ((machine crc O).after .init before) a := by
  obtain ⟨haccounted, hpiggybacked⟩ := accounted_after h hfresh
  refine ⟨haccounted, hpiggybacked.packets, ?_⟩
  rintro before a rest rfl
  obtain ⟨hbefore, ha⟩ := Machine.legal_append.mp h
  obtain ⟨haccounted', hpiggybacked'⟩ := accounted_after hbefore
    fun origin msg hmem => hfresh origin msg (List.mem_append_left _ hmem)
  exact stepAccounted hpiggybacked' haccounted'.nodup_items ha.1

/-- The death of `b` is pushed and sent twice, the first time in vain, with a limit of one. -/
def sendTwice : List (Action Unit) :=
  let item : EventItem := ⟨0, ⟨.dead, [98]⟩, 0⟩
  let msg : Message := ⟨messageVersion, .ping, [97], 1, [], []⟩
  let full : Message := { msg with events := [⟨.dead, [98]⟩] }
  [.push ⟨.dead, [98]⟩,
    .start () msg, .pop ⟨(), .pop, msg, []⟩ [item] [], .write ⟨(), .write, full, [item]⟩ false,
    .pushBack ⟨(), .failed, full, [item]⟩ 1,
    .start () msg, .pop ⟨(), .pop, msg, []⟩ [item] [], .write ⟨(), .write, full, [item]⟩ true,
    .pushBack ⟨(), .written, full, [item]⟩ 1]

theorem events_accounted_sendTwice :
    ((machine (fun _ => 0) Unit).after .init sendTwice).queue = [] ∧
    (machine (fun _ => 0) Unit).emits (dropped fun _ => 0) .init sendTwice =
      [⟨0, ⟨.dead, [98]⟩, 1⟩] ∧
    Accounted ((machine (fun _ => 0) Unit).emits (carried fun _ => 0) .init sendTwice)
      ((machine (fun _ => 0) Unit).emits (dropped fun _ => 0) .init sendTwice)
      ((machine (fun _ => 0) Unit).after .init sendTwice) := by
  refine ⟨by decide, by decide, (events_accounted (by decide) ?_).1⟩
  intro origin msg hmem
  simp [sendTwice] at hmem
  simp [hmem]

end Outbox
end Commute.Swim
