import Commute.Crdt.Register

/-!
# Register timestamps with two clocks

`time.Now` reads the wall clock and a monotonic clock. Two times that both have a
monotonic reading are compared by it, all others by the wall clock, and encoding
keeps the wall reading only. A node therefore orders its own writes by one clock and
its peers order them by the other. They agree, and the order is an order, if and
only if the two clocks order the readings of the node in the same way.
-/
namespace Commute.Crdt

structure GoTime where
  wall : ℤ
  mono : Option ℤ
deriving DecidableEq

namespace GoTime

def after (t u : GoTime) : Bool :=
  match t.mono, u.mono with
  | some m, some n => decide (n < m)
  | _, _ => decide (u.wall < t.wall)

def equal (t u : GoTime) : Bool :=
  match t.mono, u.mono with
  | some m, some n => decide (m = n)
  | _, _ => decide (t.wall = u.wall)

instance : Instant GoTime where
  default := ⟨0, none⟩
  after := after
  equal := equal
  decoded t := ⟨t.wall, none⟩

end GoTime

instance : Instant ℤ where
  after t u := decide (u < t)
  equal t u := decide (t = u)
  decoded t := t

instance : LinearInstant ℤ where
  after_iff _ _ := decide_eq_true_iff
  equal_iff _ _ := decide_eq_true_iff
  decoded_eq _ := rfl

/-- What one call of `time.Now` reads from the two clocks. -/
structure Reading where
  wall : ℤ
  mono : ℤ

def Reading.now (r : Reading) : GoTime := ⟨r.wall, some r.mono⟩

variable {N R : Type}

namespace LWWEntry

/-- Reading back the encoding of an entry. -/
def decoded (e : LWWEntry N GoTime R) : LWWEntry N GoTime R :=
  { e with timestamp := Instant.decoded e.timestamp }

def byWall (e : LWWEntry N GoTime R) : LWWEntry N ℤ R := ⟨e.writerID, e.timestamp.wall, e.value⟩

theorem after_decoded [LinearOrder N] (e f : LWWEntry N GoTime R) :
    e.decoded.after f.decoded = e.byWall.after f.byWall := rfl

theorem after_sameWriter [LinearOrder N] {T : Type} [Instant T] {e f : LWWEntry N T R}
    (h : e.writerID = f.writerID) : e.after f = Instant.after e.timestamp f.timestamp := by
  unfold after
  rw [h]
  simp

end LWWEntry

variable [Inhabited N]

/-- The entries that a register of this node can meet: its own writes, stamped with a
reading of its clock, and entries decoded from a message. -/
inductive Produced (node : N) (readings : Set Reading) : LWWEntry N GoTime R → Prop
  | set (lww : LWWRegister N GoTime R) (hnode : lww.nodeID = node) (value : R) (r : Reading)
    (hr : r ∈ readings) : Produced node readings (lww.set value r.now).entry
  | decoded (e : LWWEntry N GoTime R) : Produced node readings e.decoded

/-- The two clocks order the readings in the same way. -/
def ClocksAgree (readings : Set Reading) : Prop :=
  ∀ r ∈ readings, ∀ s ∈ readings, r.mono < s.mono ↔ r.wall < s.wall

variable [LinearOrder N] {node : N} {readings : Set Reading}

/-- A node then orders the entries it meets by their wall times, as its peers do. -/
theorem Produced.after_eq (h : ClocksAgree readings) {e f : LWWEntry N GoTime R}
    (he : Produced node readings e) (hf : Produced node readings f) :
    e.after f = e.byWall.after f.byWall := by
  cases he with
  | decoded e => rfl
  | set lww hnode value r hr =>
    cases hf with
    | decoded f => rfl
    | set lww' hnode' value' s hs =>
      have hwriter : lww.nodeID = lww'.nodeID := hnode.trans hnode'.symm
      rw [LWWEntry.after_sameWriter hwriter, LWWEntry.after_sameWriter hwriter]
      exact decide_eq_decide.mpr (h s hs r hr)

/-- The node and its peers order the entries in the same way, and choose the same winner. -/
structure SameOrder (R : Type) (node : N) (readings : Set Reading) : Prop where
  after : ∀ e f : LWWEntry N GoTime R, Produced node readings e → Produced node readings f →
    e.after f = e.decoded.after f.decoded
  trans : ∀ e f g : LWWEntry N GoTime R, Produced node readings e → Produced node readings f →
    Produced node readings g → e.after f = true → f.after g = true → e.after g = true
  merge : ∀ a b : LWWRegister N GoTime R, Produced node readings a.entry →
    Produced node readings b.entry → (a.merge b).decoded = a.decoded.merge b.decoded
  isLessOrEqual : ∀ a b : LWWRegister N GoTime R, Produced node readings a.entry →
    Produced node readings b.entry → a.isLessOrEqual b = a.decoded.isLessOrEqual b.decoded

theorem sameOrder_of_after
    (h : ∀ e f : LWWEntry N GoTime R, Produced node readings e → Produced node readings f →
      e.after f = e.byWall.after f.byWall) : SameOrder R node readings where
  after e f he hf := (h e f he hf).trans (LWWEntry.after_decoded e f).symm
  trans e f g he hf hg hef hfg := by
    rw [h e f he hf, LWWEntry.after_iff] at hef
    rw [h f g hf hg, LWWEntry.after_iff] at hfg
    rw [h e g he hg, LWWEntry.after_iff]
    exact hfg.trans hef
  merge a b ha hb := by
    unfold LWWRegister.merge
    rw [h b.entry a.entry hb ha]
    change _ = if b.entry.byWall.after a.entry.byWall then _ else _
    split_ifs <;> rfl
  isLessOrEqual a b ha hb := congrArg not (h a.entry b.entry ha hb)

/-- A node and its peers order register writes in the same way if and only if the wall clock
of the node orders its writes as the monotonic clock does. -/
theorem sameOrder_iff [Inhabited R] (node : N) (readings : Set Reading) :
    SameOrder R node readings ↔ ClocksAgree readings := by
  constructor
  · intro h r hr s hs
    have hset : ∀ q ∈ readings, Produced node readings
        (LWWRegister.set default q.now (LWWRegister.new node : LWWRegister N GoTime R)).entry :=
      fun q hq => .set (LWWRegister.new node) rfl default q hq
    have hafter := h.after _ _ (hset s hs) (hset r hr)
    rw [LWWEntry.after_sameWriter (by rfl), LWWEntry.after_sameWriter (by rfl)] at hafter
    exact decide_eq_decide.mp hafter
  · exact fun h => sameOrder_of_after fun e f he hf => he.after_eq h hf

/-- The wall clock is stepped back from 10 to 5 between two writes. The node keeps the
second one and its peers the first; with a write of another node at 7 the order is a cycle. -/
theorem not_sameOrder_steppedBack :
    let readings : Set Reading := {⟨10, 1⟩, ⟨5, 2⟩}
    let first : LWWEntry ℕ GoTime ℕ := ⟨1, ⟨10, some 1⟩, 0⟩
    let second : LWWEntry ℕ GoTime ℕ := ⟨1, ⟨5, some 2⟩, 0⟩
    let other : LWWEntry ℕ GoTime ℕ := ⟨2, ⟨7, none⟩, 0⟩
    (second.after first = true ∧ second.decoded.after first.decoded = false) ∧
      (second.after first = true ∧ first.after other = true ∧ other.after second = true) ∧
      ¬ SameOrder ℕ 1 readings := by
  refine ⟨by decide, by decide, ?_⟩
  intro h
  have hset : ∀ q ∈ ({⟨10, 1⟩, ⟨5, 2⟩} : Set Reading), Produced 1 {⟨10, 1⟩, ⟨5, 2⟩}
      (LWWRegister.set 0 q.now (LWWRegister.new 1 : LWWRegister ℕ GoTime ℕ)).entry :=
    fun q hq => .set (LWWRegister.new 1) rfl 0 q hq
  have hafter := h.after _ _ (hset ⟨5, 2⟩ (by simp)) (hset ⟨10, 1⟩ (by simp))
  exact absurd hafter (by decide)

end Commute.Crdt
