import Commute.Foundation.BinaryHeap
import Commute.Swim.Dissemination
import Mathlib.Order.Nat

/-!
# The queue of events as a heap

`EventQueue` is a binary heap ordered by send counts under a mutex, so the calls of all
goroutines happen one after the other. Whatever their order, the heap pops what the
contract in `Pops` allows, never indexes out of range, and keeps the index of every item
up to date.
-/
namespace Commute.Swim

open Fault

structure EventQueue where
  pq : List (Placed EventItem)

namespace EventQueue

def new : EventQueue := ⟨[]⟩

def push (items : List EventItem) (eq : EventQueue) : Except Fault EventQueue :=
  (items.foldlM (fun pq item => Heap.push EventItem.sendCount item pq) eq.pq).map EventQueue.mk

def popLoop : ℕ → List (Placed EventItem) →
    Except Fault (List EventItem × List (Placed EventItem))
  | 0, pq => .ok ([], pq)
  | n + 1, pq => do
    let (item, pq) ← Heap.pop EventItem.sendCount pq
    let (items, pq) ← popLoop n pq
    .ok (item :: items, pq)

def pop (n : ℕ) (eq : EventQueue) : Except Fault (List EventItem × EventQueue) :=
  (popLoop (min n eq.pq.length) eq.pq).map fun r => (r.1, ⟨r.2⟩)

inductive Call where
  | push (items : List EventItem)
  | pop (n : ℕ)
deriving DecidableEq

/-- The calls one after the other, with what the pops return. -/
def run : List Call → EventQueue → Except Fault (List (List EventItem) × EventQueue)
  | [], eq => .ok ([], eq)
  | .push items :: calls, eq => do
    let eq ← eq.push items
    run calls eq
  | .pop n :: calls, eq => do
    let (items, eq) ← eq.pop n
    let (popped, eq) ← run calls eq
    .ok (items :: popped, eq)

/-- What the calls may return from a queue of items in any order, and what they leave. -/
inductive Serves : List Call → List EventItem → List (List EventItem) → List EventItem → Prop
  | done (queue : List EventItem) : Serves [] queue [] queue
  | push {items queue queue' rest : List EventItem} {calls : List Call}
      {popped : List (List EventItem)} (hperm : queue'.Perm (items ++ queue))
      (hrest : Serves calls queue' popped rest) : Serves (.push items :: calls) queue popped rest
  | pop {n : ℕ} {items queue queue' rest : List EventItem} {calls : List Call}
      {popped : List (List EventItem)} (hpops : Pops n queue items queue')
      (hrest : Serves calls queue' popped rest) :
      Serves (.pop n :: calls) queue (items :: popped) rest

def items (pq : List (Placed EventItem)) : List EventItem := pq.map Placed.item

abbrev IsHeap : List (Placed EventItem) → Prop := Heap.IsHeap EventItem.sendCount

theorem push_eq_ok {eq : EventQueue} (h : IsHeap eq.pq) (new : List EventItem) :
    ∃ eq', eq.push new = .ok eq' ∧ IsHeap eq'.pq ∧ (items eq'.pq).Perm (new ++ items eq.pq) := by
  have hloop : ∀ (new : List EventItem) (pq : List (Placed EventItem)), IsHeap pq →
      ∃ pq', new.foldlM (fun pq item => Heap.push EventItem.sendCount item pq) pq = .ok pq' ∧
        IsHeap pq' ∧ (items pq').Perm (new ++ items pq) := by
    intro new
    induction new with
    | nil => exact fun pq hpq => ⟨pq, rfl, hpq, .refl _⟩
    | cons item new ih =>
      intro pq hpq
      obtain ⟨pq₁, hpush, hpq₁, hperm₁⟩ := hpq.push item
      obtain ⟨pq₂, hloop, hpq₂, hperm₂⟩ := ih pq₁ hpq₁
      refine ⟨pq₂, ?_, hpq₂, hperm₂.trans ?_⟩
      · rw [List.foldlM_cons, hpush, ok_bind, hloop]
      · exact (hperm₁.append_left new).trans List.perm_middle
  obtain ⟨pq, hpush, hpq, hperm⟩ := hloop new eq.pq h
  exact ⟨⟨pq⟩, by rw [push, hpush]; rfl, hpq, hperm⟩

/-- Every pop of the loop takes a least item. -/
theorem popLoop_eq_ok {n : ℕ} {pq : List (Placed EventItem)} (h : IsHeap pq)
    (hn : n ≤ pq.length) : ∃ popped pq', popLoop n pq = .ok (popped, pq') ∧ IsHeap pq' ∧
      PopLoop n (items pq) popped (items pq') := by
  induction n generalizing pq with
  | zero => exact ⟨[], pq, rfl, h, .done _⟩
  | succ n ih =>
    have hne : pq ≠ [] := List.length_pos_iff.mp (by omega)
    obtain ⟨item, pq₁, hpop, hpq₁, hperm, hleast⟩ := h.pop hne
    have hlength : pq.length = pq₁.length + 1 := by simpa using hperm.length_eq.symm
    obtain ⟨popped, pq₂, hloop, hpq₂, hrest⟩ := ih hpq₁ (by omega)
    refine ⟨item :: popped, pq₂, ?_, hpq₂, .next ⟨hperm, fun b hb => ?_⟩ hrest⟩
    · rw [popLoop, hpop, ok_bind]
      dsimp only
      rw [hloop, ok_bind]
    · exact not_lt.mpr (hleast b hb)

theorem pop_eq_ok {eq : EventQueue} (h : IsHeap eq.pq) (n : ℕ) :
    ∃ popped eq', eq.pop n = .ok (popped, eq') ∧ IsHeap eq'.pq ∧
      Pops n (items eq.pq) popped (items eq'.pq) := by
  obtain ⟨popped, pq, hloop, hpq, hpops⟩ := popLoop_eq_ok h (Nat.min_le_right n eq.pq.length)
  refine ⟨popped, ⟨pq⟩, by rw [pop, hloop]; rfl, hpq, PopLoop.pops ?_⟩
  rwa [items, List.length_map]

theorem run_eq_ok (calls : List Call) {eq : EventQueue} (h : IsHeap eq.pq) :
    ∃ popped eq', run calls eq = .ok (popped, eq') ∧ IsHeap eq'.pq ∧
      Serves calls (items eq.pq) popped (items eq'.pq) := by
  induction calls generalizing eq with
  | nil => exact ⟨[], eq, rfl, h, .done _⟩
  | cons call calls ih =>
    cases call with
    | push new =>
      obtain ⟨eq₁, hpush, heq₁, hperm⟩ := push_eq_ok h new
      obtain ⟨popped, eq₂, hrun, heq₂, hserves⟩ := ih heq₁
      exact ⟨popped, eq₂, by rw [run, hpush, ok_bind, hrun], heq₂, .push hperm hserves⟩
    | pop n =>
      obtain ⟨items, eq₁, hpop, heq₁, hpops⟩ := pop_eq_ok h n
      obtain ⟨popped, eq₂, hrun, heq₂, hserves⟩ := ih heq₁
      refine ⟨items :: popped, eq₂, ?_, heq₂, .pop hpops hserves⟩
      rw [run, hpop, ok_bind]
      dsimp only
      rw [hrun, ok_bind]

/-- Any calls on a new queue return what a priority queue by send counts returns: no call
panics, every `Pop(n)` takes the `min n len` items with the least send counts in their order
and leaves the others, and the index of every item is its place. -/
theorem run_serves (calls : List Call) : ∃ popped eq, run calls new = .ok (popped, eq) ∧
    Serves calls [] popped (eq.pq.map Placed.item) ∧
      ∀ (k : ℕ) (a : Placed EventItem), eq.pq[k]? = some a → a.index = k := by
  have hnew : IsHeap new.pq := .nil
  obtain ⟨popped, eq, hrun, heq, hserves⟩ := run_eq_ok calls hnew
  exact ⟨popped, eq, hrun, hserves, heq.indexed⟩

end EventQueue
end Commute.Swim
