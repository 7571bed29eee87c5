import Mathlib.Data.List.Basic
import Mathlib.Tactic.Common

/-!
# Computations that may fail or panic

A fallible function returns an error value, and an index or slice operation
outside its bounds panics. Both are faults of one `Except` monad; `Panics` tells
them apart, and the lemmas below walk through a sequence of checks and reads.
`Outcome` states at once what a computation returns and how it may fail.
-/
namespace Commute

/-- A returned value has the property `P`, an error the property `E`. -/
def Outcome {ε α : Type} (E : ε → Prop) (P : α → Prop) : Except ε α → Prop
  | .ok a => P a
  | .error e => E e

namespace Outcome

variable {ε α β : Type} {E : ε → Prop} {P : α → Prop} {Q : β → Prop}

theorem bind {x : Except ε α} {f : α → Except ε β} (h : Outcome E P x)
    (hf : ∀ a, P a → Outcome E Q (f a)) : Outcome E Q (x >>= f) := by
  cases x with
  | error e => exact h
  | ok a => exact hf a h

theorem map {x : Except ε α} {f : α → β} (h : Outcome E P x) (hf : ∀ a, P a → Q (f a)) :
    Outcome E Q (x.map f) := by
  cases x with
  | error e => exact h
  | ok a => exact hf a h

theorem imp {P' : α → Prop} {x : Except ε α} (h : Outcome E P x) (hP : ∀ a, P a → P' a) :
    Outcome E P' x := by
  cases x with
  | error e => exact h
  | ok a => exact hP a h

theorem of_ok {x : Except ε α} {a : α} (h : Outcome E P x) (hx : x = .ok a) : P a := by
  subst hx
  exact h

/-- What every visit of a loop keeps, the loop keeps. -/
theorem foldlM {f : β → α → Except ε β} {as : List α} {b : β}
    (hstep : ∀ b, ∀ a ∈ as, Q b → Outcome E Q (f b a)) (h : Q b) :
    Outcome E Q (as.foldlM f b) := by
  induction as generalizing b with
  | nil => exact h
  | cons a as ih =>
    rw [List.foldlM_cons]
    refine (hstep b a List.mem_cons_self h).bind fun b' hb' => ?_
    exact ih (fun b a ha => hstep b a (List.mem_cons_of_mem _ ha)) hb'

/-- A loop that returns has made each of its visits. -/
theorem visited_of_foldlM {f : β → α → Except ε β} {as : List α} {b b' : β}
    (h : as.foldlM f b = .ok b') : ∀ a ∈ as, ∃ c c', f c a = .ok c' := by
  induction as generalizing b with
  | nil => simp
  | cons a as ih =>
    rw [List.foldlM_cons] at h
    cases hv : f b a with
    | error e => rw [hv] at h; cases h
    | ok c =>
      rw [hv] at h
      rintro a' (_ | ⟨_, ha'⟩)
      · exact ⟨b, c, hv⟩
      · exact ih h a' ha'

theorem exists_ok {x : Except ε α} (h : Outcome (fun _ => False) P x) : ∃ a, x = .ok a ∧ P a := by
  cases x with
  | error e => exact h.elim
  | ok a => exact ⟨a, rfl, h⟩

end Outcome

inductive Fault where
  | panic
  | error (text : String)
deriving DecidableEq

namespace Fault

variable {α β : Type}

def failIf (c : Prop) [Decidable c] (text : String) : Except Fault Unit :=
  if c then .error (.error text) else .ok ()

def index (xs : List α) (i : ℕ) : Except Fault α :=
  match xs[i]? with
  | some x => .ok x
  | none => .error .panic

/-- The slice `xs[lo:hi]`, for bounds that do not use spare capacity. -/
def slice (xs : List α) (lo hi : ℕ) : Except Fault (List α) :=
  if lo ≤ hi ∧ hi ≤ xs.length then .ok ((xs.drop lo).take (hi - lo)) else .error .panic

def Panics (x : Except Fault α) : Prop := x = .error .panic

theorem not_panics_ok (a : α) : ¬ Panics (.ok a : Except Fault α) := by simp [Panics]

theorem not_panics_error (text : String) :
    ¬ Panics (.error (.error text) : Except Fault α) := by simp [Panics]

theorem ok_bind (a : α) (f : α → Except Fault β) : (Except.ok a >>= f) = f a := rfl

theorem bind_eq_ok {ε : Type} {x : Except ε α} {f : α → Except ε β} {b : β} :
    (x >>= f) = .ok b ↔ ∃ a, x = .ok a ∧ f a = .ok b := by
  cases x <;> simp [bind, Except.bind]

theorem map_eq_ok {ε : Type} {x : Except ε α} {f : α → β} {b : β} :
    x.map f = .ok b ↔ ∃ a, x = .ok a ∧ f a = b := by
  cases x <;> simp [Except.map]

theorem panics_bind (x : Except Fault α) (f : α → Except Fault β) :
    Panics (x >>= f) ↔ Panics x ∨ ∃ a, x = .ok a ∧ Panics (f a) := by
  cases x <;> simp [Panics, bind, Except.bind]

theorem not_panics_bind {x : Except Fault α} {f : α → Except Fault β} (h : ¬ Panics x)
    (hf : ∀ a, x = .ok a → ¬ Panics (f a)) : ¬ Panics (x >>= f) := by
  rw [panics_bind]
  rintro (hx | ⟨a, ha, hp⟩)
  · exact h hx
  · exact hf a ha hp

theorem failIf_bind_eq_ok {c : Prop} [Decidable c] {text : String} {f : Unit → Except Fault β}
    {b : β} : (failIf c text >>= f) = .ok b ↔ ¬ c ∧ f () = .ok b := by
  unfold failIf
  split_ifs with h <;> simp [h, bind, Except.bind]

theorem panics_failIf_bind (c : Prop) [Decidable c] (text : String) (f : Unit → Except Fault β) :
    Panics (failIf c text >>= f) ↔ ¬ c ∧ Panics (f ()) := by
  unfold failIf
  split_ifs with h <;> simp [h, Panics, bind, Except.bind]

theorem index_of_lt {xs : List α} {i : ℕ} (h : i < xs.length) (d : α) :
    index xs i = .ok (xs.getD i d) := by
  simp [index, h]

theorem slice_zero {xs : List α} {hi : ℕ} (h : hi ≤ xs.length) :
    slice xs 0 hi = .ok (xs.take hi) :=
  if_pos ⟨Nat.zero_le hi, h⟩

theorem slice_from {xs : List α} {lo : ℕ} (h : lo ≤ xs.length) :
    slice xs lo xs.length = .ok (xs.drop lo) := by
  rw [slice, if_pos ⟨h, Nat.le_refl _⟩, ← List.length_drop, List.take_length]

theorem panics_slice_bind {xs : List α} {lo hi : ℕ} {f : List α → Except Fault β}
    (hf : lo ≤ hi → hi ≤ xs.length → ¬ Panics (f ((xs.drop lo).take (hi - lo)))) :
    Panics (slice xs lo hi >>= f) ↔ ¬ (lo ≤ hi ∧ hi ≤ xs.length) := by
  unfold slice
  split_ifs with h
  · simpa [h, ok_bind] using hf h.1 h.2
  · simp [h, Panics, bind, Except.bind]

end Fault
end Commute
