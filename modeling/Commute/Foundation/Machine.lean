import Mathlib.Data.List.Basic
import Mathlib.Data.List.Induction
import Mathlib.Tactic.Common

/-!
# Machines and their runs

A machine says in which states an action may happen and what it does. A run is a
list of actions, each of which may happen where the ones before it lead, so a
statement can speak about what happened between two points of a run. A run also
emits what an observer sees of its actions, in order.

The invariant rules are the induction over a run: one for what holds in every state,
one for what relates the state to everything emitted so far, and one for what relates
it to the actions. A machine that is put together from others moves each of its parts
along a run of that part.
-/
namespace Commute

structure Machine (σ α : Type) where
  enabled : α → σ → Prop
  exec : α → σ → σ

namespace Machine

variable {σ α β : Type} (M : Machine σ α) (obs : α → σ → List β)

/-- Only the actions that also meet the condition. -/
def restrict (cond : α → σ → Prop) : Machine σ α :=
  ⟨fun a s => M.enabled a s ∧ cond a s, M.exec⟩

def Legal : σ → List α → Prop
  | _, [] => True
  | s, a :: as => M.enabled a s ∧ Legal (M.exec a s) as

instance decidableLegal [∀ a s, Decidable (M.enabled a s)] :
    (s : σ) → (as : List α) → Decidable (M.Legal s as)
  | _, [] => .isTrue trivial
  | s, a :: as =>
    have := decidableLegal (M.exec a s) as
    inferInstanceAs (Decidable (M.enabled a s ∧ M.Legal (M.exec a s) as))

instance [∀ a s, Decidable (M.enabled a s)] (cond : α → σ → Prop) [∀ a s, Decidable (cond a s)]
    (a : α) (s : σ) : Decidable ((M.restrict cond).enabled a s) :=
  inferInstanceAs (Decidable (M.enabled a s ∧ cond a s))

def after (s : σ) (as : List α) : σ := as.foldl (fun s a => M.exec a s) s

def emits : σ → List α → List β
  | _, [] => []
  | s, a :: as => obs a s ++ emits (M.exec a s) as

variable {M obs} {s : σ} {as bs : List α}

@[simp] theorem after_nil : M.after s [] = s := rfl

@[simp] theorem after_cons (a : α) : M.after s (a :: as) = M.after (M.exec a s) as := rfl

theorem after_append : M.after s (as ++ bs) = M.after (M.after s as) bs := List.foldl_append

theorem legal_of_enabled (h : ∀ a s, M.enabled a s) : M.Legal s as := by
  induction as generalizing s with
  | nil => trivial
  | cons a as ih => exact ⟨h a s, ih⟩

theorem legal_append :
    M.Legal s (as ++ bs) ↔ M.Legal s as ∧ M.Legal (M.after s as) bs := by
  induction as generalizing s with
  | nil => simp [Legal]
  | cons a as ih => simp [Legal, ih, and_assoc]

/-- A run whose parts are each chosen in the state that the parts before it lead to. -/
def script (M : Machine σ α) (parts : List (σ → List α)) (s : σ) : List α :=
  parts.foldl (fun as part => as ++ part (M.after s as)) []

theorem script_legal {parts : List (σ → List α)} (hparts : ∀ part ∈ parts, ∀ s, M.Legal s (part s))
    (s : σ) : M.Legal s (M.script parts s) := by
  have hfold : ∀ as, M.Legal s as →
      M.Legal s (parts.foldl (fun as part => as ++ part (M.after s as)) as) := by
    induction parts with
    | nil => exact fun _ has => has
    | cons part parts ih =>
      intro as has
      apply ih fun other hother => hparts other (List.mem_cons_of_mem _ hother)
      exact legal_append.mpr ⟨has, hparts part List.mem_cons_self _⟩
  exact hfold [] trivial

/-- What every step keeps holds after a whole run. -/
theorem Legal.invariant (hlegal : M.Legal s as) {I : σ → Prop} (h : I s)
    (hstep : ∀ a s, I s → M.enabled a s → I (M.exec a s)) : I (M.after s as) := by
  induction as generalizing s with
  | nil => exact h
  | cons a as ih => exact ih hlegal.2 (hstep a s h hlegal.1)

/-- What every step keeps of the state and of all that was emitted before it. -/
theorem Legal.emits_invariant (hlegal : M.Legal s as) (obs : α → σ → List β)
    {I : List β → σ → Prop} {o : List β} (h : I o s)
    (hstep : ∀ a o s, I o s → M.enabled a s → I (o ++ obs a s) (M.exec a s)) :
    I (o ++ M.emits obs s as) (M.after s as) := by
  induction as generalizing s o with
  | nil => simpa [emits] using h
  | cons a as ih =>
    have := ih hlegal.2 (hstep a o s h hlegal.1)
    rwa [List.append_assoc] at this

theorem emits_append :
    M.emits obs s (as ++ bs) = M.emits obs s as ++ M.emits obs (M.after s as) bs := by
  induction as generalizing s with
  | nil => rfl
  | cons a as ih => simp [emits, ih]

theorem emits_singleton (a : α) : M.emits obs s [a] = obs a s := List.append_nil _

/-- Induction over a run from its beginning, for what also depends on the actions. -/
theorem Legal.snoc_induction (hlegal : M.Legal s as) {P : List α → Prop} (nil : P [])
    (snoc : ∀ as a, M.Legal s as → M.enabled a (M.after s as) → P as → P (as ++ [a])) : P as := by
  induction as using List.reverseRecOn with
  | nil => exact nil
  | append_singleton as a ih =>
    obtain ⟨has, ha⟩ := legal_append.mp hlegal
    exact snoc as a has ha.1 (ih has)

@[simp] theorem after_restrict (cond : α → σ → Prop) :
    (M.restrict cond).after s as = M.after s as := rfl

@[simp] theorem emits_restrict (cond : α → σ → Prop) :
    (M.restrict cond).emits obs s as = M.emits obs s as := by
  induction as generalizing s with
  | nil => rfl
  | cons a as ih => exact congrArg (obs a s ++ ·) ih

/-- Some run leads from one state to the other. -/
def Reaches (M : Machine σ α) (s s' : σ) : Prop := ∃ as, M.Legal s as ∧ M.after s as = s'

theorem Reaches.refl (s : σ) : M.Reaches s s := ⟨[], trivial, rfl⟩

theorem Reaches.of_eq {s' : σ} (h : s' = s) : M.Reaches s s' := h ▸ .refl s'

theorem Reaches.step (a : α) (h : M.enabled a s) : M.Reaches s (M.exec a s) :=
  ⟨[a], ⟨h, trivial⟩, rfl⟩

theorem Reaches.trans {s' s'' : σ} (h : M.Reaches s s') (h' : M.Reaches s' s'') :
    M.Reaches s s'' := by
  obtain ⟨as, has, rfl⟩ := h
  obtain ⟨bs, hbs, rfl⟩ := h'
  exact ⟨as ++ bs, legal_append.mpr ⟨has, hbs⟩, after_append⟩

/-- A part of the state that every step moves along a run of another machine. -/
theorem Legal.reaches {τ γ : Type} {N : Machine τ γ} {f : σ → τ} {I : σ → Prop}
    (hlegal : M.Legal s as) (h : I s)
    (hstep : ∀ a s, I s → M.enabled a s → I (M.exec a s) ∧ N.Reaches (f s) (f (M.exec a s))) :
    N.Reaches (f s) (f (M.after s as)) := by
  have hinv := hlegal.invariant (I := fun s' => I s' ∧ N.Reaches (f s) (f s')) ⟨h, .refl _⟩
    fun a s' hs' ha => ⟨(hstep a s' hs'.1 ha).1, hs'.2.trans (hstep a s' hs'.1 ha).2⟩
  exact hinv.2

end Machine
end Commute
