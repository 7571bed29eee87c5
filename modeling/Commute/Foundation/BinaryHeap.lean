import Commute.Foundation.Checked
import Mathlib.Data.List.Perm.Basic
import Mathlib.Logic.Equiv.Basic
import Mathlib.Order.Lattice

/-!
# Binary heaps in a slice

The heap of `container/heap`: the children of place `i` are the places `2 i + 1` and
`2 i + 2`, a push sifts its item up from the end, and a pop exchanges the root with the
last item and sifts that one down. Every item is told its place when it moves.

A sift is in order everywhere but at one place, and each of its steps moves that place.
-/
namespace Commute

/-- An item and the place it was last told. -/
structure Placed (α : Type) where
  item : α
  index : ℕ
deriving DecidableEq

namespace Heap

open Fault

variable {α κ : Type} [LinearOrder κ] (key : α → κ)

def less (xs : List (Placed α)) (i j : ℕ) : Except Fault Bool := do
  let a ← index xs i
  let b ← index xs j
  .ok (key a.item < key b.item)

def swap (xs : List (Placed α)) (i j : ℕ) : Except Fault (List (Placed α)) := do
  let a ← index xs i
  let b ← index xs j
  .ok ((xs.set i ⟨b.item, i⟩).set j ⟨a.item, j⟩)

/-- The item at place `j` moves up while it is less than its parent. -/
def up : ℕ → List (Placed α) → Except Fault (List (Placed α))
  | 0, xs => .ok xs
  | j + 1, xs => do
    if ← less key xs (j + 1) (j / 2) then
      let ys ← swap xs (j / 2) (j + 1)
      up (j / 2) ys
    else .ok xs
termination_by j => j
decreasing_by omega

/-- The right child of `i` is among the first `n` places and less than the left one. -/
def rightLess (n i : ℕ) (xs : List (Placed α)) : Except Fault Bool :=
  if 2 * i + 2 < n then less key xs (2 * i + 2) (2 * i + 1) else .ok false

/-- The item at place `i` moves down among the first `n` places while one of its children is
less. -/
def down (n i : ℕ) (xs : List (Placed α)) : Except Fault (List (Placed α)) :=
  if h : n ≤ 2 * i + 1 then .ok xs
  else do
    let right ← rightLess key n i xs
    let j := if right then 2 * i + 2 else 2 * i + 1
    if ← less key xs j i then
      let ys ← swap xs i j
      down n j ys
    else .ok xs
termination_by n - i
decreasing_by split <;> omega

def push (x : α) (xs : List (Placed α)) : Except Fault (List (Placed α)) :=
  up key xs.length (xs ++ [⟨x, xs.length⟩])

def pop (xs : List (Placed α)) : Except Fault (α × List (Placed α)) :=
  match xs.length with
  | 0 => .error .panic
  | n + 1 => do
    let ys ← swap xs 0 n
    let zs ← down key n 0 ys
    let last ← index zs n
    .ok (last.item, zs.take n)

variable {key} {xs ys : List (Placed α)} {i j n : ℕ}

def Indexed (xs : List (Placed α)) : Prop := ∀ (k : ℕ) (a : Placed α), xs[k]? = some a → a.index = k

def keyAt (key : α → κ) (xs : List (Placed α)) (k : ℕ) : Option κ :=
  (xs[k]?).map fun a => key a.item

/-- Whatever is at place `i` is at most what is at place `j`. -/
def Le (v : ℕ → Option κ) (i j : ℕ) : Prop := ∀ a, v i = some a → ∀ b, v j = some b → a ≤ b

/-- No item among the first `n` is less than its parent. -/
def Ordered (n : ℕ) (v : ℕ → Option κ) : Prop := ∀ c, 0 < c → c < n → Le v ((c - 1) / 2) c

section Order

variable {v : ℕ → Option κ}

omit [LinearOrder κ] in
theorem keyAt_isSome (h : i < xs.length) : ∃ a, keyAt key xs i = some a :=
  ⟨_, by rw [keyAt, List.getElem?_eq_getElem h]; rfl⟩

theorem Le.trans {k : ℕ} (hij : Le v i j) (hjk : Le v j k) (hj : ∃ b, v j = some b) : Le v i k := by
  obtain ⟨b, hb⟩ := hj
  exact fun a ha c hc => le_trans (hij a ha b hb) (hjk b hb c hc)

theorem Ordered.root_le (h : Ordered n v) (hv : ∀ k < n, ∃ b, v k = some b) {c : ℕ} (hc : c < n) :
    Le v 0 c := by
  induction c using Nat.strongRecOn with
  | ind c ih =>
    rcases Nat.eq_zero_or_pos c with rfl | hpos
    · intro a ha b hb
      exact (Option.some.inj (ha.symm.trans hb)).le
    · have hparent : (c - 1) / 2 < c := by omega
      exact (ih _ hparent (by omega)).trans (h c hpos hc) (hv _ (by omega))

/-- In order but for the item at `j`, which may have to move up. -/
structure UpOrder (n : ℕ) (v : ℕ → Option κ) (j : ℕ) : Prop where
  other : ∀ c, 0 < c → c < n → c ≠ j → Le v ((c - 1) / 2) c
  grand : 0 < j → ∀ c, 0 < c → c < n → (c - 1) / 2 = j → Le v ((j - 1) / 2) c

/-- In order but for the item at `i`, which may have to move down. -/
structure DownOrder (n : ℕ) (v : ℕ → Option κ) (i : ℕ) : Prop where
  other : ∀ c, 0 < c → c < n → (c - 1) / 2 ≠ i → Le v ((c - 1) / 2) c
  grand : 0 < i → ∀ c, 0 < c → c < n → (c - 1) / 2 = i → Le v ((i - 1) / 2) c

theorem le_swap_iff {k l : ℕ} : Le (fun k => v (Equiv.swap i j k)) k l ↔
    Le v (Equiv.swap i j k) (Equiv.swap i j l) := .rfl

theorem UpOrder.move (h : UpOrder n v j) (hv : ∀ k < n, ∃ b, v k = some b) (hj : 0 < j)
    (hjn : j < n) (hless : Le v j ((j - 1) / 2)) :
    UpOrder n (fun k => v (Equiv.swap ((j - 1) / 2) j k)) ((j - 1) / 2) := by
  generalize hp : (j - 1) / 2 = p at *
  have hpj : p < j := by omega
  refine ⟨fun c hc hcn hcp => ?_, fun hpos c hc hcn hparent => ?_⟩
  · rw [le_swap_iff]
    by_cases hcj : c = j
    · subst hcj
      rw [hp, Equiv.swap_apply_left, Equiv.swap_apply_right]
      exact hless
    · rw [Equiv.swap_apply_of_ne_of_ne hcp hcj]
      by_cases hsib : (c - 1) / 2 = p
      · -- a sibling is not less than the old parent
        have hold := h.other c hc hcn hcj
        rw [hsib] at hold ⊢
        rw [Equiv.swap_apply_left]
        exact hless.trans hold (hv p (by omega))
      · by_cases hchild : (c - 1) / 2 = j
        · rw [hchild, Equiv.swap_apply_right]
          exact hp ▸ h.grand hj c hc hcn hchild
        · rw [Equiv.swap_apply_of_ne_of_ne hsib hchild]
          exact h.other c hc hcn hcj
  · have hparent' : Le v ((p - 1) / 2) p := h.other p hpos (by omega) (by omega)
    rw [le_swap_iff, Equiv.swap_apply_of_ne_of_ne (by omega) (by omega)]
    by_cases hcj : c = j
    · subst hcj
      rw [Equiv.swap_apply_right]
      exact hparent'
    · rw [Equiv.swap_apply_of_ne_of_ne (by omega) hcj]
      have hold := h.other c hc hcn hcj
      rw [hparent] at hold
      exact hparent'.trans hold (hv p (by omega))

theorem UpOrder.finish (h : UpOrder n v j) (hstop : 0 < j → Le v ((j - 1) / 2) j) :
    Ordered n v := by
  intro c hc hcn
  by_cases hcj : c = j
  · subst hcj
    exact hstop hc
  · exact h.other c hc hcn hcj

theorem DownOrder.move (h : DownOrder n v i) (hj : 0 < j) (hjn : j < n) (hchild : (j - 1) / 2 = i)
    (hleast : ∀ c, 0 < c → c < n → (c - 1) / 2 = i → Le v j c) (hless : Le v j i) :
    DownOrder n (fun k => v (Equiv.swap i j k)) j := by
  refine ⟨fun c hc hcn hparent => ?_, fun _ c hc hcn hparent => ?_⟩
  · rw [le_swap_iff]
    by_cases hci : (c - 1) / 2 = i
    · rw [hci, Equiv.swap_apply_left]
      by_cases hcj : c = j
      · rw [hcj, Equiv.swap_apply_right]
        exact hless
      · rw [Equiv.swap_apply_of_ne_of_ne (by omega) hcj]
        exact hleast c hc hcn hci
    · rw [Equiv.swap_apply_of_ne_of_ne hci hparent]
      by_cases hc' : c = i
      · subst hc'
        rw [Equiv.swap_apply_left]
        exact h.grand hc j hj hjn hchild
      · rw [Equiv.swap_apply_of_ne_of_ne hc' (by omega)]
        exact h.other c hc hcn hci
  · rw [le_swap_iff, hchild, Equiv.swap_apply_left,
      Equiv.swap_apply_of_ne_of_ne (by omega) (by omega)]
    have hold := h.other c hc hcn (by omega)
    rwa [hparent] at hold

theorem DownOrder.finish (h : DownOrder n v i)
    (hstop : ∀ c, 0 < c → c < n → (c - 1) / 2 = i → Le v i c) : Ordered n v := by
  intro c hc hcn
  by_cases hci : (c - 1) / 2 = i
  · rw [hci]
    exact hstop c hc hcn hci
  · exact h.other c hc hcn hci

end Order

section Moves

structure Swapped (key : α → κ) (i j : ℕ) (xs ys : List (Placed α)) : Prop where
  length : ys.length = xs.length
  perm : (ys.map Placed.item).Perm (xs.map Placed.item)
  keys : keyAt key ys = fun k => keyAt key xs (Equiv.swap i j k)
  indexed : Indexed xs → Indexed ys
  other : ∀ k, k ≠ i → k ≠ j → ys[k]? = xs[k]?
  moved : (ys[j]?).map Placed.item = (xs[i]?).map Placed.item

omit [LinearOrder κ] in
theorem swap_eq_ok (key : α → κ) (hi : i < xs.length) (hj : j < xs.length) :
    ∃ ys, swap xs i j = .ok ys ∧ Swapped key i j xs ys := by
  have hget : ∀ k, ((xs.set i ⟨xs[j].item, i⟩).set j ⟨xs[i].item, j⟩)[k]? =
      if k = j then some ⟨xs[i].item, j⟩ else if k = i then some ⟨xs[j].item, i⟩ else xs[k]? := by
    intro k
    by_cases hkj : k = j
    · subst hkj
      rw [List.getElem?_set_self (by simpa), if_pos rfl]
    · rw [List.getElem?_set_ne (Ne.symm hkj), if_neg hkj]
      by_cases hki : k = i
      · subst hki
        rw [List.getElem?_set_self hi, if_pos rfl]
      · rw [List.getElem?_set_ne (Ne.symm hki), if_neg hki]
  refine ⟨(xs.set i ⟨xs[j].item, i⟩).set j ⟨xs[i].item, j⟩, ?_, by simp, ?_, ?_, ?_, ?_, ?_⟩
  · simp [swap, index, hi, hj, ok_bind]
  · rw [List.map_set, List.map_set]
    have hperm := @List.set_set_perm _ (xs.map Placed.item) i j (by simpa) (by simpa)
    simpa using hperm
  · funext k
    rw [keyAt, hget]
    split_ifs with hkj hki
    · subst hkj
      rw [Equiv.swap_apply_right, keyAt, List.getElem?_eq_getElem hi]
      rfl
    · subst hki
      rw [Equiv.swap_apply_left, keyAt, List.getElem?_eq_getElem hj]
      rfl
    · rw [Equiv.swap_apply_of_ne_of_ne hki hkj, keyAt]
  · intro hindexed k a hk
    rw [hget] at hk
    split_ifs at hk with hkj hki
    · rw [← Option.some.inj hk, hkj]
    · rw [← Option.some.inj hk, hki]
    · exact hindexed k a hk
  · intro k hki hkj
    rw [hget, if_neg hkj, if_neg hki]
  · rw [hget, if_pos rfl, List.getElem?_eq_getElem hi]
    rfl

theorem less_eq_ok (key : α → κ) (hi : i < xs.length) (hj : j < xs.length) :
    ∃ b, less key xs i j = .ok b ∧ (b = true → Le (keyAt key xs) i j) ∧
      (b = false → Le (keyAt key xs) j i) := by
  refine ⟨decide (key xs[i].item < key xs[j].item), ?_, fun h => ?_, fun h => ?_⟩
  · simp [less, index, hi, hj, ok_bind]
  · intro a ha b hb
    simp only [keyAt, List.getElem?_eq_getElem hi, List.getElem?_eq_getElem hj, Option.map_some,
      Option.some.injEq] at ha hb
    rw [← ha, ← hb]
    exact le_of_lt (of_decide_eq_true h)
  · intro a ha b hb
    simp only [keyAt, List.getElem?_eq_getElem hi, List.getElem?_eq_getElem hj, Option.map_some,
      Option.some.injEq] at ha hb
    rw [← ha, ← hb]
    exact not_lt.mp (of_decide_eq_false h)

structure Sifted (key : α → κ) (n : ℕ) (xs ys : List (Placed α)) : Prop where
  length : ys.length = xs.length
  perm : (ys.map Placed.item).Perm (xs.map Placed.item)
  ordered : Ordered n (keyAt key ys)
  indexed : Indexed xs → Indexed ys
  other : ∀ k, n ≤ k → ys[k]? = xs[k]?

theorem Sifted.of_ordered (h : Ordered n (keyAt key xs)) : Sifted key n xs xs :=
  ⟨rfl, .refl _, h, id, fun _ _ => rfl⟩

theorem Swapped.sifted {zs : List (Placed α)} (h : Swapped key i j xs ys) (hi : i < n) (hj : j < n)
    (hs : Sifted key n ys zs) : Sifted key n xs zs :=
  ⟨hs.length.trans h.length, hs.perm.trans h.perm, hs.ordered, fun hx => hs.indexed (h.indexed hx),
    fun k hk => (hs.other k hk).trans (h.other k (by omega) (by omega))⟩

theorem up_eq_ok (hn : n ≤ xs.length) (hj : j < n) (h : UpOrder n (keyAt key xs) j) :
    ∃ ys, up key j xs = .ok ys ∧ Sifted key n xs ys := by
  induction j using Nat.strongRecOn generalizing xs with
  | ind j ih =>
    have hv : ∀ k < n, ∃ b, keyAt key xs k = some b := fun k hk => keyAt_isSome (by omega)
    cases j with
    | zero =>
      rw [up]
      exact ⟨xs, rfl, .of_ordered (h.finish fun h => absurd h (Nat.lt_irrefl 0))⟩
    | succ j =>
      have hlast : j + 1 < xs.length := by omega
      have hparent : j / 2 < xs.length := by omega
      obtain ⟨b, hless, hlt, hge⟩ := less_eq_ok key hlast hparent
      rw [up, hless, ok_bind]
      cases b with
      | false => exact ⟨xs, rfl, .of_ordered (h.finish fun _ => hge rfl)⟩
      | true =>
        obtain ⟨ys, hswap, hswapped⟩ := swap_eq_ok key hparent hlast
        have hmoved : UpOrder n (keyAt key ys) (j / 2) := by
          rw [hswapped.keys]
          exact h.move hv (Nat.succ_pos j) hj (hlt rfl)
        obtain ⟨zs, hup, hsifted⟩ := ih (j / 2) (by omega) (hswapped.length ▸ hn) (by omega) hmoved
        refine ⟨zs, ?_, hswapped.sifted (by omega) hj hsifted⟩
        simp only [if_true, hswap, ok_bind, hup]

/-- The child that is to move up: one that is not greater than the other. -/
theorem child_eq_ok (key : α → κ) (hn : n ≤ xs.length) (hi : ¬ n ≤ 2 * i + 1) :
    ∃ right, rightLess key n i xs = .ok right ∧ (if right then 2 * i + 2 else 2 * i + 1) < n ∧
      ∀ c, 0 < c → c < n → (c - 1) / 2 = i →
        Le (keyAt key xs) (if right then 2 * i + 2 else 2 * i + 1) c := by
  have hrefl : ∀ k, Le (keyAt key xs) k k := fun k a ha b hb =>
    (Option.some.inj (ha.symm.trans hb)).le
  by_cases hright : 2 * i + 2 < n
  · have hr : 2 * i + 2 < xs.length := by omega
    have hl : 2 * i + 1 < xs.length := by omega
    obtain ⟨b, hless, hlt, hge⟩ := less_eq_ok key hr hl
    refine ⟨b, by rw [rightLess, if_pos hright, hless], by split <;> omega,
      fun c hc hcn hparent => ?_⟩
    rcases (show c = 2 * i + 1 ∨ c = 2 * i + 2 by omega) with rfl | rfl
    · cases b with
      | true => exact hlt rfl
      | false => exact hrefl _
    · cases b with
      | true => exact hrefl _
      | false => exact hge rfl
  · refine ⟨false, if_neg hright, by simp; omega, fun c hc hcn hparent => ?_⟩
    obtain rfl : c = 2 * i + 1 := by omega
    exact hrefl _

theorem down_eq_ok (hn : n ≤ xs.length) (h : DownOrder n (keyAt key xs) i) :
    ∃ ys, down key n i xs = .ok ys ∧ Sifted key n xs ys := by
  induction hm : n - i using Nat.strongRecOn generalizing i xs with
  | ind m ih =>
    rw [down]
    by_cases hleaf : n ≤ 2 * i + 1
    · rw [dif_pos hleaf]
      exact ⟨xs, rfl, .of_ordered (h.finish fun c hc hcn hparent => by omega)⟩
    · rw [dif_neg hleaf]
      obtain ⟨right, hchild, hjn, hleast⟩ := child_eq_ok key hn hleaf
      rw [hchild, ok_bind]
      dsimp only
      have hj : 0 < (if right then 2 * i + 2 else 2 * i + 1) ∧
          ((if right then 2 * i + 2 else 2 * i + 1) - 1) / 2 = i := by split <;> omega
      generalize (if right then 2 * i + 2 else 2 * i + 1) = j at hjn hleast hj ⊢
      have hjx : j < xs.length := by omega
      have hix : i < xs.length := by omega
      obtain ⟨b, hless, hlt, hge⟩ := less_eq_ok key hjx hix
      rw [hless, ok_bind]
      cases b with
      | false =>
        refine ⟨xs, rfl, .of_ordered (h.finish fun c hc hcn hparent => ?_)⟩
        exact (hge rfl).trans (hleast c hc hcn hparent) (keyAt_isSome hjx)
      | true =>
        obtain ⟨ys, hswap, hswapped⟩ := swap_eq_ok key hix hjx
        have hmoved : DownOrder n (keyAt key ys) j := by
          rw [hswapped.keys]
          exact h.move hj.1 hjn hj.2 hleast (hlt rfl)
        obtain ⟨zs, hdown, hsifted⟩ := ih (n - j) (by omega) (hswapped.length ▸ hn) hmoved rfl
        refine ⟨zs, ?_, hswapped.sifted (by omega) hjn hsifted⟩
        simp only [if_true, hswap, ok_bind, hdown]

end Moves

/-- A heap: in order, and every item knows its place. -/
structure IsHeap (key : α → κ) (xs : List (Placed α)) : Prop where
  ordered : Ordered xs.length (keyAt key xs)
  indexed : Indexed xs

theorem IsHeap.nil : IsHeap key ([] : List (Placed α)) :=
  ⟨fun c _ hc => absurd hc (Nat.not_lt_zero c), fun k a h => by simp at h⟩

theorem IsHeap.push (h : IsHeap key xs) (x : α) : ∃ ys, push key x xs = .ok ys ∧ IsHeap key ys ∧
    (ys.map Placed.item).Perm (x :: xs.map Placed.item) := by
  have hold : ∀ k < xs.length, keyAt key (xs ++ [⟨x, xs.length⟩]) k = keyAt key xs k :=
    fun k hk => by rw [keyAt, List.getElem?_append_left hk, keyAt]
  have horder : UpOrder (xs.length + 1) (keyAt key (xs ++ [⟨x, xs.length⟩])) xs.length := by
    refine ⟨fun c hc hcn hne => ?_, fun hpos c hc hcn hparent => by omega⟩
    unfold Le
    rw [hold c (by omega), hold _ (by omega)]
    exact h.ordered c hc (by omega)
  obtain ⟨ys, hup, hsifted⟩ := up_eq_ok (by simp) (Nat.lt_succ_self _) horder
  refine ⟨ys, hup, ⟨?_, hsifted.indexed ?_⟩, hsifted.perm.trans ?_⟩
  · rw [hsifted.length, List.length_append]
    exact hsifted.ordered
  · intro k a hk
    rcases Nat.lt_or_ge k xs.length with hlt | hge
    · rw [List.getElem?_append_left hlt] at hk
      exact h.indexed k a hk
    · rw [List.getElem?_append_right hge, List.getElem?_singleton] at hk
      split_ifs at hk with hzero
      rw [← Option.some.inj hk]
      dsimp only
      omega
  · rw [List.map_append]
    exact List.perm_append_singleton x _

theorem IsHeap.pop (h : IsHeap key xs) (hne : xs ≠ []) : ∃ x ys, pop key xs = .ok (x, ys) ∧
    IsHeap key ys ∧ (x :: ys.map Placed.item).Perm (xs.map Placed.item) ∧
      ∀ b ∈ ys.map Placed.item, key x ≤ key b := by
  obtain ⟨n, hn⟩ : ∃ n, xs.length = n + 1 := ⟨xs.length - 1, by
    have := List.length_pos_iff.mpr hne
    omega⟩
  have hroot : 0 < xs.length := by omega
  have hlast : n < xs.length := by omega
  obtain ⟨ys, hswap, hswapped⟩ := swap_eq_ok key hroot hlast
  have horder : DownOrder n (keyAt key ys) 0 := by
    refine ⟨fun c hc hcn hparent => ?_, fun hpos => absurd hpos (Nat.lt_irrefl 0)⟩
    rw [hswapped.keys, le_swap_iff, Equiv.swap_apply_of_ne_of_ne (by omega) (by omega),
      Equiv.swap_apply_of_ne_of_ne (by omega) (by omega)]
    exact h.ordered c hc (by omega)
  obtain ⟨zs, hdown, hsifted⟩ := down_eq_ok (by rw [hswapped.length]; omega) horder
  have hlength : zs.length = n + 1 := by rw [hsifted.length, hswapped.length, hn]
  have hlt : n < zs.length := by omega
  have hroot' : zs[n].item = xs[0].item := by
    have hmoved := hswapped.moved
    rw [← hsifted.other n (Nat.le_refl n), List.getElem?_eq_getElem hlt,
      List.getElem?_eq_getElem hroot] at hmoved
    exact Option.some.inj hmoved
  have hsplit : zs.take n ++ [zs[n]] = zs := by
    rw [← List.take_succ_eq_append_getElem hlt, ← hlength, List.take_length]
  have hperm : (xs[0].item :: (zs.take n).map Placed.item).Perm (xs.map Placed.item) := by
    refine .trans ?_ (hsifted.perm.trans hswapped.perm)
    conv_rhs => rw [← hsplit, List.map_append, List.map_singleton, hroot']
    exact (List.perm_append_singleton _ _).symm
  refine ⟨xs[0].item, zs.take n, ?_, ⟨?_, ?_⟩, hperm, fun b hb => ?_⟩
  · unfold Heap.pop
    rw [hn]
    simp only [hswap, hdown, ok_bind, index, List.getElem?_eq_getElem hlt, hroot']
  · have hkeys : ∀ k < n, keyAt key (zs.take n) k = keyAt key zs k := fun k hk => by
      rw [keyAt, List.getElem?_take_of_lt hk, keyAt]
    rw [List.length_take_of_le (Nat.le_of_lt hlt)]
    intro c hc hcn
    unfold Le
    rw [hkeys c hcn, hkeys _ (by omega)]
    exact hsifted.ordered c hc hcn
  · intro k a hk
    have hkn : k < n := by
      have := (List.getElem?_eq_some_iff.mp hk).1
      rw [List.length_take] at this
      omega
    rw [List.getElem?_take_of_lt hkn] at hk
    exact hsifted.indexed (hswapped.indexed h.indexed) k a hk
  · obtain ⟨a, ha, rfl⟩ := List.mem_map.mp (hperm.subset (List.mem_cons_of_mem _ hb))
    obtain ⟨k, hk, rfl⟩ := List.mem_iff_getElem.mp ha
    have hv : ∀ k < xs.length, ∃ b, keyAt key xs k = some b := fun k hk => keyAt_isSome hk
    refine h.ordered.root_le hv hk _ ?_ _ ?_
    · rw [keyAt, List.getElem?_eq_getElem hroot]
      rfl
    · rw [keyAt, List.getElem?_eq_getElem hk]
      rfl

end Heap
end Commute
