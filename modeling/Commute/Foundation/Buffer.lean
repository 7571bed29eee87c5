import Commute.Foundation.Checked

/-!
# Reading and filling a buffer by offsets

A writer allocates a buffer of its final size and stores elements and blocks at
offsets it computes; a reader takes them out at offsets of its own. A store or a
read outside the buffer panics.

What is left of the buffer from an offset on, `xs.drop i`, carries the proofs: a
writer that stays at its frontier turns one more block of blanks into data, and
a reader that succeeds has split off one more block of the rest.
-/
namespace Commute.Fault

variable {α : Type}

def store (xs : List α) (i : ℕ) (x : α) : Except Fault (List α) :=
  if i < xs.length then .ok (xs.set i x) else .error .panic

/-- The call `copy(xs[lo:], src)`, which copies as much as there is room for. -/
def copyAt (xs : List α) (lo : ℕ) (src : List α) : Except Fault (List α) :=
  if lo ≤ xs.length then
    .ok (xs.take lo ++ src.take (xs.length - lo) ++ xs.drop (lo + src.length))
  else .error .panic

/-- The offset at which the slice `xs[lo:]` starts. -/
def offset (xs : List α) (lo : ℕ) : Except Fault ℕ :=
  if lo ≤ xs.length then .ok lo else .error .panic

section Writer

variable {w : List α} {i n : ℕ} {x d : α}

theorem store_frontier (h : i = w.length) :
    store (w ++ List.replicate (n + 1) d) i x = .ok (w ++ [x] ++ List.replicate n d) := by
  subst h
  simp [store, List.replicate_succ]

theorem copyAt_frontier {src : List α} {k : ℕ} (h : i = w.length) (hk : k = src.length + n) :
    copyAt (w ++ List.replicate k d) i src = .ok (w ++ src ++ List.replicate n d) := by
  subst h hk
  simp [copyAt, List.take_of_length_le]

theorem offset_frontier (h : i = w.length) :
    offset (w ++ List.replicate n d) i = .ok i := by
  subst h
  simp [offset]

end Writer

section Reader

variable {xs ys zs : List α} {i lo hi : ℕ} {x : α}

theorem drop_block (h : xs.drop i = ys ++ zs) : xs.drop (i + ys.length) = zs := by
  rw [← List.drop_drop, h, List.drop_left]

theorem drop_elem (h : xs.drop i = x :: zs) : xs.drop (i + 1) = zs :=
  drop_block (show xs.drop i = [x] ++ zs from h)

theorem index_eq_ok : index xs i = .ok x ↔ xs.drop i = x :: xs.drop (i + 1) := by
  unfold index
  by_cases hi : i < xs.length
  · simp only [List.getElem?_eq_getElem hi, List.drop_eq_getElem_cons hi, Except.ok.injEq,
      List.cons.injEq, and_true]
  · rw [List.getElem?_eq_none (Nat.le_of_not_lt hi), List.drop_eq_nil_of_le (Nat.le_of_not_lt hi)]
    simp

theorem index_of_drop (h : xs.drop i = x :: ys) : index xs i = .ok x :=
  index_eq_ok.mpr (h.trans (congrArg _ (drop_elem h).symm))

theorem slice_eq_ok (h : slice xs lo hi = .ok ys) :
    xs.drop lo = ys ++ xs.drop hi ∧ hi = lo + ys.length := by
  unfold slice at h
  split_ifs at h with hb
  cases h
  constructor
  · have hhi : xs.drop hi = (xs.drop lo).drop (hi - lo) := by
      rw [List.drop_drop, Nat.add_sub_cancel' hb.1]
    rw [hhi, List.take_append_drop]
  · rw [List.length_take, List.length_drop]
    omega

theorem slice_of_drop (h : xs.drop lo = ys ++ zs) (hlo : lo ≤ xs.length)
    (hhi : hi = lo + ys.length) : slice xs lo hi = .ok ys := by
  have hlen := congrArg List.length h
  rw [List.length_drop, List.length_append] at hlen
  rw [slice, if_pos (by omega), h, hhi, Nat.add_sub_cancel_left, List.take_left]

end Reader
end Commute.Fault
