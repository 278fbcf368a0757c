import Mathlib.Logic.Function.Basic
import Mathlib.Tactic.Common

/-!
# Support — Ring — a queue in a circle of slots

A queue in `n` slots: `head` is where the next element goes and `tail` is where the oldest one is.
Equal indices mean an empty queue, so one slot stays free and `n - 1` elements fit.

`contents` lists the elements, oldest first.  Storing at `head` appends one (`contents_push`) and
moving `tail` on removes the first (`contents_pop`).
-/

namespace Arunos

namespace Ring

variable {α : Type*} {n tail head : Nat}

/-- The slot after `i`. -/
def next (n i : Nat) : Nat := if i + 1 = n then 0 else i + 1

/-- The number of slots from `tail` round to `head`. -/
def count (n tail head : Nat) : Nat := if tail ≤ head then head - tail else head + n - tail

/-- The elements of `k` slots, from `tail` round the circle. -/
def walk (n : Nat) (slots : Nat → α) : Nat → Nat → List α
  | 0, _ => []
  | k + 1, tail => slots tail :: walk n slots k (next n tail)

/-- The elements in the queue, oldest first. -/
def contents (n : Nat) (slots : Nat → α) (tail head : Nat) : List α :=
  walk n slots (count n tail head) tail

theorem next_lt {i : Nat} (h : i < n) : next n i < n := by
  unfold next
  split <;> omega

/-- A ring of `n` slots holds less than `n` elements. -/
theorem count_lt (ht : tail < n) (hh : head < n) : count n tail head < n := by
  unfold count
  split <;> omega

theorem count_eq_zero (ht : tail < n) : count n tail head = 0 ↔ tail = head := by
  unfold count
  split <;> omega

/-- One element more when the head moves on. -/
theorem count_next_head (ht : tail < n) (h : next n head ≠ tail) :
    count n tail (next n head) = count n tail head + 1 := by
  unfold next at h ⊢
  unfold count
  split_ifs at h ⊢ <;> omega

/-- One element less when the tail moves on. -/
theorem count_next_tail (ht : tail < n) (hh : head < n) (h : tail ≠ head) :
    count n tail head = count n (next n tail) head + 1 := by
  unfold next count
  split_ifs <;> omega

/-- One slot is kept free. -/
theorem full_iff (ht : tail < n) (hh : head < n) :
    next n head = tail ↔ count n tail head = n - 1 := by
  unfold next count
  split_ifs <;> omega

@[simp] theorem length_walk (slots : Nat → α) (k tail : Nat) :
    (walk n slots k tail).length = k := by
  induction k generalizing tail with
  | zero => rfl
  | succ k ih => rw [walk, List.length_cons, ih]

@[simp] theorem length_contents (slots : Nat → α) :
    (contents n slots tail head).length = count n tail head := length_walk _ _ _

theorem contents_self (slots : Nat → α) : contents n slots tail tail = [] := by
  simp [contents, count, walk]

/-- A ring is empty if and only if its indices meet. -/
theorem contents_eq_nil (slots : Nat → α) (ht : tail < n) :
    contents n slots tail head = [] ↔ tail = head := by
  rw [← List.length_eq_zero_iff, length_contents, count_eq_zero ht]

/-- Moving `tail` on removes the oldest element. -/
theorem contents_pop (slots : Nat → α) (ht : tail < n) (hh : head < n) (h : tail ≠ head) :
    contents n slots tail head = slots tail :: contents n slots (next n tail) head := by
  unfold contents
  rw [count_next_tail ht hh h, walk]

/-- A walk to the slot `head` does not see it; one that goes on ends with it. -/
theorem walk_update (slots : Nat → α) (b : α) (hh : head < n) (k : Nat) (ht : tail < n)
    (hk : count n tail head = k) :
    walk n (Function.update slots head b) (k + 1) tail = walk n slots k tail ++ [b] := by
  induction k generalizing tail with
  | zero =>
      obtain rfl := (count_eq_zero ht).mp hk
      simp [walk]
  | succ k ih =>
      have hne : tail ≠ head := fun h => by
        rw [(count_eq_zero ht).mpr h] at hk
        cases hk
      have hcount := count_next_tail ht hh hne
      rw [walk, Function.update_of_ne hne, ih (next_lt ht) (by omega), walk, List.cons_append]

/-- Storing at `head`, unless the queue is full, appends an element. -/
theorem contents_push (slots : Nat → α) (b : α) (ht : tail < n) (hh : head < n)
    (h : next n head ≠ tail) :
    contents n (Function.update slots head b) tail (next n head) =
      contents n slots tail head ++ [b] := by
  unfold contents
  rw [count_next_head ht h]
  exact walk_update slots b hh _ ht rfl

end Ring

end Arunos
