import Mathlib.Data.List.Iterate
import Mathlib.Logic.Function.Iterate

/-!
# Support — Orbit — following a function until it stops

A linked structure is a function `f` from each node to the next and a test `stop` of the nodes
that end it.  `orbit f stop fuel a` lists the nodes from `a` up to the first that stops.

When the nodes before step `n` do not stop and the node at step `n` does, the orbit is the first
`n` iterates (`orbit_eq`), and they are pairwise distinct (`iterate_ne`): a repetition would
repeat for ever, and the orbit stops.
-/

namespace Arunos

variable {α : Type*} (f : α → α) (stop : α → Bool)

/-- The nodes from `a` up to the first that stops, `fuel` at most. -/
def orbit : Nat → α → List α
  | 0, _ => []
  | n + 1, a => if stop a then [] else a :: orbit n (f a)

variable {f stop}

/-- The orbit is the iterates up to the first that stops it. -/
theorem orbit_eq {n fuel : Nat} {a : α} (hf : n < fuel)
    (go : ∀ i < n, stop (f^[i] a) = false) (halt : stop (f^[n] a) = true) :
    orbit f stop fuel a = List.iterate f a n := by
  induction n generalizing a fuel with
  | zero =>
      obtain ⟨fuel, rfl⟩ : ∃ k, fuel = k + 1 := ⟨fuel - 1, by omega⟩
      have h : stop a = true := halt
      simp [orbit, h]
  | succ n ih =>
      obtain ⟨fuel, rfl⟩ : ∃ k, fuel = k + 1 := ⟨fuel - 1, by omega⟩
      have h : stop a = false := go 0 (by omega)
      have t : orbit f stop fuel (f a) = List.iterate f (f a) n :=
        ih (by omega) (fun i hi => go (i + 1) (by omega)) halt
      simp [orbit, h, t, List.iterate]

/-- Two equal iterates before the stop would shift the stop below itself. -/
theorem iterate_ne {n : Nat} {a : α} (go : ∀ i < n, stop (f^[i] a) = false)
    (halt : stop (f^[n] a) = true) {i j : Nat} (hij : i < j) (hj : j < n) :
    f^[i] a ≠ f^[j] a := by
  intro e
  have h₁ : f^[n - j + i] a = f^[n] a := by
    rw [Function.iterate_add_apply, e, ← Function.iterate_add_apply, Nat.sub_add_cancel hj.le]
  have h₂ := go (n - j + i) (by omega)
  rw [h₁, halt] at h₂
  exact absurd h₂ (by decide)

theorem iterate_nodup {n : Nat} {a : α} (go : ∀ i < n, stop (f^[i] a) = false)
    (halt : stop (f^[n] a) = true) : (List.iterate f a n).Nodup := by
  refine List.pairwise_iff_getElem.mpr fun i j hi hj hij => ?_
  rw [List.length_iterate] at hi hj
  simp only [List.getElem_iterate]
  exact iterate_ne go halt hij hj

end Arunos
