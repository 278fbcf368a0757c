import Arunos.Support.Memory

/-!
# Support — Linked — lists threaded through a memory

`Linked m head l` says that following the words stored at the nodes, from `head` to a null
pointer, visits exactly the nodes `l`.  Each node is the address of the word that points to the
next.  A list survives every change of the memory that keeps its nodes' words (`Linked.congr`);
storing the old head at a new node pushes it (`Linked.push`).
-/

namespace Arunos

/-- The nodes from `head` to the null pointer are `l`. -/
def Linked (m : Bytes) : Nat → List Nat → Prop
  | head, [] => head = 0
  | head, p :: l => head = p ∧ p ≠ 0 ∧ Linked m (le32 m p) l

/-- A list depends on the links of its elements alone. -/
theorem Linked.congr {m m' : Bytes} {head : Nat} {l : List Nat} (h : Linked m head l)
    (hm : ∀ p ∈ l, le32 m' p = le32 m p) : Linked m' head l := by
  induction l generalizing head with
  | nil => exact h
  | cons p l ih =>
      obtain ⟨rfl, h₀, hl⟩ := h
      refine ⟨rfl, h₀, ?_⟩
      rw [hm head List.mem_cons_self]
      exact ih hl fun q hq => hm q (List.mem_cons_of_mem _ hq)

theorem Linked.head_eq_zero {m : Bytes} {head : Nat} {l : List Nat} (h : Linked m head l) :
    head = 0 ↔ l = [] := by
  cases l with
  | nil => exact iff_of_true h rfl
  | cons p l =>
      obtain ⟨rfl, h₀, -⟩ := h
      exact iff_of_false h₀ (List.cons_ne_nil _ _)

/-- A node other than the list's own takes the head and becomes the head. -/
theorem Linked.push {m : Bytes} {head p : Nat} {l : List Nat} (h : Linked m head l) (hp : p ≠ 0)
    (hh : head < 2 ^ 32) (hl : ∀ q ∈ l, q + 4 ≤ p ∨ p + 4 ≤ q) :
    Linked (store32 m p head) p (p :: l) := by
  refine ⟨rfl, hp, ?_⟩
  rw [le32_store32 m p hh]
  exact h.congr fun q hq => le32_store32_other (hl q hq)

/-- The list from `head` is determined by the memory. -/
theorem Linked.unique {m : Bytes} {head : Nat} {l l' : List Nat} (h : Linked m head l)
    (h' : Linked m head l') : l = l' := by
  induction l generalizing head l' with
  | nil => exact (h'.head_eq_zero.mp h).symm
  | cons p l ih =>
      cases l' with
      | nil => exact absurd (h.head_eq_zero.mp h') (List.cons_ne_nil _ _)
      | cons q l' =>
          obtain ⟨rfl, -, hl⟩ := h
          obtain ⟨rfl, -, hl'⟩ := h'
          rw [ih hl hl']

/-- The loop `while (p != NULL) { result += k; p = p->next; }`, run for at most `fuel` rounds. -/
def sumList (m : Bytes) (k : Nat) : Nat → Nat → Nat → Option Nat
  | 0, _, _ => none
  | fuel + 1, p, result =>
      if p ≠ 0 then sumList m k fuel (le32 m p) (u32 (result + k)) else some result

/-- The sum over a list comes to its end and does not wrap. -/
theorem Linked.sumList {m : Bytes} {head : Nat} {l : List Nat} (h : Linked m head l) {k : Nat}
    {fuel result : Nat} (hf : l.length < fuel) (hr : result + k * l.length < 2 ^ 32) :
    sumList m k fuel head result = some (result + k * l.length) := by
  induction l generalizing head fuel result with
  | nil =>
      obtain ⟨fuel, rfl⟩ : ∃ n, fuel = n + 1 := ⟨fuel - 1, by simp at hf; omega⟩
      have h₀ : head = 0 := h
      simp [Arunos.sumList, h₀]
  | cons p l ih =>
      obtain ⟨fuel, rfl⟩ : ∃ n, fuel = n + 1 := ⟨fuel - 1, by simp at hf; omega⟩
      obtain ⟨rfl, h₀, hl⟩ := h
      rw [List.length_cons, Nat.mul_add, Nat.mul_one] at hr
      rw [Arunos.sumList, if_pos h₀, u32_of_lt (by omega),
        ih hl (by simp at hf; omega) (by omega), List.length_cons, Nat.mul_add, Nat.mul_one]
      congr 1
      omega

end Arunos
