import Mathlib.Tactic.Common

/-!
# Support — RoundRobin — taking turns round a circle

`n` slots stand in a circle.  A call looks for the first ready slot after the one chosen last
(`First`), and the slots that are ready change between the calls as they like.  `gap n r x` is the
number of slots passed over on the way from `r` to `x`: a full turn, less one, back to `r` itself.

A slot that stays ready is passed by nobody: the order in which the circle meets two slots is kept
by every choice of a third (`First.keeps_order`), so a slot chosen twice leaves room for the other
in between (`chosen_between`).
-/

namespace Arunos

namespace RoundRobin

variable {n r s x : Nat}

/-- The slots passed over from `r` to `x`. -/
def gap (n r x : Nat) : Nat := if r < x then x - r - 1 else x + n - r - 1

theorem gap_lt (hr : r < n) (hx : x < n) : gap n r x < n := by
  unfold gap
  split <;> omega

theorem gap_injective (hr : r < n) (hx : x < n) (hs : s < n) (h : gap n r x = gap n r s) :
    x = s := by
  unfold gap at h
  split_ifs at h <;> omega

/-- From a slot every other one comes before it comes again. -/
theorem gap_lt_gap_self (hr : r < n) (hx : x < n) (h : x ≠ r) : gap n r x < gap n r r := by
  unfold gap
  split_ifs <;> omega

/-- Going on from a slot on the way. -/
theorem gap_of_lt (hr : r < n) (hs : s < n) (hx : x < n) (h : gap n r s < gap n r x) :
    gap n s x + gap n r s + 1 = gap n r x := by
  unfold gap at h ⊢
  split_ifs at h ⊢ <;> omega

/-- `s` is the first ready slot after `r`. -/
structure First (n : Nat) (ready : Nat → Prop) (r s : Nat) : Prop where
  lt : s < n
  isReady : ready s
  first : ∀ x, x < n → ready x → gap n r s ≤ gap n r x

/-- A slot that is ready and not chosen is still met before one that came after it. -/
theorem First.keeps_order {ready : Nat → Prop} {j k : Nat} (h : First n ready r s) (hr : r < n)
    (hk : k < n) (hj : j < n) (hready : ready k) (hne : s ≠ k) (hord : gap n r k < gap n r j) :
    gap n s k < gap n s j := by
  have hle := h.first k hk hready
  have hlt : gap n r s < gap n r k :=
    Nat.lt_of_le_of_ne hle fun he => hne (gap_injective hr h.lt hk he)
  have hk' := gap_of_lt hr h.lt hk hlt
  have hj' := gap_of_lt hr h.lt hj (Nat.lt_trans hlt hord)
  omega

/-- **No slot waits for two turns of another.**  `index i` is where the `i`-th call starts. -/
theorem chosen_between (ready : Nat → Nat → Prop) (index : Nat → Nat) (choice : Nat → Option Nat)
    (hindex : ∀ i, index i < n)
    (hsome : ∀ i s, choice i = some s → index (i + 1) = s ∧ First n (ready i) (index i) s)
    (hnone : ∀ i, choice i = none → ∀ x, x < n → ¬ ready i x) {a b j k : Nat} (hab : a < b)
    (ha : choice a = some j) (hb : choice b = some j) (hk : k < n) (hne : k ≠ j)
    (hready : ∀ c, a < c → c ≤ b → ready c k) : ∃ c, a < c ∧ c < b ∧ choice c = some k := by
  by_contra hnot
  obtain ⟨haj, hafirst⟩ := hsome a j ha
  have hj := hafirst.lt
  -- up to the second choice of `j`, a call meets `k` before `j`
  have hord : ∀ d, a + 1 + d ≤ b → gap n (index (a + 1 + d)) k < gap n (index (a + 1 + d)) j := by
    intro d
    induction d with
    | zero =>
        intro _
        rw [Nat.add_zero, haj]
        exact gap_lt_gap_self hj hk hne
    | succ d ih =>
        intro hd
        have hr := hready (a + 1 + d) (by omega) (by omega)
        cases hc : choice (a + 1 + d) with
        | none => exact absurd hr (hnone _ hc k hk)
        | some s =>
            obtain ⟨hs, hfirst⟩ := hsome _ s hc
            have hsk : s ≠ k := fun he => hnot ⟨a + 1 + d, by omega, by omega, he ▸ hc⟩
            have := hfirst.keeps_order (hindex _) hk hj hr hsk (ih (by omega))
            rwa [← hs] at this
  have hlast := hord (b - (a + 1)) (by omega)
  rw [show a + 1 + (b - (a + 1)) = b by omega] at hlast
  have hle := (hsome b j hb).2.first k hk (hready b hab b.le_refl)
  omega

end RoundRobin

end Arunos
