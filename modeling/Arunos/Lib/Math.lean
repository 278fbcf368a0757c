import Arunos.Support.Word

/-!
# Lib — Math — the bit-serial division of `lib/math.c`

`unsigned_divmod` scans the numerator from bit 31 down, shifting the partial remainder left and
subtracting the denominator when it fits.  Before bit `i` is scanned the remainder and the
quotient are those of the numerator's bits above `i`.
-/

namespace Arunos

/-- The loop of `unsigned_divmod`, with `i` bits still to scan. -/
def divmodLoop (numerator denominator : Nat) : Nat → Nat → Nat → Nat × Nat
  | 0, quotient, remainder => (quotient, remainder)
  | i + 1, quotient, remainder =>
      let numeratorBit := if numerator &&& (1 <<< i) ≠ 0 then 1 else 0
      let remainder := u32 (remainder <<< 1) ||| numeratorBit
      if remainder ≥ denominator then
        divmodLoop numerator denominator i (quotient ||| (1 <<< i)) (remainder - denominator)
      else
        divmodLoop numerator denominator i quotient remainder

/-- `unsigned_divmod`: the quotient it returns and the remainder it stores. -/
def unsignedDivmod (numerator denominator : Nat) : Nat × Nat :=
  divmodLoop numerator denominator 32 0 0

theorem numeratorBit_eq (n i : Nat) :
    (if n &&& (1 <<< i) ≠ 0 then 1 else 0) = n / 2 ^ i % 2 := by
  rw [Nat.one_shiftLeft, Nat.and_two_pow]
  cases h : n.testBit i
  · have : n / 2 ^ i % 2 ≠ 1 := fun e => by
      rw [Nat.testBit_eq_decide_div_mod_eq] at h
      simp [e] at h
    simp only [Bool.toNat_false, Nat.zero_mul, ne_eq, not_true_eq_false, if_false]
    omega
  · rw [Nat.testBit_eq_decide_div_mod_eq] at h
    have : n / 2 ^ i % 2 = 1 := of_decide_eq_true h
    simp [this]

/-- The numerator's bits from `i` up are the bits above `i`, shifted, with bit `i`. -/
theorem div_two_pow_succ (n i : Nat) : n / 2 ^ i = 2 * (n / 2 ^ (i + 1)) + n / 2 ^ i % 2 := by
  rw [pow_succ, ← Nat.div_div_eq_div_mul]
  omega

/-- The shift of the partial remainder keeps every bit: the remainder is at most the
numerator's prefix, which is below `2 ^ 31` as long as a bit is left to scan. -/
theorem shift_remainder {n d i : Nat} (hn : n < 2 ^ 32) :
    u32 ((n / 2 ^ (i + 1) % d) <<< 1) = 2 * (n / 2 ^ (i + 1) % d) := by
  have h₁ : n / 2 ^ (i + 1) % d ≤ n / 2 ^ (i + 1) := Nat.mod_le _ _
  have h₂ : n / 2 ^ (i + 1) ≤ n / 2 := by
    rw [pow_succ, Nat.mul_comm, ← Nat.div_div_eq_div_mul]
    exact Nat.div_le_self _ _
  rw [Nat.shiftLeft_eq, pow_one, Nat.mul_comm, u32_of_lt (by omega)]

/-! ### The rounds of the loop -/

/-- The round of the loop at bit `i`, on the quotient and the remainder. -/
def divmodRound (numerator denominator i : Nat) (s : Nat × Nat) : Nat × Nat :=
  let numeratorBit := if numerator &&& (1 <<< i) ≠ 0 then 1 else 0
  let remainder := u32 (s.2 <<< 1) ||| numeratorBit
  if remainder ≥ denominator then (s.1 ||| (1 <<< i), remainder - denominator)
  else (s.1, remainder)

/-- The quotient and the remainder after `k` rounds. -/
def divmodAfter (numerator denominator : Nat) : Nat → Nat × Nat
  | 0 => (0, 0)
  | k + 1 => divmodRound numerator denominator (31 - k) (divmodAfter numerator denominator k)

theorem divmodLoop_succ (n d i : Nat) (s : Nat × Nat) :
    divmodLoop n d (i + 1) s.1 s.2 =
      divmodLoop n d i (divmodRound n d i s).1 (divmodRound n d i s).2 := by
  simp only [divmodLoop, divmodRound]
  generalize u32 (s.2 <<< 1) ||| _ = remainder
  split <;> rfl

/-- The rounds are those of `unsigned_divmod`: after any number of them the loop goes on from
there to its result. -/
theorem divmodLoop_after (n d : Nat) {k : Nat} (hk : k ≤ 32) :
    divmodLoop n d (32 - k) (divmodAfter n d k).1 (divmodAfter n d k).2 = unsignedDivmod n d := by
  induction k with
  | zero => rfl
  | succ k ih =>
      have hi : 32 - k = 31 - k + 1 := by omega
      rw [← ih (by omega), hi, divmodLoop_succ, divmodAfter, show 32 - (k + 1) = 31 - k by omega]

/-- A step of long division: the next bit is put behind the dividend. -/
theorem longDivision_step {d q r bit : Nat} (hr : r < d) (hbit : bit < 2) :
    (2 * (d * q + r) + bit) / d = (if 2 * r + bit ≥ d then 2 * q + 1 else 2 * q) ∧
      (2 * (d * q + r) + bit) % d = if 2 * r + bit ≥ d then 2 * r + bit - d else 2 * r + bit := by
  have hd : 0 < d := Nat.zero_lt_of_lt hr
  by_cases hge : 2 * r + bit ≥ d
  · rw [if_pos hge, if_pos hge]
    refine (Nat.div_mod_unique hd).mpr ⟨?_, by omega⟩
    rw [Nat.mul_add, Nat.mul_one, Nat.mul_left_comm]
    omega
  · rw [if_neg hge, if_neg hge]
    refine (Nat.div_mod_unique hd).mpr ⟨?_, by omega⟩
    rw [Nat.mul_left_comm]
    omega

/-- The quotient gains bit `i`. -/
theorem or_quotient_bit (q i : Nat) : q * 2 ^ (i + 1) ||| 1 <<< i = (2 * q + 1) * 2 ^ i := by
  have hlt : 2 ^ i < 2 ^ (i + 1) := Nat.pow_lt_pow_right (by decide) (Nat.lt_succ_self i)
  rw [Nat.one_shiftLeft, Nat.mul_comm, ← Nat.two_pow_add_eq_or_of_lt hlt]
  ring

/-- A round takes the quotient and the remainder of the prefix above bit `i` to those of the prefix
from bit `i` on. -/
theorem divmodRound_prefix {n d : Nat} (hn : n < 2 ^ 32) (hd : 0 < d) (i : Nat) :
    divmodRound n d i (n / 2 ^ (i + 1) / d * 2 ^ (i + 1), n / 2 ^ (i + 1) % d) =
      (n / 2 ^ i / d * 2 ^ i, n / 2 ^ i % d) := by
  have hbit : 2 * (n / 2 ^ (i + 1) % d) ||| n / 2 ^ i % 2 =
      2 * (n / 2 ^ (i + 1) % d) + n / 2 ^ i % 2 := by
    have := Nat.two_pow_add_eq_or_of_lt (i := 1) (b := n / 2 ^ i % 2) (by omega)
      (n / 2 ^ (i + 1) % d)
    simpa using this.symm
  have hlt : n / 2 ^ (i + 1) % d < d := Nat.mod_lt _ hd
  -- the prefix from bit `i` on is the one above it with the bit behind it
  have hdividend : 2 * (d * (n / 2 ^ (i + 1) / d) + n / 2 ^ (i + 1) % d) + n / 2 ^ i % 2 =
      n / 2 ^ i := by
    rw [Nat.div_add_mod, ← div_two_pow_succ]
  obtain ⟨hdiv, hmod⟩ := longDivision_step (q := n / 2 ^ (i + 1) / d) hlt
    (Nat.mod_lt (n / 2 ^ i) (show 0 < 2 by decide))
  rw [hdividend] at hdiv hmod
  have hsh : u32 ((n / 2 ^ (i + 1) % d) <<< 1) = 2 * (n / 2 ^ (i + 1) % d) := shift_remainder hn
  simp only [divmodRound, numeratorBit_eq, hsh, hbit]
  generalize n / 2 ^ (i + 1) / d = q at hdiv hmod ⊢
  generalize n / 2 ^ (i + 1) % d = r at hdiv hmod ⊢
  split
  next hge => rw [hdiv, hmod, if_pos hge, if_pos hge, or_quotient_bit]
  next hlt =>
    rw [hdiv, hmod, if_neg hlt, if_neg hlt]
    refine congrArg (·, _) ?_
    ring

/-- After `k` rounds the quotient and the remainder are those of the numerator's first `k` bits. -/
theorem divmodAfter_eq {n d : Nat} (hn : n < 2 ^ 32) (hd : 0 < d) {k : Nat} (hk : k ≤ 32) :
    divmodAfter n d k = (n / 2 ^ (32 - k) / d * 2 ^ (32 - k), n / 2 ^ (32 - k) % d) := by
  induction k with
  | zero => rw [Nat.sub_zero, Nat.div_eq_of_lt hn, Nat.zero_div, Nat.zero_mul, Nat.zero_mod]; rfl
  | succ k ih =>
      have hi : 32 - k = 31 - k + 1 := by omega
      rw [divmodAfter, ih (by omega), hi, divmodRound_prefix hn hd,
        show 32 - (k + 1) = 31 - k by omega]

/-- The division is the division of naturals. -/
theorem unsignedDivmod_eq {n d : Nat} (hn : n < 2 ^ 32) (hd : 0 < d) :
    unsignedDivmod n d = (n / d, n % d) := by
  rw [← divmodLoop_after n d le_rfl, divmodAfter_eq hn hd le_rfl]
  simp [divmodLoop]

/-- **The division is exact.**  `unsigned_divmod` returns the quotient and stores the remainder,
which are what its 32 rounds end with, and the shift at the head of each round keeps every bit of
the remainder. -/
theorem unsignedDivmod_exact {numerator denominator : Nat} (hn : numerator < 2 ^ 32)
    (hd : denominator ≠ 0) :
    unsignedDivmod numerator denominator = (numerator / denominator, numerator % denominator) ∧
      divmodAfter numerator denominator 32 = unsignedDivmod numerator denominator ∧
      ∀ k < 32, u32 ((divmodAfter numerator denominator k).2 <<< 1) =
        (divmodAfter numerator denominator k).2 <<< 1 := by
  have hpos := Nat.pos_of_ne_zero hd
  refine ⟨unsignedDivmod_eq hn hpos, ?_, fun k hk => ?_⟩
  · rw [← divmodLoop_after _ _ le_rfl, Nat.sub_self, divmodLoop]
  · have hi : 32 - k = 31 - k + 1 := by omega
    rw [divmodAfter_eq hn hpos hk.le, hi, shift_remainder hn, Nat.shiftLeft_eq, pow_one,
      Nat.mul_comm]

/-- The hypotheses are satisfiable, with a denominator above `2 ^ 31`. -/
theorem unsignedDivmod_exact_large :
    unsignedDivmod 0xffffffff 0x80000001 = (1, 0x7ffffffe) ∧
      (divmodAfter 0xffffffff 0x80000001 31).2 <<< 1 = 0xfffffffe := by
  obtain ⟨h, -, hshift⟩ := unsignedDivmod_exact (show 0xffffffff < 2 ^ 32 by decide)
    (show 0x80000001 ≠ 0 by decide)
  have hafter := divmodAfter_eq (show 0xffffffff < 2 ^ 32 by decide)
    (show 0 < 0x80000001 by decide) (show 31 ≤ 32 by decide)
  refine ⟨h, (hshift 31 (by decide)).symm.trans ?_⟩
  rw [hafter]
  rfl

end Arunos
