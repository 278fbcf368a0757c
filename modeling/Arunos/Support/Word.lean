import Mathlib.Data.Nat.Bitwise
import Mathlib.Tactic.Linarith
import Mathlib.Tactic.Ring

/-!
# Support — Word — 32-bit words and alignment

Machine words are natural numbers; `u32` is the reduction a 32-bit register performs.  A byte
string `b : Bytes` is read little-endian at 16 and 32 bits (`le16`, `le32`).  Rounding to an
alignment `2 ^ k` is stated with `/` and `%`, which is what the masks of the source compute.
-/

namespace Arunos

/-- A buffer, as the function from an offset to the byte there. -/
abbrev Bytes := Nat → UInt8

/-- What a 32-bit register keeps of `n`. -/
def u32 (n : Nat) : Nat := n % 2 ^ 32

theorem u32_lt (n : Nat) : u32 n < 2 ^ 32 := Nat.mod_lt _ (by decide)

/-- A number below 2^32 does not wrap. -/
theorem u32_of_lt {n : Nat} (h : n < 2 ^ 32) : u32 n = n := Nat.mod_eq_of_lt h

/-- The bytes of `a ||| (b << k)` do not overlap when `a` fits below bit `k`. -/
theorem or_shiftLeft_of_lt {a b k : Nat} (h : a < 2 ^ k) : a ||| (b <<< k) = a + b * 2 ^ k := by
  rw [Nat.or_comm, ← Nat.shiftLeft_add_eq_or_of_lt h, Nat.shiftLeft_eq, Nat.add_comm]

/-- Shifting and merging is adding when the bits do not overlap. -/
theorem shiftLeft_or_of_lt {a b k : Nat} (h : b < 2 ^ k) : (a <<< k) ||| b = a * 2 ^ k + b := by
  rw [← Nat.shiftLeft_add_eq_or_of_lt h, Nat.shiftLeft_eq]

/-- A mask of `n` ones above bit `k` keeps the field there. -/
theorem and_shiftLeft_mask (x n k : Nat) :
    x &&& ((2 ^ n - 1) <<< k) = x / 2 ^ k % 2 ^ n * 2 ^ k := by
  have h : x &&& ((2 ^ n - 1) <<< k) = ((x >>> k) &&& (2 ^ n - 1)) <<< k := by
    refine Nat.eq_of_testBit_eq fun i => ?_
    simp only [Nat.testBit_and, Nat.testBit_shiftLeft, Nat.testBit_shiftRight]
    by_cases hi : k ≤ i
    · simp [hi]
    · simp [hi]
  rw [h, Nat.and_two_pow_sub_one_eq_mod, Nat.shiftRight_eq_div_pow, Nat.shiftLeft_eq]

/-- `p[0] | (p[1] << 8)`. -/
def le16 (b : Bytes) (off : Nat) : Nat :=
  (b off).toNat ||| ((b (off + 1)).toNat <<< 8)

/-- `le16(p) | ((uint32_t)le16(p + 2) << 16)`. -/
def le32 (b : Bytes) (off : Nat) : Nat :=
  le16 b off ||| (le16 b (off + 2) <<< 16)

theorem le16_eq (b : Bytes) (off : Nat) :
    le16 b off = (b off).toNat + (b (off + 1)).toNat * 2 ^ 8 :=
  or_shiftLeft_of_lt (b off).toNat_lt

theorem le16_lt (b : Bytes) (off : Nat) : le16 b off < 2 ^ 16 := by
  rw [le16_eq]
  have h₀ := (b off).toNat_lt
  have h₁ := (b (off + 1)).toNat_lt
  omega

/-- A word is two halfwords, the low one first. -/
theorem le32_eq (b : Bytes) (off : Nat) :
    le32 b off = le16 b off + le16 b (off + 2) * 2 ^ 16 :=
  or_shiftLeft_of_lt (le16_lt b off)

theorem le32_lt (b : Bytes) (off : Nat) : le32 b off < 2 ^ 32 := by
  rw [le32_eq]
  have h₀ := le16_lt b off
  have h₁ := le16_lt b (off + 2)
  omega

/-- `ROUND_DOWN(x, a)` for an alignment `a`. -/
def roundDown (x a : Nat) : Nat := x / a * a

/-- `ROUND_UP(x, a)` for an alignment `a`, in 32 bits. -/
def roundUp (x a : Nat) : Nat := u32 (x + a - 1) / a * a

end Arunos
