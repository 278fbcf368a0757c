import Mathlib.Data.Nat.Digits.Lemmas

/-!
# Support — Numeral — positional numerals

A numeral is its list of digits, the most significant first.  It is canonical if it has no leading
zero, except for the numeral `0`; a number has one canonical numeral (`canonicalNumeral_iff`).
-/

namespace Arunos

variable {base n : Nat} {digits : List Nat}

/-- The digits are those of a canonical numeral with the value `n`. -/
structure CanonicalNumeral (base n : Nat) (digits : List Nat) : Prop where
  ne_nil : digits ≠ []
  digit : ∀ d ∈ digits, d < base
  leading : digits.head? = some 0 → digits = [0]
  value : digits.foldl (fun m d => m * base + d) 0 = n

/-- The numeral of `n`. -/
def numeral (base n : Nat) : List Nat := if n = 0 then [0] else (Nat.digits base n).reverse

theorem numeral_of_lt (h : n < base) : numeral base n = [n] := by
  by_cases hn : n = 0
  · rw [numeral, if_pos hn, hn]
  · rw [numeral, if_neg hn, Nat.digits_of_lt base n hn h]
    rfl

/-- The last digit is the remainder, the others are the numeral of the quotient. -/
theorem numeral_of_le (hbase : 1 < base) (h : base ≤ n) :
    numeral base n = numeral base (n / base) ++ [n % base] := by
  have hdiv : n / base ≠ 0 := by
    rw [Ne, Nat.div_eq_zero_iff]
    omega
  rw [numeral, numeral, if_neg (by omega), if_neg hdiv, Nat.digits_def' hbase (by omega),
    List.reverse_cons]

/-- Reading the digits one by one gives the number they stand for. -/
theorem foldl_eq_ofDigits (base : Nat) (digits : List Nat) :
    digits.foldl (fun m d => m * base + d) 0 = Nat.ofDigits base digits.reverse := by
  rw [Nat.ofDigits_eq_foldr, List.foldr_reverse]
  congr 1
  funext m d
  push_cast
  ring

/-- The numeral of a number is canonical. -/
theorem canonicalNumeral_numeral (hbase : 1 < base) (n : Nat) :
    CanonicalNumeral base n (numeral base n) := by
  by_cases hn : n = 0
  · subst hn
    exact ⟨List.cons_ne_nil _ _, by simpa [numeral] using Nat.zero_lt_of_lt hbase, fun _ => rfl,
      by simp [numeral]⟩
  · have hne : Nat.digits base n ≠ [] := Nat.digits_ne_nil_iff_ne_zero.mpr hn
    rw [numeral, if_neg hn]
    refine ⟨List.reverse_ne_nil_iff.mpr hne, fun d hd => ?_, fun hzero => ?_, ?_⟩
    · exact Nat.digits_lt_base hbase (List.mem_reverse.mp hd)
    · rw [List.head?_reverse, List.getLast?_eq_some_getLast hne, Option.some.injEq] at hzero
      exact absurd hzero (Nat.getLast_digit_ne_zero base hn)
    · rw [foldl_eq_ofDigits, List.reverse_reverse, Nat.ofDigits_digits]

/-- A number has one canonical numeral. -/
theorem canonicalNumeral_iff (hbase : 1 < base) :
    CanonicalNumeral base n digits ↔ digits = numeral base n := by
  refine ⟨?_, fun h => h ▸ canonicalNumeral_numeral hbase n⟩
  rintro ⟨hne, hdigit, hlead, hvalue⟩
  rw [foldl_eq_ofDigits] at hvalue
  by_cases hzero : digits = [0]
  · subst hzero
    rw [← hvalue]
    rfl
  · -- the digits are those of the library, which have no zero at the end
    have hlast : ∀ h : digits.reverse ≠ [], digits.reverse.getLast h ≠ 0 := by
      intro h hlast
      refine hzero (hlead ?_)
      rw [← List.getLast?_reverse, List.getLast?_eq_some_getLast h, hlast]
    have hdigits := Nat.digits_ofDigits base hbase digits.reverse
      (fun d hd => hdigit d (List.mem_reverse.mp hd)) hlast
    rw [hvalue] at hdigits
    have hn : n ≠ 0 := by
      rintro rfl
      rw [Nat.digits_zero] at hdigits
      exact hne (List.reverse_eq_nil_iff.mp hdigits.symm)
    rw [numeral, if_neg hn, hdigits, List.reverse_reverse]

end Arunos
