import Arunos.Support.Memory
import Mathlib.Data.List.TakeWhile

/-!
# Lib — String — the byte moves and comparisons of `lib/string.c`

`memset` and `memcpy` run upwards over the target.  A source in another object is a buffer of
its own (`memcpy`); a source in the same memory is read as the loop goes (`memcpyWithin`).

A C string is the list of its bytes before the terminator; a pointer into it is the rest of the
list from there.  Where the terminator itself is in question, a pointer into an array is the rest
of the array, and reading or writing past its end is a fault (`strlen`, `strcmp`, `strncmp`,
`strcpy`, `strlcpy`).  An array holds (`HoldsString`) the string before its first NUL; on strings
the comparisons are equality and being a prefix, and the copies put the string into the target.
-/

namespace Arunos

/-- An `int` stored in a `char`. -/
def toChar (c : Int) : UInt8 := UInt8.ofNat (c % 256).toNat

theorem toNat_toChar {c : Int} (h₁ : 0 ≤ c) (h₂ : c < 256) : ((toChar c).toNat : Int) = c := by
  simp only [toChar, UInt8.toNat_ofNat']
  omega

/-- `memset(target, c, len)`. -/
def memset (m : Bytes) (target : Nat) (c : UInt8) : Nat → Bytes
  | 0 => m
  | i + 1 => Function.update (memset m target c i) (target + i) c

/-- `memcpy(target, source, n)`, from a buffer outside the memory. -/
def memcpy (m : Bytes) (target : Nat) (source : Bytes) : Nat → Bytes
  | 0 => m
  | i + 1 => Function.update (memcpy m target source i) (target + i) (source i)

/-- `memcpy(target, source, n)`, both in the memory. -/
def memcpyWithin (m : Bytes) (target source : Nat) : Nat → Bytes
  | 0 => m
  | i + 1 =>
      let m' := memcpyWithin m target source i
      Function.update m' (target + i) (m' (source + i))

/-- `strchr(str, character)`: the rest of `str` from the first occurrence.  The terminator is
found when `character` is NUL. -/
def strchr : List UInt8 → UInt8 → Option (List UInt8)
  | [], character => if character = 0 then some [] else none
  | c :: str, character => if c = character then some (c :: str) else strchr str character

/-- `strlen(str)`. -/
def strlen : List UInt8 → Option Nat
  | [] => none
  | c :: str => if c ≠ 0 then (strlen str).map (· + 1) else some 0

/-- `strcmp(s1, s2)`. -/
def strcmp : List UInt8 → List UInt8 → Option Int
  | c :: s1, d :: s2 =>
      if c = d ∧ c ≠ 0 ∧ d ≠ 0 then strcmp s1 s2 else some (c.toNat - d.toNat)
  | _, _ => none

/-- The loop of `strncmp`, with `n - 1 - i = m`. -/
def strncmpLoop : List UInt8 → List UInt8 → Nat → Option Int
  | c :: s1, d :: s2, m =>
      if c = d ∧ c ≠ 0 ∧ d ≠ 0 ∧ 0 < m then strncmpLoop s1 s2 (m - 1)
      else some (c.toNat - d.toNat)
  | _, _, _ => none

/-- `strncmp(s1, s2, n)`. -/
def strncmp (s1 s2 : List UInt8) (n : Nat) : Option Int :=
  if n = 0 then some 0 else strncmpLoop s1 s2 (n - 1)

/-- `strcpy(target, source)`: the array it leaves. -/
def strcpy : List UInt8 → List UInt8 → Option (List UInt8)
  | _ :: target, c :: source =>
      if c ≠ 0 then (strcpy target source).map (c :: ·) else some (0 :: target)
  | _, _ => none

/-- The store `target[i] = '\0'` at a pointer. -/
def storeNul : List UInt8 → Option (List UInt8)
  | [] => none
  | _ :: target => some (0 :: target)

/-- `strlcpy` up to the store of the terminator, with `n - i` bytes of the target left. -/
def strlcpyLoop : List UInt8 → List UInt8 → Nat → Option (List UInt8)
  | target, _, 0 => some target
  | target, _, 1 => storeNul target
  | _, [], _ + 2 => none
  | target, c :: source, n + 2 =>
      if c ≠ 0 then
        match target with
        | [] => none
        | _ :: target => (strlcpyLoop target source (n + 1)).map (c :: ·)
      else storeNul target

/-- `strlcpy(target, source, n)`: what it returns and the array it leaves. -/
def strlcpy (target source : List UInt8) (n : Nat) : Option (Nat × List UInt8) := do
  let target ← strlcpyLoop target source n
  return (← strlen source, target)

theorem memset_apply (m : Bytes) (t : Nat) (c : UInt8) (n x : Nat) :
    memset m t c n x = if t ≤ x ∧ x < t + n then c else m x := by
  induction n with
  | zero => rw [if_neg (by omega)]; rfl
  | succ n ih =>
      simp only [memset, Function.update_apply, ih]
      split_ifs <;> first | rfl | omega

theorem memcpy_apply (m : Bytes) (t : Nat) (s : Bytes) (n x : Nat) :
    memcpy m t s n x = if t ≤ x ∧ x < t + n then s (x - t) else m x := by
  induction n with
  | zero => rw [if_neg (by omega)]; rfl
  | succ n ih =>
      simp only [memcpy, Function.update_apply, ih]
      by_cases hx : x = t + n
      · subst hx
        rw [if_pos rfl, if_pos ⟨by omega, by omega⟩, Nat.add_sub_cancel_left]
      · rw [if_neg hx]
        split_ifs <;> first | rfl | omega

/-- Between disjoint ranges, the target gets the bytes the source had. -/
theorem memcpyWithin_apply (m : Bytes) {t s n : Nat} (h : t + n ≤ s ∨ s + n ≤ t) (x : Nat) :
    memcpyWithin m t s n x = if t ≤ x ∧ x < t + n then m (s + (x - t)) else m x := by
  have step : ∀ k ≤ n, ∀ x, memcpyWithin m t s k x =
      if t ≤ x ∧ x < t + k then m (s + (x - t)) else m x := by
    intro k
    induction k with
    | zero => intro _ x; rw [if_neg (by omega)]; rfl
    | succ k ih =>
        intro hk x
        have hs : memcpyWithin m t s k (s + k) = m (s + k) := by
          rw [ih (by omega), if_neg (by omega)]
        simp only [memcpyWithin, Function.update_apply, hs, ih (by omega) x]
        by_cases hx : x = t + k
        · subst hx
          rw [if_pos rfl, if_pos ⟨by omega, by omega⟩, Nat.add_sub_cancel_left]
        · rw [if_neg hx]
          split_ifs <;> first | rfl | omega
  exact step n le_rfl x

theorem memset_other {m : Bytes} {t : Nat} {c : UInt8} {n x : Nat} (h : x < t ∨ t + n ≤ x) :
    memset m t c n x = m x := by
  rw [memset_apply, if_neg (by omega)]

theorem memcpy_other {m s : Bytes} {t n x : Nat} (h : x < t ∨ t + n ≤ x) :
    memcpy m t s n x = m x := by
  rw [memcpy_apply, if_neg (by omega)]

-- the loops are known by what they leave at each address
attribute [irreducible] memset memcpy memcpyWithin

/-! ### Strings in arrays -/

/-- The string in an array: the bytes before its first NUL, or all of them. -/
def cstring (array : List UInt8) : List UInt8 := array.takeWhile (· ≠ 0)

@[simp] theorem cstring_nil : cstring [] = [] := rfl

@[simp] theorem cstring_nul (array : List UInt8) : cstring (0 :: array) = [] := rfl

theorem cstring_cons {c : UInt8} (hc : c ≠ 0) (array : List UInt8) :
    cstring (c :: array) = c :: cstring array := by
  simp [cstring, hc]

theorem cstring_of_notMem {array : List UInt8} (h : 0 ∉ array) : cstring array = array := by
  refine List.takeWhile_eq_self_iff.mpr ?_
  intro c hc
  simpa using fun he : c = 0 => h (he ▸ hc)

theorem strchr_ne_none {str : List UInt8} {c : UInt8} :
    strchr str c ≠ none ↔ c ∈ str ∨ c = 0 := by
  induction str with
  | nil => simp [strchr]
  | cons d str ih =>
      by_cases hd : d = c
      · simp [strchr, hd]
      · simpa [strchr, hd, Ne.symm hd] using ih

/-- The array has the string `str` before its first NUL. -/
def HoldsString (array str : List UInt8) : Prop := 0 ∉ str ∧ ∃ rest, array = str ++ 0 :: rest

variable {s t str key : List UInt8} {c : UInt8}

theorem HoldsString.nil (rest : List UInt8) : HoldsString (0 :: rest) [] := ⟨by simp, rest, rfl⟩

theorem HoldsString.cons (h : HoldsString s str) (hc : c ≠ 0) :
    HoldsString (c :: s) (c :: str) := by
  obtain ⟨h₀, rest, rfl⟩ := h
  exact ⟨by simp [h₀, hc.symm], rest, rfl⟩

/-- The head of an array that holds a string: the string's, or the terminator. -/
theorem HoldsString.cases (h : HoldsString s str) :
    (∃ s', s = 0 :: s' ∧ str = []) ∨
      ∃ c s' str', s = c :: s' ∧ str = c :: str' ∧ c ≠ 0 ∧ HoldsString s' str' := by
  obtain ⟨h₀, rest, rfl⟩ := h
  cases str with
  | nil => exact .inl ⟨rest, rfl, rfl⟩
  | cons c str =>
      have hc : c ≠ 0 := fun hc => h₀ (by simp [hc])
      exact .inr ⟨c, str ++ 0 :: rest, str, rfl, rfl, hc, fun hs => h₀ (by simp [hs]), rest, rfl⟩

theorem HoldsString.terminated (h : HoldsString s str) : 0 ∈ s := by
  obtain ⟨-, rest, rfl⟩ := h
  simp

theorem HoldsString.strlen (h : HoldsString s str) : Arunos.strlen s = some str.length := by
  obtain ⟨h₀, rest, rfl⟩ := h
  induction str with
  | nil => rfl
  | cons c str ih =>
      have hc : c ≠ 0 := fun hc => h₀ (by simp [hc])
      simp [Arunos.strlen, hc, ih fun hs => h₀ (by simp [hs])]

private theorem byte_sub_eq_zero {c d : UInt8} : (c.toNat : Int) - d.toNat = 0 ↔ c = d := by
  rw [← UInt8.toNat_inj]
  omega

/-- `strcmp` finds strings equal. -/
theorem HoldsString.strcmp (hs : HoldsString s str) (ht : HoldsString t key) :
    ∃ r, Arunos.strcmp s t = some r ∧ (r = 0 ↔ str = key) := by
  induction s generalizing t str key with
  | nil => obtain ⟨s', h, -⟩ | ⟨c, s', str', h, -⟩ := hs.cases <;> cases h
  | cons a s ih =>
      obtain ⟨_, h, rfl⟩ | ⟨_, _, str', h, rfl, hc, hs'⟩ := hs.cases <;> cases h <;>
        obtain ⟨t', rfl, rfl⟩ | ⟨d, t', key', rfl, rfl, hd, ht'⟩ := ht.cases
      · exact ⟨0, rfl, by simp⟩
      · exact ⟨_, if_neg (by simp [hd.symm]), byte_sub_eq_zero.trans (by simp [hd.symm])⟩
      · exact ⟨_, if_neg (by simp [hc]), byte_sub_eq_zero.trans (by simp [hc])⟩
      · by_cases had : a = d
        · obtain ⟨r, hr, hiff⟩ := ih hs' ht'
          exact ⟨r, (if_pos ⟨had, hc, hd⟩).trans hr, by simp [hiff, had]⟩
        · exact ⟨_, if_neg (by simp [had]), byte_sub_eq_zero.trans (by simp [had])⟩

theorem HoldsString.strncmpLoop (hs : HoldsString s str) (ht : HoldsString t key) (hne : str ≠ []) :
    ∃ r, Arunos.strncmpLoop s t (str.length - 1) = some r ∧ (r = 0 ↔ str <+: key) := by
  induction s generalizing t str key with
  | nil => obtain ⟨s', h, -⟩ | ⟨c, s', str', h, -⟩ := hs.cases <;> cases h
  | cons a s ih =>
      obtain ⟨_, -, rfl⟩ | ⟨_, _, str', h, rfl, hc, hs'⟩ := hs.cases
      · exact absurd rfl hne
      cases h
      obtain ⟨t', rfl, rfl⟩ | ⟨d, t', key', rfl, rfl, hd, ht'⟩ := ht.cases
      · exact ⟨_, if_neg (by simp), byte_sub_eq_zero.trans (by simp [hc])⟩
      by_cases had : a = d
      · subst had
        cases str' with
        | nil => exact ⟨_, if_neg (by simp), by simp⟩
        | cons b str' =>
            obtain ⟨r, hr, hiff⟩ := ih hs' ht' (by simp)
            exact ⟨r, (if_pos ⟨rfl, hc, hd, by simp⟩).trans hr, by simp [hiff]⟩
      · exact ⟨_, if_neg (by simp [had]), byte_sub_eq_zero.trans (by simp [had])⟩

/-- `strncmp` up to the length of the first string finds it a prefix of the second. -/
theorem HoldsString.strncmp (hs : HoldsString s str) (ht : HoldsString t key) :
    ∃ r, Arunos.strncmp s t str.length = some r ∧ (r = 0 ↔ str <+: key) := by
  by_cases hne : str = []
  · subst hne
    exact ⟨0, rfl, by simp⟩
  · obtain ⟨r, hr, hiff⟩ := hs.strncmpLoop ht hne
    exact ⟨r, (if_neg (by simpa using hne)).trans hr, hiff⟩

/-- An array with a NUL in it holds the string before the first one. -/
theorem holdsString_cstring (h : 0 ∈ s) : HoldsString s (cstring s) := by
  induction s with
  | nil => exact absurd h List.not_mem_nil
  | cons c s ih =>
      by_cases hc : c = 0
      · subst hc
        exact .nil s
      · rw [cstring_cons hc]
        exact (ih ((List.mem_cons.mp h).resolve_left (Ne.symm hc))).cons hc

theorem HoldsString.cstring_eq (h : HoldsString s str) : cstring s = str := by
  obtain ⟨h₀, rest, rfl⟩ := h
  have hstr : ∀ c ∈ str, decide (c ≠ 0) = true := fun c hc => by
    simpa using fun he : c = 0 => h₀ (he ▸ hc)
  rw [cstring, List.takeWhile_append_of_pos hstr]
  simp

/-- `strcpy` puts the string into a target with room for it and its terminator. -/
theorem HoldsString.strcpy (hs : HoldsString s str) (hlen : str.length < t.length) :
    Arunos.strcpy t s = some (str ++ 0 :: t.drop (str.length + 1)) := by
  induction str generalizing s t with
  | nil =>
      obtain ⟨-, rest, rfl⟩ := hs
      obtain ⟨d, t, rfl⟩ := List.exists_cons_of_length_pos hlen
      rfl
  | cons c str ih =>
      obtain ⟨_, -, h⟩ | ⟨_, s', _, rfl, h, hc, hs'⟩ := hs.cases
      · cases h
      cases h
      obtain ⟨d, t, rfl⟩ := List.exists_cons_of_length_pos (Nat.zero_lt_of_lt hlen)
      rw [Arunos.strcpy, if_pos hc, ih hs' (Nat.lt_of_succ_lt_succ hlen)]
      rfl

theorem HoldsString.strlcpyLoop {n : Nat} (hs : HoldsString s str) (hn : n < t.length) :
    Arunos.strlcpyLoop t s (n + 1) =
      some (str.take n ++ 0 :: t.drop ((str.take n).length + 1)) := by
  obtain ⟨d, t, rfl⟩ := List.exists_cons_of_length_pos (Nat.zero_lt_of_lt hn)
  induction n generalizing s str d t with
  | zero => rfl
  | succ n ih =>
      obtain ⟨s', rfl, rfl⟩ | ⟨c, s', str, rfl, rfl, hc, hs'⟩ := hs.cases
      · rfl
      · have hlt : n < t.length := Nat.lt_of_succ_lt_succ hn
        obtain ⟨e, t, rfl⟩ := List.exists_cons_of_length_pos (Nat.zero_lt_of_lt hlt)
        rw [Arunos.strlcpyLoop, if_pos hc, ih hs' e t hlt]
        rfl

/-- `strlcpy` puts as much of the string into the target as there is room for, and returns how long
it is. -/
theorem HoldsString.strlcpy {n : Nat} (hs : HoldsString s str) (hn : n < t.length) :
    Arunos.strlcpy t s (n + 1) =
      some (str.length, str.take n ++ 0 :: t.drop ((str.take n).length + 1)) := by
  rw [Arunos.strlcpy, hs.strlcpyLoop hn, hs.strlen]
  rfl

end Arunos
