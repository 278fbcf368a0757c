import Arunos.Support.Word

/-!
# Support — Memory — words in a byte memory

A memory is a function from addresses to bytes.  A word is four bytes, little-endian: `le32`
loads it and `store32` stores it; `le16` and `store16` do so for a halfword, and `storeBytes` stores
a buffer.  A store is seen by a load of the same word and by no load of other bytes, and a load
depends on its bytes alone.  Of several values written over one another, each point keeps the last
(`foldl_overlay`).
-/

namespace Arunos

/-- The memory `m` with the word `w` at `a`. -/
def store32 (m : Bytes) (a w : Nat) : Bytes := fun x =>
  if x = a then UInt8.ofNat w
  else if x = a + 1 then UInt8.ofNat (w / 2 ^ 8)
  else if x = a + 2 then UInt8.ofNat (w / 2 ^ 16)
  else if x = a + 3 then UInt8.ofNat (w / 2 ^ 24)
  else m x

/-- A store of a word changes its four bytes alone. -/
theorem store32_other {m : Bytes} {a w x : Nat} (h : x < a ∨ a + 4 ≤ x) :
    store32 m a w x = m x := by
  unfold store32
  rw [if_neg (by omega), if_neg (by omega), if_neg (by omega), if_neg (by omega)]

/-- A word that is stored is read back. -/
theorem le32_store32 (m : Bytes) (a : Nat) {w : Nat} (hw : w < 2 ^ 32) :
    le32 (store32 m a w) a = w := by
  have h₀ : store32 m a w a = UInt8.ofNat w := by simp [store32]
  have h₁ : store32 m a w (a + 1) = UInt8.ofNat (w / 2 ^ 8) := by simp [store32]
  have h₂ : store32 m a w (a + 2) = UInt8.ofNat (w / 2 ^ 16) := by simp [store32]
  have h₃ : store32 m a w (a + 2 + 1) = UInt8.ofNat (w / 2 ^ 24) := by
    rw [show a + 2 + 1 = a + 3 by omega]; simp [store32]
  rw [le32_eq, le16_eq, le16_eq, h₀, h₁, h₂, h₃]
  simp only [UInt8.toNat_ofNat']
  omega

/-- A load reads its four bytes. -/
theorem le32_congr {m m' : Bytes} {a : Nat} (h : ∀ x, a ≤ x → x < a + 4 → m' x = m x) :
    le32 m' a = le32 m a := by
  rw [le32_eq, le32_eq, le16_eq, le16_eq, le16_eq, le16_eq, h a (by omega) (by omega),
    h (a + 1) (by omega) (by omega), h (a + 2) (by omega) (by omega),
    h (a + 2 + 1) (by omega) (by omega)]

/-- A store leaves the words beside it as they are. -/
theorem le32_store32_other {m : Bytes} {a b w : Nat} (h : b + 4 ≤ a ∨ a + 4 ≤ b) :
    le32 (store32 m a w) b = le32 m b :=
  le32_congr fun _ h₁ h₂ => store32_other (by omega)

/-- The memory `m` with the halfword `w` at `a`. -/
def store16 (m : Bytes) (a w : Nat) : Bytes := fun x =>
  if x = a then UInt8.ofNat w else if x = a + 1 then UInt8.ofNat (w / 2 ^ 8) else m x

/-- A store of a halfword changes its two bytes alone. -/
theorem store16_other {m : Bytes} {a w x : Nat} (h : x < a ∨ a + 2 ≤ x) :
    store16 m a w x = m x := by
  unfold store16
  rw [if_neg (by omega), if_neg (by omega)]

/-- A halfword that is stored is read back. -/
theorem le16_store16 (m : Bytes) (a : Nat) {w : Nat} (hw : w < 2 ^ 16) :
    le16 (store16 m a w) a = w := by
  have h₀ : store16 m a w a = UInt8.ofNat w := by simp [store16]
  have h₁ : store16 m a w (a + 1) = UInt8.ofNat (w / 2 ^ 8) := by simp [store16]
  rw [le16_eq, h₀, h₁]
  simp only [UInt8.toNat_ofNat']
  omega

theorem le16_congr {m m' : Bytes} {a : Nat} (h : ∀ x, a ≤ x → x < a + 2 → m' x = m x) :
    le16 m' a = le16 m a := by
  rw [le16_eq, le16_eq, h a (by omega) (by omega), h (a + 1) (by omega) (by omega)]

theorem le16_store16_other {m : Bytes} {a b w : Nat} (h : b + 2 ≤ a ∨ a + 2 ≤ b) :
    le16 (store16 m a w) b = le16 m b :=
  le16_congr fun _ h₁ h₂ => store16_other (by omega)

theorem le32_store16_other {m : Bytes} {a b w : Nat} (h : b + 4 ≤ a ∨ a + 2 ≤ b) :
    le32 (store16 m a w) b = le32 m b :=
  le32_congr fun _ h₁ h₂ => store16_other (by omega)

/-- The memory `m` with the first `n` bytes of `b` from `a` on. -/
def storeBytes (m : Bytes) (a n : Nat) (b : Bytes) : Bytes := fun x =>
  if a ≤ x ∧ x < a + n then b (x - a) else m x

/-- A copy changes its own bytes alone. -/
theorem storeBytes_other {m b : Bytes} {a n x : Nat} (h : x < a ∨ a + n ≤ x) :
    storeBytes m a n b x = m x := if_neg (by omega)

/-- The bytes of a copy. -/
theorem storeBytes_add {m b : Bytes} {a n i : Nat} (h : i < n) :
    storeBytes m a n b (a + i) = b i := by
  rw [storeBytes, if_pos (by omega), Nat.add_sub_cancel_left]

theorem storeBytes_zero (m : Bytes) (a : Nat) (b : Bytes) : storeBytes m a 0 b = m := by
  funext x
  exact storeBytes_other (by omega)

theorem update_eq_storeBytes (m : Bytes) (a : Nat) (v : UInt8) :
    Function.update m a v = storeBytes m a 1 fun _ => v := by
  funext x
  by_cases hx : x = a
  · rw [hx, Function.update_self, storeBytes, if_pos (by omega)]
  · rw [Function.update_of_ne hx, storeBytes_other (by omega)]

/-- A store in two parts. -/
theorem storeBytes_append (m : Bytes) (a n l : Nat) (b : Bytes) :
    storeBytes (storeBytes m a n b) (a + n) l (fun x => b (n + x)) = storeBytes m a (n + l) b := by
  funext x
  simp only [storeBytes]
  by_cases h₁ : a + n ≤ x ∧ x < a + n + l
  · rw [if_pos h₁, if_pos (by omega)]
    exact congrArg b (by omega)
  · rw [if_neg h₁]
    exact if_congr (by omega) rfl rfl

/-- Values written over a function, one after the other: a point has the last one that covers it. -/
theorem foldl_overlay {α β γ : Type} (covers : γ → α → Prop) [∀ c x, Decidable (covers c x)]
    (value : γ → α → β) (l : List γ) (g : α → β) (x : α) :
    l.foldl (fun g c x => if covers c x then value c x else g x) g x =
      (l.filter (covers · x)).getLast?.elim (g x) (value · x) := by
  induction l generalizing g with
  | nil => rfl
  | cons c l ih =>
      rw [List.foldl_cons, ih]
      by_cases hc : covers c x
      · rw [List.filter_cons_of_pos (by simpa using hc), List.getLast?_cons]
        cases (l.filter (covers · x)).getLast? with
        | some _ => rfl
        | none => exact if_pos hc
      · rw [List.filter_cons_of_neg (by simpa using hc)]
        cases (l.filter (covers · x)).getLast? with
        | some _ => rfl
        | none => exact if_neg hc

end Arunos
