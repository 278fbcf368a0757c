import Arunos.Lib.Math
import Arunos.Lib.String
import Arunos.Support.Numeral

/-!
# Lib — Printf — the formatted output of `lib/stdio/vsprintf.c`

`vprintf_base` calls `emit` once for each character, with a context that is the emitter's own.  The
format and the strings among the arguments are arrays of their own, and reading past the end of an
array, storing outside the target and taking an argument that is missing or of the wrong type are
faults.  `out->length` is an `int`, and its increment wraps as the machine's addition does.

What is printed is stated apart from the code: a format is a list of directives (`directives`),
and each has its text (`render`), with numbers as their canonical numerals.
-/

namespace Arunos

/-! ### `vprintf_base` -/

/-- What a `va_list` holds: a word, or a pointer to an array. -/
inductive Argument
  | word (bits : UInt32)
  | string (array : List UInt8)

/-- `struct output`, without the emitter. -/
structure Output (κ : Type) where
  context : κ
  length : Int32

/-- A base of a positional system. -/
abbrev Radix := { base : UInt32 // 1 < base }

section Print

variable {κ : Type} (emit : Int → κ → Option κ)

/-- `character(out, ch)`. -/
def character (out : Output κ) (ch : Int) : Option (Output κ) := do
  return ⟨← emit ch out.context, out.length + 1⟩

/-- The characters of `"0123456789abcdef"`. -/
def digitTable : List UInt8 :=
  [48, 49, 50, 51, 52, 53, 54, 55, 56, 57, 97, 98, 99, 100, 101, 102, 0]

theorem unsignedDivmod_radix (value : UInt32) (base : Radix) :
    unsignedDivmod value.toNat base.1.toNat =
      (value.toNat / base.1.toNat, value.toNat % base.1.toNat) :=
  unsignedDivmod_eq value.toNat_lt (Nat.zero_lt_of_lt (UInt32.lt_iff_toNat_lt.mp base.2))

theorem toNat_rest (value : UInt32) (base : Radix) :
    (UInt32.ofNat (unsignedDivmod value.toNat base.1.toNat).1).toNat =
      value.toNat / base.1.toNat := by
  rw [unsignedDivmod_radix, UInt32.toNat_ofNat_of_lt']
  exact Nat.lt_of_le_of_lt (Nat.div_le_self _ _) value.toNat_lt

theorem rest_eq_zero_iff (value : UInt32) (base : Radix) :
    UInt32.ofNat (unsignedDivmod value.toNat base.1.toNat).1 = 0 ↔
      value.toNat < base.1.toNat := by
  have hbase := Nat.zero_lt_of_lt (UInt32.lt_iff_toNat_lt.mp base.2)
  rw [← UInt32.toNat_inj, toNat_rest, UInt32.toNat_zero, Nat.div_eq_zero_iff_lt hbase]

theorem rest_lt {value : UInt32} {base : Radix}
    (h : UInt32.ofNat (unsignedDivmod value.toNat base.1.toNat).1 ≠ 0) :
    (UInt32.ofNat (unsignedDivmod value.toNat base.1.toNat).1).toNat < value.toNat := by
  have hbase := UInt32.lt_iff_toNat_lt.mp base.2
  have hle := Nat.not_lt.mp (mt (rest_eq_zero_iff value base).mpr h)
  rw [toNat_rest]
  exact Nat.div_lt_self (Nat.lt_of_lt_of_le (Nat.zero_lt_of_lt hbase) hle) hbase

/-- `number(out, value, base)`. -/
def number (out : Output κ) (value : UInt32) (base : Radix) : Option (Output κ) := do
  let rest := UInt32.ofNat (unsignedDivmod value.toNat base.1.toNat).1
  let out ← if _h : rest ≠ 0 then number out rest base else some out
  let ch ← digitTable[(unsignedDivmod value.toNat base.1.toNat).2]?
  character emit out ch.toNat
termination_by value.toNat
decreasing_by exact rest_lt _h

/-- The loop `while (*str) character(&out, *str++)`. -/
def characters : Output κ → List UInt8 → Option (Output κ)
  | _, [] => none
  | out, c :: str =>
      if c ≠ 0 then do characters (← character emit out c.toNat) str
      else some out

/-- The case `'d'` of `vprintf_base`, with the argument taken. -/
def signedNumber (out : Output κ) (bits : UInt32) : Option (Output κ) := do
  let value := bits.toInt32
  let out ← if value < 0 then character emit out 45 else some out
  number emit out (if value < 0 then 0 - bits else bits) ⟨10, by decide⟩

/-- The case `'x'` of `vprintf_base`, with the argument taken. -/
def hexNumber (out : Output κ) (bits : UInt32) : Option (Output κ) := do
  let out ← character emit out 48
  let out ← character emit out 120
  number emit out bits ⟨16, by decide⟩

/-- The `switch` of `vprintf_base` on the letter of a conversion. -/
def convert (letter : UInt8) (ap : List Argument) (out : Output κ) :
    Option (List Argument × Output κ) :=
  if letter = 115 then
    match ap with
    | .string str :: ap => (characters emit out str).map (ap, ·)
    | _ => none
  else if letter = 99 then
    match ap with
    | .word bits :: ap => (character emit out bits.toInt32.toInt).map (ap, ·)
    | _ => none
  else if letter = 37 then (character emit out 37).map (ap, ·)
  else if letter = 100 then
    match ap with
    | .word bits :: ap => (signedNumber emit out bits).map (ap, ·)
    | _ => none
  else if letter = 117 then
    match ap with
    | .word bits :: ap => (number emit out bits ⟨10, by decide⟩).map (ap, ·)
    | _ => none
  else if letter = 120 then
    match ap with
    | .word bits :: ap => (hexNumber emit out bits).map (ap, ·)
    | _ => none
  else some (ap, out)

/-- The loop of `vprintf_base`. -/
def formatLoop : List UInt8 → List Argument → Output κ → Option (Output κ)
  | [], _, _ => none
  | c :: format, ap, out =>
      if c = 0 then some out
      else if c ≠ 37 then do formatLoop format ap (← character emit out c.toNat)
      else
        match format with
        | [] => none
        | letter :: format =>
            if letter = 0 then some out
            else do
              let (ap, out) ← convert emit letter ap out
              formatLoop format ap out

/-- `vprintf_base(emit, context, format, ap)`: what it returns, and the context it leaves. -/
def vprintfBase (context : κ) (format : List UInt8) (ap : List Argument) :
    Option (Int32 × κ) := do
  let out ← formatLoop emit format ap ⟨context, 0⟩
  return (out.length, out.context)

end Print

/-! ### `vsprintf` -/

/-- The target of `vsprintf`, and the cursor in it. -/
structure Cursor where
  target : List UInt8
  position : Nat

/-- `*cursor = ch`. -/
def Cursor.store (cursor : Cursor) (ch : UInt8) : Option (List UInt8) :=
  if cursor.position < cursor.target.length then some (cursor.target.set cursor.position ch)
  else none

/-- `buffer_character(ch, &cursor)`. -/
def bufferCharacter (ch : Int) (cursor : Cursor) : Option Cursor := do
  return ⟨← cursor.store (toChar ch), cursor.position + 1⟩

/-- `vsprintf(target, format, ap)`: what it returns, and the array it leaves. -/
def vsprintf (target format : List UInt8) (ap : List Argument) : Option (Int32 × List UInt8) := do
  let (length, cursor) ← vprintfBase bufferCharacter ⟨target, 0⟩ format ap
  return (length, ← cursor.store 0)

/-! ### The text of a format -/

/-- A part of a format: a character, or a conversion. -/
inductive Directive
  | literal (c : UInt8)
  | string
  | character
  | percent
  | decimal
  | unsigned
  | hexadecimal
  | unknown
  deriving DecidableEq

/-- The conversion with a letter. -/
def directive (letter : UInt8) : Directive :=
  if letter = 115 then .string
  else if letter = 99 then .character
  else if letter = 37 then .percent
  else if letter = 100 then .decimal
  else if letter = 117 then .unsigned
  else if letter = 120 then .hexadecimal
  else .unknown

/-- The parts of a format string.  A lone `%` at its end is none. -/
def directives : List UInt8 → List Directive
  | [] => []
  | c :: format =>
      if c ≠ 37 then .literal c :: directives format
      else
        match format with
        | [] => []
        | letter :: format => directive letter :: directives format

/-- The character codes of a numeral. -/
def numeralText (base n : Nat) : List Int :=
  (numeral base n).map fun d => ((Nat.digitChar d).toNat : Int)

/-- The character codes of a signed number. -/
def signedText (v : Int) : List Int :=
  (if v < 0 then [45] else []) ++ numeralText 10 v.natAbs

namespace Directive

/-- The conversion takes an argument. -/
def takes : Directive → Bool
  | string | character | decimal | unsigned | hexadecimal => true
  | _ => false

/-- The text of a directive without an argument. -/
def fixedText : Directive → List Int
  | literal c => [(c.toNat : Int)]
  | percent => [37]
  | _ => []

/-- The text of a conversion of an argument. -/
def text : Directive → Argument → List Int
  | string, .string array => (cstring array).map fun c => (c.toNat : Int)
  | character, .word bits => [bits.toInt32.toInt]
  | decimal, .word bits => signedText bits.toInt32.toInt
  | unsigned, .word bits => numeralText 10 bits.toNat
  | hexadecimal, .word bits => [48, 120] ++ numeralText 16 bits.toNat
  | _, _ => []

/-- The argument has the type of the conversion: a word, or a terminated string. -/
def Accepts : Directive → Argument → Prop
  | string, .string array => 0 ∈ array
  | character, .word _ | decimal, .word _ | unsigned, .word _ | hexadecimal, .word _ => True
  | _, _ => False

end Directive

/-- The arguments match the conversions, one after the other; there may be more of them. -/
inductive Matches : List Directive → List Argument → Prop
  | nil (ap : List Argument) : Matches [] ap
  | fixed {d : Directive} {ds : List Directive} {ap : List Argument} (h : d.takes = false)
      (t : Matches ds ap) : Matches (d :: ds) ap
  | takes {d : Directive} {ds : List Directive} {a : Argument} {ap : List Argument}
      (h : d.Accepts a) (t : Matches ds ap) : Matches (d :: ds) (a :: ap)

/-- The text of directives, one after the other. -/
def render : List Directive → List Argument → List Int
  | [], _ => []
  | d :: ds, ap =>
      if d.takes then
        match ap with
        | [] => []
        | a :: ap => d.text a ++ render ds ap
      else d.fixedText ++ render ds ap

variable {κ : Type} {emit : Int → κ → Option κ} {out : Output κ} {ap : List Argument}

/-! ### The printer prints the text -/

theorem characters_eq {array str : List UInt8} (h : HoldsString array str) :
    characters emit out array =
      (str.map fun c => (c.toNat : Int)).foldlM (character emit) out := by
  induction str generalizing array out with
  | nil =>
      obtain ⟨-, rest, rfl⟩ := h
      rfl
  | cons c str ih =>
      obtain ⟨_, -, he⟩ | ⟨_, array', _, rfl, he, hc, h'⟩ := h.cases
      · cases he
      cases he
      rw [characters, if_pos hc, List.map_cons, List.foldlM_cons]
      exact bind_congr fun out' => ih h'

theorem foldlM_character (ch : Int) :
    [ch].foldlM (character emit) out = character emit out ch := by
  rw [List.foldlM_cons]
  exact bind_pure (character emit out ch)

theorem digitTable_getElem? : ∀ d < 16, digitTable[d]? =
    some (UInt8.ofNat (Nat.digitChar d).toNat) ∧
      (UInt8.ofNat (Nat.digitChar d).toNat).toNat = (Nat.digitChar d).toNat := by
  decide

/-- The last character `number` prints. -/
theorem print_digit (out : Output κ) (value : UInt32) {base : Radix} (hbase : base.1.toNat ≤ 16) :
    (do
      let ch ← digitTable[(unsignedDivmod value.toNat base.1.toNat).2]?
      character emit out ch.toNat) =
      [((Nat.digitChar (value.toNat % base.1.toNat)).toNat : Int)].foldlM (character emit) out := by
  have hone := UInt32.lt_iff_toNat_lt.mp base.2
  have hlt := Nat.mod_lt value.toNat (Nat.zero_lt_of_lt hone)
  obtain ⟨hdigit, hcode⟩ := digitTable_getElem? _ (Nat.lt_of_lt_of_le hlt hbase)
  rw [unsignedDivmod_radix, hdigit, foldlM_character]
  show character emit out _ = _
  rw [hcode]

/-- `number` prints the numeral. -/
theorem number_eq (value : UInt32) (base : Radix) (hbase : base.1.toNat ≤ 16) (out : Output κ) :
    number emit out value base =
      (numeralText base.1.toNat value.toNat).foldlM (character emit) out := by
  have hone : 1 < base.1.toNat := UInt32.lt_iff_toNat_lt.mp base.2
  fun_induction number emit out value base with
  | case1 value rest last hrest ih =>
      have hle := Nat.not_lt.mp (mt (rest_eq_zero_iff value base).mpr hrest)
      rw [numeralText, numeral_of_le hone hle, List.map_append, List.foldlM_append, ih, toNat_rest]
      exact bind_congr fun out' => print_digit out' value hbase
  | case2 value rest last hrest =>
      have hlt := (rest_eq_zero_iff value base).mp (not_not.mp hrest)
      rw [numeralText, numeral_of_lt hlt, ← Nat.mod_eq_of_lt hlt]
      exact print_digit out value hbase

/-! ### Conversions -/

theorem toInt_toInt32 (bits : UInt32) : bits.toInt32.toInt =
    if 2 * bits.toNat < 2 ^ 32 then (bits.toNat : Int) else bits.toNat - 2 ^ 32 :=
  BitVec.toInt_eq_toNat_cond bits.toBitVec

/-- The value that is printed after the sign. -/
theorem toNat_magnitude (bits : UInt32) :
    (if bits.toInt32 < 0 then 0 - bits else bits).toNat = bits.toInt32.toInt.natAbs := by
  have hlt := bits.toNat_lt
  have hsigned := toInt_toInt32 bits
  split
  next hneg =>
    have hneg : bits.toInt32.toInt < 0 := Int32.lt_iff_toInt_lt.mp hneg
    split at hsigned
    · omega
    · rw [UInt32.toNat_sub, hsigned, UInt32.toNat_zero]
      omega
  next hnonneg =>
    have hnonneg : ¬ bits.toInt32.toInt < 0 := fun h => hnonneg (Int32.lt_iff_toInt_lt.mpr h)
    split at hsigned
    · omega
    · omega

theorem signedNumber_eq (bits : UInt32) :
    signedNumber emit out bits = (signedText bits.toInt32.toInt).foldlM (character emit) out := by
  rw [signedText, ← toNat_magnitude, List.foldlM_append]
  by_cases hneg : bits.toInt32 < 0
  · have hneg' : bits.toInt32.toInt < 0 := Int32.lt_iff_toInt_lt.mp hneg
    rw [signedNumber, if_pos hneg, if_pos hneg', foldlM_character]
    exact bind_congr fun out' => number_eq _ _ (by decide) out'
  · have hneg' : ¬ bits.toInt32.toInt < 0 := fun h => hneg (Int32.lt_iff_toInt_lt.mpr h)
    rw [signedNumber, if_neg hneg, if_neg hneg']
    exact number_eq _ _ (by decide) out

theorem hexNumber_eq (bits : UInt32) : hexNumber emit out bits =
    ([48, 120] ++ numeralText 16 bits.toNat).foldlM (character emit) out := by
  rw [List.cons_append, List.cons_append, List.nil_append, List.foldlM_cons]
  refine bind_congr fun out₁ => ?_
  rw [List.foldlM_cons]
  exact bind_congr fun out₂ => number_eq _ _ (by decide) out₂

/-- A letter is one of the six that the `switch` has, or the `switch` does nothing. -/
theorem letter_cases (emit : Int → κ → Option κ) (letter : UInt8) :
    (letter = 115 ∨ letter = 99 ∨ letter = 37 ∨ letter = 100 ∨ letter = 117 ∨ letter = 120) ∨
      directive letter = .unknown ∧ ∀ ap out, convert emit letter ap out = some (ap, out) := by
  by_cases h : letter = 115 ∨ letter = 99 ∨ letter = 37 ∨ letter = 100 ∨ letter = 117 ∨ letter = 120
  · exact .inl h
  · simp only [not_or] at h
    obtain ⟨h₁, h₂, h₃, h₄, h₅, h₆⟩ := h
    refine .inr ⟨?_, fun ap out => ?_⟩
    · rw [directive, if_neg h₁, if_neg h₂, if_neg h₃, if_neg h₄, if_neg h₅, if_neg h₆]
    · rw [convert.eq_def, if_neg h₁, if_neg h₂, if_neg h₃, if_neg h₄, if_neg h₅, if_neg h₆]

/-- A conversion without an argument. -/
theorem convert_fixed {letter : UInt8} (h : (directive letter).takes = false) :
    convert emit letter ap out =
      ((directive letter).fixedText.foldlM (character emit) out).map (ap, ·) := by
  rcases letter_cases emit letter with (rfl | rfl | rfl | rfl | rfl | rfl) | ⟨hunknown, hnothing⟩
  · cases h
  · cases h
  · exact congrArg (Option.map (ap, ·)) (foldlM_character 37).symm
  · cases h
  · cases h
  · cases h
  · rw [hnothing, hunknown]
    rfl

/-- A conversion of an argument. -/
theorem convert_takes {letter : UInt8} {a : Argument} (h : (directive letter).Accepts a) :
    convert emit letter (a :: ap) out =
      (((directive letter).text a).foldlM (character emit) out).map (ap, ·) := by
  rcases letter_cases emit letter with (rfl | rfl | rfl | rfl | rfl | rfl) | ⟨hunknown, -⟩
  · cases a with
    | word bits => exact h.elim
    | string array =>
        exact congrArg (Option.map (ap, ·)) (characters_eq (holdsString_cstring h))
  · cases a with
    | word bits => exact congrArg (Option.map (ap, ·)) (foldlM_character _).symm
    | string array => exact h.elim
  · exact h.elim
  · cases a with
    | word bits => exact congrArg (Option.map (ap, ·)) (signedNumber_eq bits)
    | string array => exact h.elim
  · cases a with
    | word bits => exact congrArg (Option.map (ap, ·)) (number_eq bits _ (by decide) out)
    | string array => exact h.elim
  · cases a with
    | word bits => exact congrArg (Option.map (ap, ·)) (hexNumber_eq bits)
    | string array => exact h.elim
  · rw [hunknown] at h
    exact h.elim

/-! ### The loop -/

theorem formatLoop_end (rest : List UInt8) : formatLoop emit (0 :: rest) ap out = some out := by
  rw [formatLoop.eq_def]
  exact if_pos rfl

theorem formatLoop_literal {c : UInt8} {format : List UInt8} (h₀ : c ≠ 0) (hc : c ≠ 37) :
    formatLoop emit (c :: format) ap out =
      character emit out c.toNat >>= fun out => formatLoop emit format ap out := by
  rw [formatLoop.eq_def]
  simp only [if_neg h₀, if_pos hc]

theorem formatLoop_percent_end (rest : List UInt8) :
    formatLoop emit (37 :: 0 :: rest) ap out = some out := rfl

theorem formatLoop_convert {letter : UInt8} {format : List UInt8} (h₀ : letter ≠ 0) :
    formatLoop emit (37 :: letter :: format) ap out =
      convert emit letter ap out >>= fun r => formatLoop emit format r.1 r.2 := by
  rw [formatLoop, if_neg (by decide), if_neg (by decide), if_neg h₀]

theorem Directive.Accepts.takes {d : Directive} {a : Argument} (h : d.Accepts a) :
    d.takes = true := by
  cases d <;> first | rfl | exact h.elim

/-- The first of the directives: it takes the first argument, or none. -/
theorem Matches.first {d : Directive} {ds : List Directive} (h : Matches (d :: ds) ap) :
    (∃ a ap', ap = a :: ap' ∧ d.Accepts a ∧ Matches ds ap' ∧
        render (d :: ds) ap = d.text a ++ render ds ap') ∨
      d.takes = false ∧ Matches ds ap ∧ render (d :: ds) ap = d.fixedText ++ render ds ap := by
  cases h with
  | fixed h t => exact .inr ⟨h, t, by rw [render.eq_def]; exact if_neg (by simp [h])⟩
  | takes h t => exact .inl ⟨_, _, rfl, h, t, by rw [render, h.takes]; rfl⟩

theorem map_bind_formatLoop {text : List Int} {format : List UInt8} :
    ((text.foldlM (character emit) out).map (ap, ·) >>= fun r => formatLoop emit format r.1 r.2) =
      text.foldlM (character emit) out >>= fun out => formatLoop emit format ap out := by
  cases text.foldlM (character emit) out <;> rfl

/-- The loop prints the text of the format. -/
theorem formatLoop_eq {fmt : List UInt8} (hzero : 0 ∉ fmt) (rest : List UInt8)
    (hmatch : Matches (directives fmt) ap) :
    formatLoop emit (fmt ++ 0 :: rest) ap out =
      (render (directives fmt) ap).foldlM (character emit) out := by
  fun_induction directives fmt generalizing ap out with
  | case1 => exact formatLoop_end rest
  | case2 c format hc ih =>
      obtain ⟨hc₀, hzero'⟩ : 0 ≠ c ∧ 0 ∉ format := by simpa using hzero
      rw [List.cons_append, formatLoop_literal hc₀.symm hc]
      rcases hmatch.first with ⟨_, _, rfl, h, -⟩ | ⟨-, hmatch', hrender⟩
      · exact h.elim
      · have hfixed : (Directive.literal c).fixedText = [(c.toNat : Int)] := rfl
        rw [hrender, hfixed, List.foldlM_append, foldlM_character]
        exact bind_congr fun out' => ih hzero' hmatch'
  | case3 c hc =>
      obtain rfl := not_not.mp hc
      exact formatLoop_percent_end rest
  | case4 c hc letter format ih =>
      obtain rfl := not_not.mp hc
      obtain ⟨hl₀, hzero'⟩ : 0 ≠ letter ∧ 0 ∉ format := by simpa using hzero
      rw [List.cons_append, List.cons_append, formatLoop_convert hl₀.symm]
      rcases hmatch.first with ⟨a, ap', rfl, h, hmatch', hrender⟩ | ⟨h, hmatch', hrender⟩
      · rw [hrender, convert_takes h, map_bind_formatLoop, List.foldlM_append]
        exact bind_congr fun out' => ih hzero' hmatch'
      · rw [hrender, convert_fixed h, map_bind_formatLoop, List.foldlM_append]
        exact bind_congr fun out' => ih hzero' hmatch'

/-! ### What is emitted, counted and stored -/

/-- The printer calls the emitter with each character and counts them. -/
theorem foldlM_character_eq (text : List Int) (context : κ) (length : Int32) :
    text.foldlM (character emit) ⟨context, length⟩ =
      (text.foldlM (fun context ch => emit ch context) context).map
        (⟨·, length + Int32.ofNat text.length⟩) := by
  induction text generalizing context length with
  | nil =>
      rw [List.length_nil, show length + Int32.ofNat 0 = length from Int32.add_zero length]
      rfl
  | cons ch text ih =>
      rw [List.foldlM_cons, List.foldlM_cons, character]
      cases emit ch context with
      | none => rfl
      | some context' =>
          have hlength : length + 1 + Int32.ofNat text.length =
              length + Int32.ofNat (ch :: text).length := by
            rw [List.length_cons, Int32.ofNat_add, Int32.add_assoc]
            congr 1
            exact Int32.add_comm _ _
          rw [← hlength]
          exact ih context' (length + 1)

theorem vprintfBase_eq {format fmt : List UInt8} (hformat : HoldsString format fmt)
    (hmatch : Matches (directives fmt) ap) (context : κ) :
    vprintfBase emit context format ap =
      ((render (directives fmt) ap).foldlM (fun context ch => emit ch context) context).map
        (Int32.ofNat (render (directives fmt) ap).length, ·) := by
  obtain ⟨hzero, rest, rfl⟩ := hformat
  rw [vprintfBase, formatLoop_eq hzero rest hmatch, foldlM_character_eq]
  cases (render (directives fmt) ap).foldlM (fun context ch => emit ch context) context with
  | none => rfl
  | some context' =>
      show some (0 + _, context') = _
      rw [Int32.zero_add]
      rfl

theorem Cursor.store_append (stored tail : List UInt8) (ch : UInt8) :
    Cursor.store ⟨stored ++ tail, stored.length⟩ ch =
      if 0 < tail.length then some (stored ++ ch :: tail.drop 1) else none := by
  rw [Cursor.store, List.length_append]
  cases tail with
  | nil => simp
  | cons d tail => simp

/-- Storing a text from a cursor on. -/
theorem foldlM_bufferCharacter (text : List Int) (stored tail : List UInt8) :
    text.foldlM (fun cursor ch => bufferCharacter ch cursor) ⟨stored ++ tail, stored.length⟩ =
      if text.length ≤ tail.length then
        some ⟨stored ++ text.map toChar ++ tail.drop text.length,
          (stored ++ text.map toChar).length⟩
      else none := by
  induction text generalizing stored tail with
  | nil => simp
  | cons ch text ih =>
      rw [List.foldlM_cons, bufferCharacter, Cursor.store_append]
      cases tail with
      | nil => rfl
      | cons d tail =>
          have hnext := ih (stored ++ [toChar ch]) tail
          rw [List.append_assoc, List.length_append] at hnext
          rw [if_pos (show 0 < (d :: tail).length from Nat.zero_lt_succ _)]
          refine hnext.trans (if_congr (by simp) ?_ rfl)
          simp

theorem vsprintf_eq {format fmt : List UInt8} (hformat : HoldsString format fmt)
    (hmatch : Matches (directives fmt) ap) (target : List UInt8) :
    vsprintf target format ap =
      if (render (directives fmt) ap).length < target.length then
        some (Int32.ofNat (render (directives fmt) ap).length,
          (render (directives fmt) ap).map toChar ++
            0 :: target.drop ((render (directives fmt) ap).length + 1))
      else none := by
  rw [vsprintf, vprintfBase_eq hformat hmatch]
  generalize render (directives fmt) ap = text
  have hfold := foldlM_bufferCharacter text [] target
  rw [List.nil_append, List.nil_append] at hfold
  rw [show (⟨target, 0⟩ : Cursor) = ⟨target, ([] : List UInt8).length⟩ from rfl, hfold]
  by_cases hle : text.length ≤ target.length
  · rw [if_pos hle]
    show (do return (_, ← Cursor.store _ 0)) = _
    rw [Cursor.store_append, List.length_drop, List.drop_drop]
    by_cases hlt : text.length < target.length
    · rw [if_pos (by omega), if_pos hlt]
      rfl
    · rw [if_neg (by omega), if_neg hlt]
      rfl
  · rw [if_neg hle, if_neg (by omega)]
    rfl

theorem toInt_ofNat_eq_iff (n : Nat) : (Int32.ofNat n).toInt = n ↔ n < 2 ^ 31 := by
  constructor
  · intro h
    have := Int32.toInt_lt (Int32.ofNat n)
    omega
  · exact fun h => Int32.toInt_ofNat_of_lt h

/-- **The text is what is printed.**  For a format and arguments that match it, the emitter is
called with the characters of the text, one after the other, and `vsprintf` stores the same
characters and a NUL, if the target has room for them.  The value returned is the number of
characters exactly when an `int` can hold it.  The numerals of the text are the canonical ones. -/
theorem vprintf_prints_text {format fmt : List UInt8} (hformat : HoldsString format fmt)
    {ap : List Argument} (hmatch : Matches (directives fmt) ap) {text : List Int}
    (htext : text = render (directives fmt) ap) :
    (∀ (κ : Type) (emit : Int → κ → Option κ) (context : κ),
      vprintfBase emit context format ap =
        (text.foldlM (fun context ch => emit ch context) context).map
          (Int32.ofNat text.length, ·)) ∧
    (∀ target, vsprintf target format ap =
      if text.length < target.length then
        some (Int32.ofNat text.length, text.map toChar ++ 0 :: target.drop (text.length + 1))
      else none) ∧
    ((Int32.ofNat text.length).toInt = text.length ↔ text.length < 2 ^ 31) ∧
    ∀ base, 1 < base → ∀ n digits, CanonicalNumeral base n digits ↔ digits = numeral base n := by
  subst htext
  exact ⟨fun κ emit context => vprintfBase_eq hformat hmatch context, vsprintf_eq hformat hmatch,
    toInt_ofNat_eq_iff _, fun base hbase n digits => canonicalNumeral_iff hbase⟩

/-- The hypotheses are satisfiable: `%d%%%x` with the least `int` and 255. -/
theorem vprintf_prints_least :
    vsprintf (List.replicate 18 7) [37, 100, 37, 37, 37, 120, 0] [.word 0x80000000, .word 255] =
      some (16, [45, 50, 49, 52, 55, 52, 56, 51, 54, 52, 56, 37, 48, 120, 102, 102, 0, 7]) := by
  have hformat : HoldsString [37, 100, 37, 37, 37, 120, 0] [37, 100, 37, 37, 37, 120] :=
    ⟨by decide, [], rfl⟩
  have hmatch : Matches (directives [37, 100, 37, 37, 37, 120]) [.word 0x80000000, .word 255] :=
    .takes trivial (.fixed rfl (.takes trivial (.nil _)))
  have htext : [45, 50, 49, 52, 55, 52, 56, 51, 54, 52, 56, 37, 48, 120, 102, 102] =
      render (directives [37, 100, 37, 37, 37, 120]) [.word 0x80000000, .word 255] := by
    decide +kernel
  obtain ⟨-, hstore, -⟩ := vprintf_prints_text hformat hmatch htext
  exact hstore _

/-! ### The count -/

/-- Appending the characters one after the other. -/
theorem foldlM_collect (text codes : List Int) :
    text.foldlM (fun codes ch => some (codes ++ [ch])) codes = some (codes ++ text) := by
  induction text generalizing codes with
  | nil => rw [List.append_nil]; rfl
  | cons ch text ih =>
      rw [List.foldlM_cons]
      exact (ih _).trans (by simp)

theorem matches_strings {array : List UInt8} (h : 0 ∈ array) (n : Nat) :
    Matches (List.replicate n .string) (List.replicate n (.string array)) := by
  induction n with
  | zero => exact .nil _
  | succ n ih => exact .takes h ih

theorem length_render_strings {array str : List UInt8} (h : HoldsString array str) (n : Nat) :
    (render (List.replicate n .string) (List.replicate n (.string array))).length =
      n * str.length := by
  induction n with
  | zero => simp [render]
  | succ n ih =>
      rw [List.replicate_succ, List.replicate_succ, render,
        if_pos (show Directive.string.takes = true from rfl), List.length_append, ih,
        Directive.text, h.cstring_eq, List.length_map]
      ring

theorem vprintf_strings {array str : List UInt8} (h : HoldsString array str) :
    ∃ text : List Int, vprintfBase (fun ch codes => some (codes ++ [ch])) []
        ((List.replicate 32 [37, 115]).flatten ++ [0]) (List.replicate 32 (.string array)) =
      some (Int32.ofNat text.length, text) ∧ text.length = 32 * str.length := by
  have hformat : HoldsString ((List.replicate 32 [37, 115]).flatten ++ [0])
      (List.replicate 32 [37, 115]).flatten := ⟨by decide, [], rfl⟩
  have hdirectives : directives (List.replicate 32 [37, 115]).flatten =
      List.replicate 32 .string := by decide
  have hmatch := matches_strings h.terminated 32
  rw [← hdirectives] at hmatch
  refine ⟨_, ?_, length_render_strings h 32⟩
  rw [vprintfBase_eq hformat hmatch, foldlM_collect, hdirectives, List.nil_append, Option.map_some]

/-- Thirty-two times a string of 64 MiB: the count wraps to the least `int`. -/
theorem vprintf_count_wraps :
    ∃ text : List Int, vprintfBase (fun ch codes => some (codes ++ [ch])) []
        ((List.replicate 32 [37, 115]).flatten ++ [0])
        (List.replicate 32 (.string (List.replicate (2 ^ 26) 120 ++ [0]))) =
      some (-2147483648, text) ∧ text.length = 2147483648 := by
  have h : HoldsString (List.replicate (2 ^ 26) 120 ++ [0]) (List.replicate (2 ^ 26) 120) :=
    ⟨fun hmem => absurd (List.eq_of_mem_replicate hmem) (by decide), [], rfl⟩
  obtain ⟨text, hprint, hlength⟩ := vprintf_strings h
  rw [List.length_replicate] at hlength
  rw [hlength] at hprint
  exact ⟨text, hprint, hlength⟩

end Arunos
