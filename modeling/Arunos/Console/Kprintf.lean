import Arunos.Console.Putch
import Arunos.Fs.Failures
import Arunos.Lib.Printf
import Arunos.Proc.Syscall

/-!
# Console — Kprintf — what `kprintf` sends, and the screen after `dir`

`kprintf` is `vprintf_base` with `kputch` for each character.  What goes out on the serial line is
the text of the format, each character as `onLine` has it: a newline with a carriage return before
it, any other character as itself (`kprintf_eq`).

`syscall_dir` prints each name that `fat_next` gives it on a line of its own.  `dirSends` is that
loop with its output.  It ends, returns what the loop without the output returns, and sends one line
for each name (`dirSends_eq`): on a disk that serves its contents, the lines of `directoryText`.
-/

namespace Arunos

/-! ### `kputch` and `kprintf` -/

/-- A character on the serial line. -/
def onLine (b : UInt8) : List UInt8 := if b = 10 then [13, 10] else [b]

/-- `kprintf(format, …)`: the bytes it transmits. -/
def kprintf (format : List UInt8) (ap : List Argument) : Option (List UInt8) := do
  let (_, sent) ← vprintfBase (fun ch sent => do return sent ++ (← kputch ch)) [] format ap
  return sent

/-- The codes that are sent as more than a byte or as another one. -/
def longCodes : List (Int × List UInt8) :=
  [(10, [13, 10]), (SpecialKey.KEY_ARROW_UP.value, [0x1b, 0x5b, 0x41]),
   (SpecialKey.KEY_ARROW_DOWN.value, [0x1b, 0x5b, 0x42]),
   (SpecialKey.KEY_ARROW_RIGHT.value, [0x1b, 0x5b, 0x43]),
   (SpecialKey.KEY_ARROW_LEFT.value, [0x1b, 0x5b, 0x44]),
   (SpecialKey.KEY_BACKSPACE.value, [0x7f])]

/-- What stands for a code on the serial line: a newline comes with a carriage return, a special key
is its sequence, any other code is its low byte, and nothing is sent for a NUL. -/
def lineText (c : Int) : List UInt8 := (longCodes.lookup c).getD ([toChar c].filter (· ≠ 0))

theorem kputch_newline : kputch 10 = some [13, 10] := by
  have hreturn : kputch 13 = some [13] :=
    kputch_sequence (by decide) rfl ((HoldsString.nil []).cons (by decide))
  rw [kputch, if_pos rfl, hreturn]
  rfl

/-- A special key goes out as its sequence. -/
theorem kputch_special (key : SpecialKey) : kputch key.value = some (lineText key.value) := by
  cases key <;> exact kputch_sequence (by decide) rfl ⟨by decide, _, rfl⟩

/-- A code that is neither a newline nor a special key goes out as its low byte, unless that is the
terminator of the string. -/
theorem kputch_low {c : Int} (h : c ≠ 10) (hkey : ∀ key : SpecialKey, key.value ≠ c) :
    kputch c = some ([toChar c].filter (· ≠ 0)) := by
  have hseq := getSpecialKeySequence_of_ne hkey
  refine kputch_sequence h (by rw [hseq, Option.getD_none]) ?_
  by_cases h₀ : toChar c = 0
  · rw [h₀]
    exact .nil [0]
  · have hkept : [toChar c].filter (· ≠ 0) = [toChar c] := by simp [h₀]
    rw [hkept]
    exact (HoldsString.nil []).cons h₀

/-- **`kputch` sends what stands for its code**, and always ends. -/
theorem kputch_eq (c : Int) : kputch c = some (lineText c) := by
  by_cases h : c = 10
  · rw [h]
    exact kputch_newline
  by_cases hkey : ∃ key : SpecialKey, key.value = c
  · obtain ⟨key, rfl⟩ := hkey
    exact kputch_special key
  · have hne : ∀ key : SpecialKey, c ≠ key.value := fun key he => hkey ⟨key, he.symm⟩
    have hnone : longCodes.lookup c = none := by
      rw [List.lookup_eq_none_iff]
      simp [longCodes, h, hne]
    rw [kputch_low h fun key => (hne key).symm, lineText, hnone]
    rfl

/-- A character goes out as itself, a newline with a carriage return. -/
theorem kputch_char {b : UInt8} (h : b ≠ 0) : kputch b.toNat = some (onLine b) := by
  unfold onLine
  split
  next hb => rw [hb]; exact kputch_newline
  next hb =>
    have hne : (b.toNat : Int) ≠ 10 := fun he => hb (UInt8.toNat_inj.mp (by exact_mod_cast he))
    have hlt := b.toNat_lt
    have hchar : toChar b.toNat = b := by
      refine UInt8.toNat_inj.mp (Int.ofNat.inj ?_)
      exact toNat_toChar (by omega) (by omega)
    have hkey : ∀ key : SpecialKey, key.value ≠ b.toNat := by
      intro key
      cases key <;> simp only [SpecialKey.value] <;> omega
    rw [kputch_low hne hkey, hchar]
    simp [h]

/-- What is sent for characters one after the other. -/
theorem foldlM_kputch {str : List UInt8} (h : 0 ∉ str) (sent : List UInt8) :
    (str.map fun b => (b.toNat : Int)).foldlM
        (fun sent ch => do return sent ++ (← kputch ch)) sent =
      some (sent ++ str.flatMap onLine) := by
  induction str generalizing sent with
  | nil => rw [List.flatMap_nil, List.append_nil]; rfl
  | cons b str ih =>
      have hb : b ≠ 0 := fun he => h (he ▸ List.mem_cons_self)
      rw [List.map_cons, List.foldlM_cons, kputch_char hb]
      refine (ih (fun hm => h (List.mem_cons_of_mem _ hm)) _).trans ?_
      rw [List.flatMap_cons, List.append_assoc]

/-- **`kprintf` sends the text of its format**, if that is a text of characters. -/
theorem kprintf_eq {format f str : List UInt8} {ap : List Argument}
    (hformat : HoldsString format f) (hmatch : Matches (directives f) ap)
    (hstr : render (directives f) ap = str.map fun b => (b.toNat : Int)) (h₀ : 0 ∉ str) :
    kprintf format ap = some (str.flatMap onLine) := by
  rw [kprintf, vprintfBase_eq hformat hmatch, hstr, foldlM_kputch h₀]
  rfl

/-! ### `dir` -/

/-- The format `"%s\n"`. -/
def lineFormat : List UInt8 := [37, 115, 10, 0]

/-- A name on a line of its own, on the serial line. -/
def nameLine (name : List UInt8) : List UInt8 := (cstring name ++ [10]).flatMap onLine

theorem cstring_append_nul (name : List UInt8) : cstring (name ++ [0]) = cstring name := by
  induction name with
  | nil => rfl
  | cons b name ih =>
      by_cases hb : b = 0
      · rw [hb]
        rfl
      · rw [List.cons_append, cstring_cons hb, cstring_cons hb, ih]

theorem cstring_no_nul {name : List UInt8} : 0 ∉ cstring name := fun h => by
  simpa using List.mem_takeWhile_imp h

theorem kprintf_nameLine (name : List UInt8) :
    kprintf lineFormat [.string (name ++ [0])] = some (nameLine name) := by
  have hterm : 0 ∈ name ++ [0] := List.mem_append_right _ List.mem_cons_self
  refine kprintf_eq (f := [37, 115, 10]) ⟨by decide, [], rfl⟩ ?_ ?_ ?_
  · exact .takes hterm (.fixed rfl (.nil _))
  · show (cstring (name ++ [0])).map _ ++ _ = _
    rw [cstring_append_nul, List.map_append]
    rfl
  · rw [List.mem_append]
    rintro (h | h)
    · exact cstring_no_nul h
    · exact absurd h (by decide)

variable {σ : Type} [BlockDevice σ]

/-- `syscall_dir` with its output: the bytes it transmits, its result and the state of the
driver. -/
def dirSends (v : Volume) (cursor : Nat) (s : σ) : Option (List UInt8 × Int × σ) :=
  if _h : 0 < (fatNext v cursor s).1.1 then do
    let line ← kprintf lineFormat [.string ((fatNext v cursor s).1.2 ++ [0])]
    let (rest, r) ← dirSends v (fatNext v cursor s).1.1.toNat (fatNext v cursor s).2
    return (line ++ rest, r)
  else some ([], (fatNext v cursor s).1.1, (fatNext v cursor s).2)
termination_by v.rootEntries - cursor
decreasing_by
  have := fatNext_pos _h
  omega

theorem dirLoop_fatNext (v : Volume) (cursor : Nat) (s : σ) : dirLoop v cursor s =
    if 0 < (fatNext v cursor s).1.1 then
      dirLoop v (fatNext v cursor s).1.1.toNat (fatNext v cursor s).2
    else ((fatNext v cursor s).1.1, (fatNext v cursor s).2) := by
  rw [dirLoop, fatNext]
  split
  next next entry s' hr =>
    have := rootEntry_slot (congrArg Prod.fst hr)
    have hpos : (0 : Int) < next := by omega
    rw [hr, if_pos hpos]
    rfl
  next s' hr => rw [hr]; rfl
  next s' hr => rw [hr]; rfl

/-- **`dir` ends and sends one line for each name it is given**, and returns as the loop without its
output does. -/
theorem dirSends_eq (v : Volume) (cursor : Nat) (s : σ) :
    dirSends v cursor s =
      some ((listing v cursor s).1.dropLast.flatMap (nameLine ·.2), dirLoop v cursor s) := by
  fun_induction dirSends v cursor s with
  | case1 cursor s h ih =>
      have hnext : (listing v cursor s).1 = (fatNext v cursor s).1 ::
          (listing v (fatNext v cursor s).1.1.toNat (fatNext v cursor s).2).1 := by
        rw [listing, dif_pos h]
      rw [kprintf_nameLine, ih, dirLoop_fatNext v cursor, if_pos h, hnext,
        List.dropLast_cons_of_ne_nil (listing_ne_nil _ _), List.flatMap_cons]
      rfl
  | case2 cursor s h =>
      rw [listing, dif_neg h, dirLoop_fatNext, if_neg h]
      rfl

/-- The names in the directory, one on a line. -/
def directoryText (img : Nat → Bytes) (v : Volume) : List UInt8 :=
  (listed img v).flatMap fun i => nameLine (renderName (rootSlot img v i))

/-- **`dir` sends the directory.** -/
theorem listing_text {img : Nat → Bytes} {n : Nat} (hd : Serves σ img n) {v₀ v : Volume}
    {s₀ s₁ : σ} (hm : fatInit v₀ s₀ = (true, v, s₁)) (s : σ) :
    (listing v 0 s).1.dropLast.flatMap (nameLine ·.2) = directoryText img v := by
  rw [listing_zero hd hm, List.dropLast_concat, List.flatMap_map]
  rfl

/-- The listing of a disk with two files. -/
example : directoryText shellDisk.bytes shellVolume =
    [83, 72, 69, 76, 76, 13, 10, 66, 65, 68, 13, 10] := by
  decide +kernel

end Arunos
