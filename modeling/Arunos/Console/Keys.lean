import Arunos.Console.Receive
import Mathlib.Data.List.Infix
import Mathlib.Data.List.TakeWhile

/-!
# Console — Keys — what `kgetch` makes of the bytes in the ring

The loop of `kgetch` goes on while the string in `sequence` is `Unfinished`: the beginning of a
special key's sequence and not the whole of it.  The string ends at the first NUL, so a NUL that
arrives in time keeps the loop going until the ring is empty (`Overruns`), past the end of the array
if seven bytes or more wait.

The decoder keeps nothing between two calls.  A call that finds only the beginning of a special
key's sequence in the ring takes it for a key of its own.
-/

namespace Arunos

variable {c c' : Console} {g g' : Getch} {sequence str : List UInt8}

/-! ### Strings of special keys -/

/-- The string in a special key's array. -/
def SpecialKeySequence.text (key : SpecialKeySequence) : List UInt8 :=
  key.sequence.takeWhile (· ≠ 0)

/-- The code of a special key's string, or 0. -/
def specialCode (str : List UInt8) : Int :=
  match specialKeySequences.find? (·.text = str) with
  | some key => key.code.value
  | none => 0

/-- The beginning of a special key's sequence that leaves it open which key it is. -/
def Unfinished (str : List UInt8) : Prop := str = [] ∨ str = [0x1b] ∨ str = [0x1b, 0x5b]

instance : DecidablePred Unfinished := fun _ => inferInstanceAs (Decidable (_ ∨ _))

theorem specialKeySequences_hold {key : SpecialKeySequence} (h : key ∈ specialKeySequences) :
    HoldsString key.sequence key.text := by
  have hall : ∀ key ∈ specialKeySequences, 0 ∉ key.text ∧
      key.sequence = key.text ++ 0 :: key.sequence.drop (key.text.length + 1) := by decide
  exact ⟨(hall key h).1, _, (hall key h).2⟩

theorem startsSome_eq (h : HoldsString sequence str) {keys : List SpecialKeySequence}
    (hkeys : ∀ key ∈ keys, HoldsString key.sequence key.text) :
    startsSome sequence str.length keys = some (decide (∃ key ∈ keys, str <+: key.text)) := by
  induction keys with
  | nil => simp [startsSome]
  | cons key keys ih =>
      obtain ⟨r, hr, hiff⟩ := h.strncmp (hkeys key (by simp))
      have ih := ih fun k hk => hkeys k (by simp [hk])
      by_cases hr0 : r = 0
      · simp [startsSome, hr, hr0, hiff.mp hr0]
      · simp [startsSome, hr, hr0, ih, mt hiff.mpr hr0]

theorem isSpecialKeySequencePrefix_eq (h : HoldsString sequence str) :
    isSpecialKeySequencePrefix sequence =
      some (decide (∃ key ∈ specialKeySequences, str <+: key.text)) := by
  rw [isSpecialKeySequencePrefix, h.strlen]
  exact startsSome_eq h fun _ => specialKeySequences_hold

theorem findCode_eq (h : HoldsString sequence str) {keys : List SpecialKeySequence}
    (hkeys : ∀ key ∈ keys, HoldsString key.sequence key.text) :
    findCode sequence keys = some (match keys.find? (·.text = str) with
      | some key => key.code.value
      | none => 0) := by
  induction keys with
  | nil => rfl
  | cons key keys ih =>
      obtain ⟨r, hr, hiff⟩ := h.strcmp (hkeys key (by simp))
      have ih := ih fun k hk => hkeys k (by simp [hk])
      by_cases hr0 : r = 0
      · simp [findCode, hr, hr0, hiff.mp hr0]
      · have hne : ¬ key.text = str := fun he => hr0 (hiff.mpr he.symm)
        simp [findCode, hr, hr0, ih, hne]

theorem getSpecialKeyCode_eq (h : HoldsString sequence str) :
    getSpecialKeyCode sequence = some (specialCode str) :=
  findCode_eq h fun _ => specialKeySequences_hold

/-- The loop goes on exactly at an unfinished string. -/
theorem unfinished_iff : ((∃ key ∈ specialKeySequences, str <+: key.text) ∧ specialCode str = 0) ↔
    Unfinished str := by
  constructor
  · rintro ⟨⟨key, hkey, hstr⟩, hcode⟩
    have hall : ∀ key ∈ specialKeySequences, ∀ s ∈ key.text.inits, specialCode s = 0 →
        Unfinished s := by decide
    exact hall key hkey str ((List.mem_inits _ _).mpr hstr) hcode
  · rintro (rfl | rfl | rfl) <;> decide

theorem Getch.again_eq (hne : g.console.receiveBufferHead ≠ g.console.receiveBufferTail)
    (h : HoldsString g.sequence str) : g.again = some (decide (Unfinished str)) := by
  by_cases hpre : ∃ key ∈ specialKeySequences, str <+: key.text
  · have hiff : (specialCode str == 0) = decide (Unfinished str) := by
      rw [Bool.eq_iff_iff, beq_iff_eq, decide_eq_true_iff, ← unfinished_iff]
      exact ⟨fun hc => ⟨hpre, hc⟩, fun hu => hu.2⟩
    simp [Getch.again, hne, isSpecialKeySequencePrefix_eq h, getSpecialKeyCode_eq h, hpre, hiff]
  · have hnot : ¬ Unfinished str := fun hu => hpre (unfinished_iff.mpr hu).1
    simp [Getch.again, hne, isSpecialKeySequencePrefix_eq h, hpre, hnot]

theorem Getch.again_empty (he : g.console.receiveBufferHead = g.console.receiveBufferTail) :
    g.again = some false := by
  simp [Getch.again, he]

/-! ### The array in `kgetch` -/

theorem holds_takeWhile {xs : List UInt8} (h : 0 ∈ xs) (ys : List UInt8) :
    HoldsString (xs ++ ys) (xs.takeWhile (· ≠ 0)) := by
  induction xs with
  | nil => cases h
  | cons b xs ih =>
      by_cases hb : b = 0
      · subst hb
        exact HoldsString.nil _
      · have hmem : 0 ∈ xs := by simpa [Ne.symm hb] using h
        simpa [hb] using (ih hmem).cons hb

theorem takeWhile_eq_self {xs : List UInt8} (h : 0 ∉ xs) : xs.takeWhile (· ≠ 0) = xs :=
  cstring_of_notMem h

theorem Unfinished.length_le (h : Unfinished str) : str.length ≤ 2 := by
  rcases h with rfl | rfl | rfl <;> decide

/-- A call at the head of its loop: `sequence` has the bytes read, and NULs after them.  The bytes
before the last one left the loop going. -/
structure Getch.Read (g : Getch) : Prop where
  length : g.sequenceLength = g.taken.length
  bound : g.taken.length ≤ 6
  array : g.sequence = g.taken ++ List.replicate (6 - g.taken.length) 0
  went : g.taken = [] ∨ ∃ ys b, g.taken = ys ++ [b] ∧ Unfinished (ys.takeWhile (· ≠ 0))

/-- Without a NUL at most three bytes are read. -/
theorem Getch.Read.short (h : g.Read) (h₀ : 0 ∉ g.taken) : g.taken.length ≤ 3 := by
  rcases h.went with he | ⟨ys, b, he, hys⟩
  · simp [he]
  · have hmem : 0 ∉ ys := fun hm => h₀ (by simp [he, hm])
    rw [takeWhile_eq_self hmem] at hys
    have := hys.length_le
    simp only [he, List.length_append, List.length_singleton]
    omega

/-- The array always holds a string. -/
theorem Getch.Read.holds (h : g.Read) : HoldsString g.sequence (g.taken.takeWhile (· ≠ 0)) := by
  rw [h.array]
  by_cases h₀ : 0 ∈ g.taken
  · exact holds_takeWhile h₀ _
  · have hlen := h.short h₀
    obtain ⟨k, hk⟩ : ∃ k, 6 - g.taken.length = k + 1 := ⟨5 - g.taken.length, by omega⟩
    rw [takeWhile_eq_self h₀]
    exact ⟨h₀, List.replicate k 0, by rw [hk, List.replicate_succ]⟩

theorem Getch.Read.again (h : g.Read)
    (hne : g.console.receiveBufferHead ≠ g.console.receiveBufferTail) :
    g.again = some true ↔ Unfinished (g.taken.takeWhile (· ≠ 0)) := by
  rw [Getch.again_eq hne h.holds, Option.some_inj, decide_eq_true_iff]

theorem Loops.read (hc : c.Valid) (h : Loops c g) : g.Read := by
  induction h with
  | start => exact ⟨rfl, Nat.zero_le _, rfl, .inl rfl⟩
  | @round g g' hg again body ih =>
      have hne := Getch.nonempty_of_again again
      have hgo := (ih.again hne).mp again
      obtain ⟨b, -, -, hlt, hseq, hlen, htaken⟩ := Getch.body_spec (hg.taken hc).1 hne body
      have hn := ih.length
      obtain ⟨k, hk⟩ : ∃ k, 6 - g.taken.length = k + 1 := ⟨5 - g.taken.length, by omega⟩
      refine ⟨by simp [hlen, htaken, hn], ?_, ?_, .inr ⟨g.taken, b, htaken, hgo⟩⟩
      · simp only [htaken, List.length_append, List.length_singleton]
        omega
      · have hk' : 6 - g'.taken.length = k := by simp [htaken]; omega
        rw [hk', hseq, htaken, ih.array, hn, hk, List.set_append_right _ _ le_rfl]
        simp [List.replicate_succ]

/-- Every write of a call of `kgetch` to `sequence` is inside the array, and whenever the array is
handed to a string function there is a NUL in it. -/
def StaysInside (c : Console) : Prop :=
  ∀ g, Loops c g →
    (g.again = some true → g.sequenceLength < 6) ∧ g.sequence.length = 6 ∧ 0 ∈ g.sequence

/-- The bytes in the ring on which `kgetch` writes outside `sequence`: at least seven, and a NUL
comes before they have told which key it is. -/
def Overruns (pending : List UInt8) : Prop :=
  7 ≤ pending.length ∧ Unfinished (pending.takeWhile (· ≠ 0))

instance : DecidablePred Overruns := fun _ => inferInstanceAs (Decidable (_ ∧ _))

theorem Unfinished.of_prefix {str' : List UInt8} (h : Unfinished str) (hp : str' <+: str) :
    Unfinished str' := by
  have hall : ∀ s ∈ [[], [0x1b], [0x1b, 0x5b]], ∀ t ∈ s.inits, Unfinished t := by decide
  refine hall str ?_ str' ((List.mem_inits _ _).mpr hp)
  rcases h with rfl | rfl | rfl <;> decide

theorem takeWhile_append_of_mem {xs : List UInt8} (h : 0 ∈ xs) (ys : List UInt8) :
    (xs ++ ys).takeWhile (· ≠ 0) = xs.takeWhile (· ≠ 0) := by
  induction xs with
  | nil => cases h
  | cons b xs ih =>
      by_cases hb : b = 0
      · simp [hb]
      · have hmem : 0 ∈ xs := by simpa [Ne.symm hb] using h
        simpa [hb] using ih hmem

theorem takeWhile_prefix_append (xs ys : List UInt8) :
    xs.takeWhile (· ≠ 0) <+: (xs ++ ys).takeWhile (· ≠ 0) := by
  by_cases h : 0 ∈ xs
  · rw [takeWhile_append_of_mem h]
  · have hall : ∀ b ∈ xs, decide (b ≠ 0) = true := fun b hb => by
      simpa using fun he : b = 0 => h (he ▸ hb)
    rw [List.takeWhile_append_of_pos hall, takeWhile_eq_self h]
    exact List.prefix_append _ _

theorem Loops.nonempty (hc : c.Valid) (h : Loops c g) (hlt : g.taken.length < c.pending.length) :
    g.console.receiveBufferHead ≠ g.console.receiveBufferTail := by
  obtain ⟨hv, heq⟩ := h.taken hc
  intro he
  have hnil : g.console.pending = [] := (Ring.contents_eq_nil _ hv.tail).mpr he.symm
  rw [← heq, hnil, List.append_nil] at hlt
  exact lt_irrefl _ hlt

/-- With a NUL before the key is known, the loop goes on until the ring is empty. -/
theorem Loops.goes_on (hc : c.Valid) (h : Loops c g)
    (hU : Unfinished (c.pending.takeWhile (· ≠ 0))) (hlt : g.taken.length < c.pending.length) :
    g.again = some true := by
  obtain ⟨-, heq⟩ := h.taken hc
  refine ((h.read hc).again (h.nonempty hc hlt)).mpr (hU.of_prefix ?_)
  rw [← heq]
  exact takeWhile_prefix_append _ _

theorem Overruns.reaches (hc : c.Valid) (h : Overruns c.pending) (n : Nat) (hn : n ≤ 6) :
    ∃ g, Loops c g ∧ g.taken.length = n := by
  have hlen := h.1
  induction n with
  | zero => exact ⟨_, .start, rfl⟩
  | succ n ih =>
      obtain ⟨g, hg, hgn⟩ := ih (by omega)
      have hagain := hg.goes_on hc h.2 (by omega)
      have hlt : g.sequenceLength < 6 := by
        rw [(hg.read hc).length]
        omega
      have hbody : g.body = some _ := if_pos hlt
      exact ⟨_, hg.round hagain hbody, by simp [hgn]⟩

theorem Overruns.not_staysInside (hc : c.Valid) (h : Overruns c.pending) : ¬ StaysInside c := by
  intro hs
  obtain ⟨g, hg, hgn⟩ := h.reaches hc 6 le_rfl
  have hlen := h.1
  have hlt := (hs g hg).1 (hg.goes_on hc h.2 (by omega))
  rw [(hg.read hc).length] at hlt
  omega

/-- **When `kgetch` stays inside its array.**  Whatever the UART has stored, it does exactly if
fewer than seven bytes wait or no NUL comes before the bytes tell the key. -/
theorem kgetch_stays_inside_iff (h : serial.Reachable c) :
    StaysInside c ↔ ¬ Overruns c.pending := by
  have hc := Reachable.valid h
  refine ⟨fun hs ho => ho.not_staysInside hc hs, ?_⟩
  intro ho g hg
  have hr := hg.read hc
  have hbound := hr.bound
  refine ⟨fun hagain => ?_, ?_, hr.holds.terminated⟩
  · by_contra hge
    have hlen : g.taken.length = 6 := by
      rw [hr.length] at hge
      omega
    have hne := Getch.nonempty_of_again hagain
    have hU := (hr.again hne).mp hagain
    have hmem : 0 ∈ g.taken := by
      by_contra h₀
      have := hr.short h₀
      omega
    obtain ⟨hv, heq⟩ := hg.taken hc
    have hpos : g.console.pending ≠ [] :=
      fun hnil => hne ((Ring.contents_eq_nil _ hv.tail).mp hnil).symm
    refine ho ⟨?_, ?_⟩
    · have := List.length_pos_iff.mpr hpos
      rw [← heq, List.length_append]
      omega
    · rwa [← heq, takeWhile_append_of_mem hmem]
  · rw [hr.array, List.length_append, List.length_replicate]
    omega

/-- Ten letters wait: the call stays inside. -/
theorem kgetch_stays_inside_letters :
    StaysInside (uartInterruptHandler (consoleInit ⟨fun _ => 0, 0, 0⟩)
      (List.replicate 10 0x61)) := by
  have hr := (serialRing_uart ⟨fun _ => 0, 0, 0⟩ (List.replicate 10 0x61)).of_observe
  exact (kgetch_stays_inside_iff hr).mpr (by decide)

/-- Seven NULs wait: `kgetch` writes to `sequence[6]`. -/
theorem kgetch_overruns_nuls :
    serial.Reachable (uartInterruptHandler (consoleInit ⟨fun _ => 0, 0, 0⟩) (List.replicate 7 0)) ∧
      ¬ StaysInside
        (uartInterruptHandler (consoleInit ⟨fun _ => 0, 0, 0⟩) (List.replicate 7 0)) := by
  have hr := (serialRing_uart ⟨fun _ => 0, 0, 0⟩ (List.replicate 7 0)).of_observe
  have ho : Overruns (uartInterruptHandler (consoleInit ⟨fun _ => 0, 0, 0⟩)
      (List.replicate 7 0)).pending := by decide
  exact ⟨hr, ho.not_staysInside (Reachable.valid hr)⟩

/-! ### Decoding -/

/-- What the user typed: a special key, or a byte that stands for itself. -/
inductive KeyEncoding : List UInt8 → Prop where
  | special (key : SpecialKeySequence) (mem : key ∈ specialKeySequences) : KeyEncoding key.text
  | single {b : UInt8} (low : 1 ≤ b) (high : b ≤ 126) (escape : b ≠ 0x1b) : KeyEncoding [b]

/-- The code of a string that the loop has read: a special key's, or the last byte. -/
def codeOf (str : List UInt8) : Int :=
  if specialCode str = 0 ∧ str ≠ [] then ((str.getLast?.getD 0).toNat : Int) else specialCode str

theorem KeyEncoding.ne_nil (h : KeyEncoding str) : str ≠ [] := by
  cases h with
  | special key mem =>
      have hall : ∀ key ∈ specialKeySequences, key.text ≠ [] := by decide
      exact hall key mem
  | single => simp

theorem KeyEncoding.no_nul (h : KeyEncoding str) : 0 ∉ str := by
  cases h with
  | special key mem => exact (specialKeySequences_hold mem).1
  | single low =>
      simp only [List.mem_singleton]
      rintro rfl
      exact absurd low (by decide)

theorem KeyEncoding.not_unfinished (h : KeyEncoding str) : ¬ Unfinished str := by
  cases h with
  | special key mem =>
      have hall : ∀ key ∈ specialKeySequences, ¬ Unfinished key.text := by decide
      exact hall key mem
  | single low high escape => simp [Unfinished, escape]

theorem codeOf_ne_zero (hne : str ≠ []) (h₀ : 0 ∉ str) : codeOf str ≠ 0 := by
  unfold codeOf
  split
  · rw [List.getLast?_eq_getLast_of_ne_nil hne, Option.getD_some]
    have hlast : str.getLast hne ≠ 0 := fun he => h₀ (he ▸ List.getLast_mem hne)
    exact fun he => hlast (UInt8.toNat_inj.mp (Int.ofNat_inj.mp he))
  · rename_i hcode
    exact fun he => hcode ⟨he, hne⟩

/-- Before its last byte an encoding leaves the loop going, and what a call would make of that part
is another code. -/
theorem KeyEncoding.part (h : KeyEncoding str) {part : List UInt8} (hp : part <+: str)
    (hne : part ≠ str) : Unfinished part ∧ codeOf part ≠ codeOf str := by
  cases h with
  | special key mem =>
      have hall : ∀ key ∈ specialKeySequences, ∀ p ∈ key.text.inits, p ≠ key.text →
          Unfinished p ∧ codeOf p ≠ codeOf key.text := by decide
      exact hall key mem part ((List.mem_inits _ _).mpr hp) hne
  | @single b low high escape =>
      have hpart : part ∈ [b].inits := (List.mem_inits _ _).mpr hp
      obtain rfl : part = [] := by simpa [hne] using hpart
      have hcode := codeOf_ne_zero (KeyEncoding.single low high escape).ne_nil
        (KeyEncoding.single low high escape).no_nul
      exact ⟨.inl rfl, hcode.symm⟩

/-- What follows the loop, when no NUL has been read. -/
theorem Loops.keycode (hc : c.Valid) (h : Loops c g) (h₀ : 0 ∉ g.taken) :
    g.keycode = some (codeOf g.taken) := by
  have hr := h.read hc
  have hcode := getSpecialKeyCode_eq hr.holds
  rw [takeWhile_eq_self h₀] at hcode
  have hlen : g.sequenceLength = 0 ↔ g.taken = [] := by rw [hr.length, List.length_eq_zero_iff]
  by_cases hlast : specialCode g.taken = 0 ∧ g.taken ≠ []
  · have hpos := List.length_pos_iff.mpr hlast.2
    have hget : g.sequence[g.sequenceLength - 1]? = some (g.taken.getLast hlast.2) := by
      rw [hr.array, hr.length, List.getElem?_append_left (by omega), List.getLast_eq_getElem,
        List.getElem?_eq_getElem]
    simp [Getch.keycode, codeOf, hcode, hlen, hlast, hget, List.getLast?_eq_getLast_of_ne_nil]
  · simp [Getch.keycode, codeOf, hcode, hlen, hlast]

theorem pending_eq_nil (hc : c.Valid) :
    c.pending = [] ↔ c.receiveBufferHead = c.receiveBufferTail := by
  rw [Console.pending, Ring.contents_eq_nil _ hc.tail, eq_comm]

/-- The condition of the loop, when no NUL has been read. -/
theorem Loops.again (hc : c.Valid) (h : Loops c g) (h₀ : 0 ∉ g.taken) :
    g.again = some (decide (g.console.pending ≠ [] ∧ Unfinished g.taken)) := by
  have hnil := pending_eq_nil (h.taken hc).1
  by_cases he : g.console.receiveBufferHead = g.console.receiveBufferTail
  · rw [Getch.again_empty he]
    simp [hnil.mpr he]
  · rw [Getch.again_eq he (h.read hc).holds, takeWhile_eq_self h₀]
    simp [mt hnil.mp he]

/-- A call reads `es` if it is left unfinished before the last byte of `es`, and has a key or an
empty ring after it. -/
theorem Loops.takes (hc : c.Valid) {es rest : List UInt8} (h : Loops c g)
    (hpend : g.console.pending = es ++ rest)
    (hgo : ∀ p, p <+: es → p ≠ es → Unfinished (g.taken ++ p))
    (hstop : Unfinished (g.taken ++ es) → rest = []) (h₀ : 0 ∉ g.taken ++ es) {n : Nat}
    (hn : es.length < n) :
    ∃ g', kgetchLoop n g = (true, g') ∧ Loops c g' ∧ g'.taken = g.taken ++ es ∧
      g'.console.pending = rest := by
  induction es generalizing g n with
  | nil =>
      simp only [List.append_nil, List.nil_append] at hpend hstop h₀ ⊢
      obtain ⟨n, rfl⟩ : ∃ m, n = m + 1 := ⟨n - 1, by simp at hn; omega⟩
      have hagain : g.again = some false := by
        rw [h.again hc h₀, hpend]
        simpa using mt hstop
      exact ⟨g, by simp [kgetchLoop, hagain], h, rfl, hpend⟩
  | cons b es ih =>
      have hU : Unfinished g.taken := by simpa using hgo [] List.nil_prefix (by simp)
      have hagain : g.again = some true := by
        rw [h.again hc fun hm => h₀ (by simp [hm]), hpend]
        simpa using hU
      have hlt : g.sequenceLength < 6 := by
        have := hU.length_le
        rw [(h.read hc).length]
        omega
      have hbody : g.body = some _ := if_pos hlt
      obtain ⟨b', -, hpend', -, -, -, htaken⟩ :=
        Getch.body_spec (h.taken hc).1 (Getch.nonempty_of_again hagain) hbody
      rw [hpend, List.cons_append, List.cons.injEq] at hpend'
      obtain ⟨rfl, hpend'⟩ := hpend'
      have happ : ∀ p, (g.taken ++ [b]) ++ p = g.taken ++ b :: p := fun p => by simp
      obtain ⟨n, rfl⟩ : ∃ m, n = m + 1 := ⟨n - 1, by simp at hn; omega⟩
      obtain ⟨g', hloop, hg', ht, hrest⟩ := ih (h.round hagain hbody) hpend'.symm
        (fun p hp hpe => by
          rw [htaken, happ]
          exact hgo (b :: p) ((List.prefix_cons_inj b).mpr hp) (by simpa using hpe))
        (by rwa [htaken, happ]) (by rwa [htaken, happ]) (by simpa using hn)
      refine ⟨g', ?_, hg', ?_, hrest⟩
      · rw [← hloop, kgetchLoop, hagain]
        simp [hbody]
      · rw [ht, htaken, happ]

/-- `kgetch` on a ring that starts with `es`. -/
theorem kgetch_takes (hc : c.Valid) (es rest : List UInt8) (hpend : c.pending = es ++ rest)
    (hgo : ∀ p, p <+: es → p ≠ es → Unfinished p) (hstop : Unfinished es → rest = [])
    (h₀ : 0 ∉ es) :
    (kgetch c).1 = some (codeOf es) ∧ (kgetch c).2.console.pending = rest := by
  have hlen : es.length < 16 := by
    have := Ring.count_lt hc.tail hc.head
    rw [← Ring.length_contents c.receiveBuffer, ← Console.pending, hpend,
      List.length_append] at this
    omega
  obtain ⟨g, hloop, hg, htaken, hrest⟩ := Loops.start.takes hc hpend hgo hstop h₀ hlen
  have htaken : g.taken = es := htaken
  unfold kgetch
  rw [hloop]
  refine ⟨?_, hrest⟩
  exact (hg.keycode hc (htaken ▸ h₀)).trans (by rw [htaken])

theorem Unfinished.no_nul (h : Unfinished str) : 0 ∉ str := by
  rcases h with rfl | rfl | rfl <;> decide

/-- `kgetch` on a ring that starts with a key. -/
theorem kgetch_key (hc : c.Valid) {e rest : List UInt8} (he : KeyEncoding e)
    (hpend : c.pending = e ++ rest) :
    (kgetch c).1 = some (codeOf e) ∧ (kgetch c).2.console.pending = rest :=
  kgetch_takes hc e rest hpend (fun _ hp hne => (he.part hp hne).1)
    (fun hu => absurd hu he.not_unfinished) he.no_nul

/-- `kgetch` on a ring that has only the beginning of a key. -/
theorem kgetch_part (hc : c.Valid) (hu : Unfinished c.pending) :
    (kgetch c).1 = some (codeOf c.pending) ∧ (kgetch c).2.console.pending = [] :=
  kgetch_takes hc c.pending [] (List.append_nil _).symm (fun _ hp _ => hu.of_prefix hp)
    (fun _ => rfl) hu.no_nul

/-! ### Two runs with one stream -/

/-- What has happened on the line: the bytes delivered, those not discarded, and the nonzero codes
that `kgetch` has returned.  `torn` counts the calls that found the beginning of a special key's
sequence in the ring, and nothing else. -/
structure KeyHistory where
  delivered : List UInt8
  kept : List UInt8
  codes : List Int
  torn : Nat

/-- The history after an event. -/
def KeyHistory.record (r : KeyHistory) (c : Console) : SerialEvent → KeyHistory
  | .uart data => { r with delivered := r.delivered ++ data, kept := r.kept ++ c.stored data }
  | .getch => { r with
      codes := r.codes ++ (kgetch c).1.toList.filter (· ≠ 0)
      torn := if c.pending ≠ [] ∧ Unfinished c.pending then r.torn + 1 else r.torn }

/-- The serial line with the history of its keys. -/
def serialKeys : System (Console × KeyHistory) SerialEvent :=
  serial.observe (fun _ => ⟨[], [], [], 0⟩) fun r c e _ => r.record c e

theorem Console.stored_length_le (c : Console) (data : List UInt8) :
    (c.stored data).length ≤ data.length := by
  induction data generalizing c with
  | nil => exact le_rfl
  | cons b data ih =>
      have := ih (c.receive b)
      cases hfull : c.full <;> simp [Console.stored, hfull] <;> omega

/-- The codes returned so far, when the stream `keys` is being delivered: those of the keys the ring
has given away, as long as no call has found the beginning of a key alone; else some code is not
its key's. -/
inductive Decoded (keys : List (List UInt8)) (c : Console) (r : KeyHistory) : Prop where
  | whole (given left : List (List UInt8)) (keys_eq : keys = given ++ left)
      (untorn : r.torn = 0) (codes : r.codes = given.map codeOf)
      (pending : given.flatten ++ c.pending = r.delivered)
  | broken (given : List (List UInt8)) (key : List UInt8) (left : List (List UInt8))
      (keys_eq : keys = given ++ key :: left) (torn : r.torn ≠ 0) (code : Int) (rest : List Int)
      (codes : r.codes = given.map codeOf ++ code :: rest) (wrong : code ≠ codeOf key)

section Decoding

variable {keys : List (List UInt8)} {r : KeyHistory}

theorem KeyHistory.record_getch {code : Int} (h : (kgetch c).1 = some code) (hcode : code ≠ 0) :
    (r.record c .getch).codes = r.codes ++ [code] := by
  simp [KeyHistory.record, h, hcode]

/-- A call decodes the next key, finds the ring empty, or breaks the next key in two. -/
theorem Decoded.getch (hc : c.Valid) (hkeys : ∀ e ∈ keys, KeyEncoding e) {post : List UInt8}
    (hpost : r.delivered ++ post = keys.flatten) (h : Decoded keys c r) :
    Decoded keys (kgetch c).2.console (r.record c .getch) := by
  cases h with
  | broken given key left hk torn code rest codes wrong =>
      refine .broken given key left hk ?_ code
        (rest ++ (kgetch c).1.toList.filter (· ≠ 0)) ?_ wrong
      · simp only [KeyHistory.record]
        split <;> omega
      · simp [KeyHistory.record, codes]
  | whole given left hk untorn codes hpend =>
      by_cases hnil : c.pending = []
      · obtain ⟨hcode, hrest⟩ := kgetch_part hc (.inl hnil)
        have hzero : codeOf [] = 0 := by decide
        refine .whole given left hk ?_ ?_ ?_
        · simp [KeyHistory.record, hnil, untorn]
        · simp [KeyHistory.record, hcode, codes, hnil, hzero]
        · simpa [KeyHistory.record, hrest, hnil] using hpend
      · have hstream : c.pending ++ post = left.flatten := by
          rw [← hpend, hk, List.flatten_append, List.append_assoc] at hpost
          exact List.append_cancel_left hpost
        cases left with
        | nil => exact absurd (List.append_eq_nil_iff.mp hstream).1 hnil
        | cons e left =>
            have he : KeyEncoding e := hkeys e (by simp [hk])
            by_cases hwhole : e <+: c.pending
            · obtain ⟨rest, hrest⟩ := hwhole
              obtain ⟨hcode, hrest'⟩ := kgetch_key hc he hrest.symm
              have hnot : ¬ Unfinished c.pending :=
                fun hu => he.not_unfinished (hu.of_prefix ⟨rest, hrest⟩)
              refine .whole (given ++ [e]) left (by simp [hk]) ?_ ?_ ?_
              · simp [KeyHistory.record, hnot, untorn]
              · rw [KeyHistory.record_getch hcode (codeOf_ne_zero he.ne_nil he.no_nul), codes,
                  List.map_append, List.map_singleton]
              · simpa [KeyHistory.record, hrest', hrest] using hpend
            · have hpart : c.pending <+: e :=
                (List.prefix_or_prefix_of_prefix ⟨post, hstream⟩ ⟨left.flatten, rfl⟩).resolve_right
                  hwhole
              obtain ⟨hu, hwrong⟩ := he.part hpart fun heq => hwhole (heq ▸ List.prefix_rfl)
              have hcode := (kgetch_part hc hu).1
              refine .broken given e left hk ?_ (codeOf c.pending) [] ?_ hwrong
              · simp [KeyHistory.record, hnil, hu]
              · rw [KeyHistory.record_getch hcode (codeOf_ne_zero hnil hu.no_nul), codes]

theorem Decoded.uart (hc : c.Valid) {data : List UInt8} (hstored : c.stored data = data)
    (h : Decoded keys c r) :
    Decoded keys (uartInterruptHandler c data) (r.record c (.uart data)) := by
  cases h with
  | broken given key left hk torn code rest codes wrong =>
      exact .broken given key left hk torn code rest codes wrong
  | whole given left hk untorn codes hpend =>
      refine .whole given left hk untorn codes ?_
      rw [hc.pending_handler, hstored, ← List.append_assoc, hpend]
      rfl

/-- While a stream of keys is delivered without a loss, the codes are as `Decoded` has them. -/
theorem decoded (h : serialKeys.Reachable (c, r)) (hkeys : ∀ e ∈ keys, KeyEncoding e)
    (post : List UInt8) (hpost : r.delivered ++ post = keys.flatten)
    (hkept : r.kept = r.delivered) : Decoded keys c r := by
  have hinv : c.Valid ∧ r.kept.length ≤ r.delivered.length ∧ ∀ post,
      r.delivered ++ post = keys.flatten → r.kept = r.delivered → Decoded keys c r := by
    refine System.Reachable.observer_invariant (I := fun c r =>
      c.Valid ∧ r.kept.length ≤ r.delivered.length ∧ ∀ post,
        r.delivered ++ post = keys.flatten → r.kept = r.delivered → Decoded keys c r) h ?_ ?_
    · rintro _ ⟨c₀, rfl⟩
      exact ⟨consoleInit_valid c₀, le_rfl, fun _ _ _ =>
        .whole [] keys rfl rfl rfl (Ring.contents_self _)⟩
    · intro c r e c' ⟨hc, hlen, hr⟩ hs
      cases e with
      | uart data =>
          obtain rfl : c' = _ := hs
          have hle := c.stored_length_le data
          refine ⟨hc.handler data, by simp only [KeyHistory.record, List.length_append]; omega, ?_⟩
          intro post hpost hkept
          -- nothing lost in all means nothing lost before and nothing lost now
          have hlens := congrArg List.length hkept
          simp only [KeyHistory.record, List.length_append] at hlens
          obtain ⟨hbefore, hnow⟩ := List.append_inj hkept (by omega)
          exact (hr (data ++ post) (by simpa [KeyHistory.record] using hpost) hbefore).uart hc hnow
      | getch =>
          obtain rfl : c' = _ := hs
          exact ⟨((kgetch_loops c).taken hc).1, hlen, fun post hpost hkept =>
            (hr post hpost hkept).getch hc hkeys hpost⟩
  exact hinv.2.2 post hpost hkept

/-- After a stream of keys without a loss, with the ring drained: the codes are the keys' exactly if
no call found the beginning of a key alone. -/
theorem codes_eq_iff (h : serialKeys.Reachable (c, r)) (hkeys : ∀ e ∈ keys, KeyEncoding e)
    (hstream : r.delivered = keys.flatten) (hkept : r.kept = r.delivered)
    (hdrained : c.pending = []) : r.codes = keys.map codeOf ↔ r.torn = 0 := by
  cases decoded h hkeys [] (by simpa using hstream) hkept with
  | whole given left hk untorn codes hpend =>
      have hleft : left.flatten = [] := by
        rw [hdrained, List.append_nil, hstream, hk, List.flatten_append] at hpend
        simpa using hpend
      obtain rfl : left = [] := by
        cases left with
        | nil => rfl
        | cons e left =>
            have he := (hkeys e (by simp [hk])).ne_nil
            exact absurd (List.append_eq_nil_iff.mp hleft).1 he
      exact ⟨fun _ => untorn, fun _ => by rw [codes, hk, List.append_nil]⟩
  | broken given key left hk torn code rest codes wrong =>
      refine ⟨fun heq => ?_, fun h₀ => absurd h₀ torn⟩
      rw [codes, hk, List.map_append, List.map_cons, List.append_cancel_left_eq,
        List.cons.injEq] at heq
      exact absurd heq.1 wrong

/-- **When the timing of the calls does not matter.**  Two runs get the same stream of keys, lose no
byte and drain the ring.  If no call of the first finds the beginning of a special key's sequence
alone in the ring, then the codes of the second are the same exactly if no call of it does. -/
theorem key_codes_same_iff (keys : List (List UInt8)) {c₁ c₂ : Console} {r₁ r₂ : KeyHistory}
    (h₁ : serialKeys.Reachable (c₁, r₁)) (h₂ : serialKeys.Reachable (c₂, r₂))
    (hkeys : ∀ e ∈ keys, KeyEncoding e)
    (hstream₁ : r₁.delivered = keys.flatten) (hstream₂ : r₂.delivered = keys.flatten)
    (hkept₁ : r₁.kept = r₁.delivered) (hkept₂ : r₂.kept = r₂.delivered)
    (hdrained₁ : c₁.pending = []) (hdrained₂ : c₂.pending = []) (huntorn : r₁.torn = 0) :
    r₁.codes = r₂.codes ↔ r₂.torn = 0 := by
  have hcodes := (codes_eq_iff h₁ hkeys hstream₁ hkept₁ hdrained₁).mpr huntorn
  rw [hcodes, eq_comm]
  exact codes_eq_iff h₂ hkeys hstream₂ hkept₂ hdrained₂

end Decoding

/-- The serial line after some events. -/
def serialAfter (es : List SerialEvent) : Console × KeyHistory :=
  es.foldl (fun x e => (match e with
    | .uart data => uartInterruptHandler x.1 data
    | .getch => (kgetch x.1).2.console, x.2.record x.1 e))
    (consoleInit ⟨fun _ => 0, 0, 0⟩, ⟨[], [], [], 0⟩)

theorem serialAfter_reachable (es : List SerialEvent) :
    serialKeys.Reachable (serialAfter es) := by
  refine List.foldlRecOn es _ (.init ⟨⟨_, rfl⟩, rfl⟩) fun x hx e _ => hx.step (e := e) ⟨?_, rfl⟩
  cases e <;> rfl

/-- The arrow up, whole. -/
def arrowAtOnce : List SerialEvent := [.uart [0x1b, 0x5b, 0x41], .getch]

/-- The arrow up, with a call after its first byte. -/
def arrowInTwo : List SerialEvent :=
  [.uart [0x1b], .getch, .uart [0x5b, 0x41], .getch, .getch]

/-- The arrow up, with a call before it arrives and one after. -/
theorem key_codes_same_arrow :
    (serialAfter arrowAtOnce).2.codes = (serialAfter (.getch :: arrowAtOnce)).2.codes :=
  (key_codes_same_iff [[0x1b, 0x5b, 0x41]] (serialAfter_reachable arrowAtOnce)
    (serialAfter_reachable (.getch :: arrowAtOnce))
    (fun e he => by
      obtain rfl : e = _ := List.mem_singleton.mp he
      exact KeyEncoding.special ⟨.KEY_ARROW_UP, [0x1b, 0x5b, 0x41, 0, 0, 0]⟩
        (by simp [specialKeySequences]))
    (by decide) (by decide) (by decide) (by decide) (by decide) (by decide) (by decide)).mpr
    (by decide)

/-- The arrow up is one key or three, as the calls come. -/
theorem key_codes_torn_arrow :
    KeyEncoding [0x1b, 0x5b, 0x41] ∧
    (∀ es ∈ [arrowAtOnce, arrowInTwo], serialKeys.Reachable (serialAfter es) ∧
      (serialAfter es).2.delivered = [0x1b, 0x5b, 0x41] ∧
      (serialAfter es).2.kept = (serialAfter es).2.delivered ∧
      (serialAfter es).1.pending = []) ∧
    (serialAfter arrowAtOnce).2.codes = [0x1001] ∧
      (serialAfter arrowInTwo).2.codes = [0x1b, 0x5b, 0x41] := by
  refine ⟨KeyEncoding.special ⟨.KEY_ARROW_UP, [0x1b, 0x5b, 0x41, 0, 0, 0]⟩
    (by simp [specialKeySequences]), ?_, by decide, by decide⟩
  have hall : ∀ es ∈ [arrowAtOnce, arrowInTwo],
      (serialAfter es).2.delivered = [0x1b, 0x5b, 0x41] ∧
      (serialAfter es).2.kept = (serialAfter es).2.delivered ∧
      (serialAfter es).1.pending = [] := by decide
  exact fun es hes => ⟨serialAfter_reachable es, hall es hes⟩

end Arunos
