import Arunos.Console.Keys

/-!
# Console — Consume — which bytes a call of `kgetch` reports

Without a NUL in the ring a call takes at most three bytes (`kgetch_consumed`): an escape byte is
taken for the beginning of an arrow key, and if what follows is something else, the call returns the
last byte it has read.  The bytes before that one are in no key that is ever returned.

So a call reports what it takes exactly if the ring does not start with an escape byte and another
byte that do not begin a whole arrow key (`StartsWhole`).
-/

namespace Arunos

variable {c : Console} {es rest : List UInt8} {b : UInt8}

/-- The bytes a call takes out of a ring without a NUL. -/
def consumed : List UInt8 → List UInt8
  | [] => []
  | [b] => [b]
  | b :: x :: rest => if b ≠ 0x1b then [b] else if x ≠ 0x5b then [b, x] else b :: x :: rest.take 1

/-- The loop goes on before the last of these bytes, and has a key or an empty ring after it. -/
structure Stops (es rest : List UInt8) : Prop where
  before : ∀ p, p <+: es → p ≠ es → Unfinished p
  after : Unfinished es → rest = []

theorem Stops.nil : Stops [] [] :=
  ⟨fun _ hp hne => absurd (List.prefix_nil.mp hp) hne, fun _ => rfl⟩

/-- One more byte after an unfinished string. -/
theorem Stops.concat (h : Unfinished es) (hstop : Unfinished (es ++ [b]) → rest = []) :
    Stops (es ++ [b]) rest := by
  refine ⟨fun p hp hne => ?_, hstop⟩
  rcases List.prefix_concat_iff.mp hp with he | hp
  · exact absurd he hne
  · exact h.of_prefix hp

theorem exists_consumed (l : List UInt8) :
    ∃ rest, l = consumed l ++ rest ∧ Stops (consumed l) rest := by
  match l with
  | [] => exact ⟨[], rfl, .nil⟩
  | [b] => exact ⟨[], rfl, Stops.concat (.inl rfl) fun _ => rfl⟩
  | b :: x :: rest =>
      by_cases hb : b = 0x1b
      · by_cases hx : x = 0x5b
        · subst hb hx
          cases rest with
          | nil => exact ⟨[], rfl, Stops.concat (.inr (.inl rfl)) fun _ => rfl⟩
          | cons y rest =>
              refine ⟨rest, rfl, Stops.concat (.inr (.inr rfl)) fun hu => ?_⟩
              exact absurd hu.length_le (by simp)
        · subst hb
          have hes : consumed (0x1b :: x :: rest) = [0x1b] ++ [x] := by simp [consumed, hx]
          rw [hes]
          refine ⟨rest, rfl, Stops.concat (.inr (.inl rfl)) fun hu => ?_⟩
          exact absurd hu (by simp [Unfinished, hx])
      · have hes : consumed (b :: x :: rest) = [] ++ [b] := by simp [consumed, hb]
        rw [hes]
        refine ⟨x :: rest, rfl, Stops.concat (.inl rfl) fun hu => ?_⟩
        exact absurd hu (by simp [Unfinished, hb])

/-- **What a call takes and returns**, on a ring without a NUL. -/
theorem kgetch_consumed (hc : c.Valid) (h₀ : 0 ∉ c.pending) :
    (kgetch c).1 = some (codeOf (consumed c.pending)) ∧
      (kgetch c).2.taken = consumed c.pending := by
  obtain ⟨rest, hpend, hstops⟩ := exists_consumed c.pending
  have hes : 0 ∉ consumed c.pending := by
    intro hm
    rw [hpend] at h₀
    exact h₀ (List.mem_append_left rest hm)
  obtain ⟨hcode, hleft⟩ := kgetch_takes hc _ rest hpend hstops.before hstops.after hes
  have htaken := ((kgetch_loops c).taken hc).2
  rw [hleft] at htaken
  exact ⟨hcode, List.append_cancel_right (htaken.trans hpend)⟩

/-! ### Reporting -/

/-- The call on `c` reports the bytes it takes: none from an empty ring, the sequence of a special
key whose code it returns, or one byte that it returns. -/
def Reports (c : Console) : Prop :=
  ((kgetch c).2.taken = [] ∧ (kgetch c).1 = some 0 ∧ c.pending = []) ∨
  (∃ key ∈ specialKeySequences,
    (kgetch c).2.taken = key.text ∧ (kgetch c).1 = some key.code.value) ∨
  ∃ b : UInt8, (kgetch c).2.taken = [b] ∧ (kgetch c).1 = some (b.toNat : Int)

/-- An escape byte with another one after it begins the sequence of a special key that is all
there. -/
def StartsWhole (pending : List UInt8) : Prop :=
  pending.head? = some 0x1b → 2 ≤ pending.length →
    ∃ key ∈ specialKeySequences, key.text <+: pending

instance : DecidablePred StartsWhole := fun _ => inferInstanceAs (Decidable (_ → _ → _))

theorem codeOf_text {key : SpecialKeySequence} (h : key ∈ specialKeySequences) :
    codeOf key.text = key.code.value := by
  have hall : ∀ key ∈ specialKeySequences, codeOf key.text = key.code.value := by decide
  exact hall key h

/-- One byte is a special key, or stands for itself. -/
theorem codeOf_singleton (b : UInt8) :
    (∃ key ∈ specialKeySequences, [b] = key.text) ∨ codeOf [b] = b.toNat := by
  cases hfind : specialKeySequences.find? (·.text = [b]) with
  | none => exact .inr (by simp [codeOf, specialCode, hfind])
  | some key =>
      refine .inl ⟨key, List.mem_of_find?_eq_some hfind, ?_⟩
      simpa [eq_comm] using List.find?_some hfind

theorem reports_iff (hc : c.Valid) (h₀ : 0 ∉ c.pending) :
    Reports c ↔ c.pending = [] ∨ (∃ key ∈ specialKeySequences, consumed c.pending = key.text) ∨
      ∃ b : UInt8, consumed c.pending = [b] := by
  obtain ⟨hcode, htaken⟩ := kgetch_consumed hc h₀
  have hzero : codeOf [] = 0 := by decide
  rw [Reports, hcode, htaken]
  constructor
  · rintro (⟨-, -, h⟩ | ⟨key, hkey, h, -⟩ | ⟨b, h, -⟩)
    · exact .inl h
    · exact .inr (.inl ⟨key, hkey, h⟩)
    · exact .inr (.inr ⟨b, h⟩)
  · rintro (h | ⟨key, hkey, h⟩ | ⟨b, h⟩)
    · rw [h]
      exact .inl ⟨rfl, congrArg some hzero, rfl⟩
    · rw [h, codeOf_text hkey]
      exact .inr (.inl ⟨key, hkey, rfl, rfl⟩)
    · rw [h]
      rcases codeOf_singleton b with ⟨key, hkey, hb⟩ | hb
      · rw [hb, codeOf_text hkey]
        exact .inr (.inl ⟨key, hkey, rfl, rfl⟩)
      · exact .inr (.inr ⟨b, rfl, congrArg some hb⟩)

/-- A special key at the front of the ring is what a call takes. -/
theorem text_prefix_iff {key : SpecialKeySequence} (hkey : key ∈ specialKeySequences)
    (l : List UInt8) : key.text <+: l ↔ consumed l = key.text := by
  obtain ⟨rest, hl, hstops⟩ := exists_consumed l
  have henc := KeyEncoding.special key hkey
  have hpre : consumed l <+: l := ⟨rest, hl.symm⟩
  constructor
  · intro hk
    by_contra hne
    rcases List.prefix_or_prefix_of_prefix hpre hk with h | h
    · -- the call stopped before the end of the key, so the ring was empty
      have hnil := hstops.after (henc.part h hne).1
      rw [hnil, List.append_nil] at hl
      exact hne (h.eq_of_length (le_antisymm h.length_le (hl ▸ hk.length_le)))
    · exact henc.not_unfinished (hstops.before key.text h (Ne.symm hne))
  · intro h
    exact h ▸ hpre

/-- What is taken is a special key or one byte exactly if the ring starts with a whole key. -/
theorem startsWhole_iff (l : List UInt8) : StartsWhole l ↔
    l = [] ∨ (∃ key ∈ specialKeySequences, consumed l = key.text) ∨ ∃ b, consumed l = [b] := by
  have hkeys : (∃ key ∈ specialKeySequences, consumed l = key.text) ↔
      ∃ key ∈ specialKeySequences, key.text <+: l :=
    exists_congr fun key => and_congr_right fun hkey => (text_prefix_iff hkey l).symm
  rw [hkeys]
  match l with
  | [] => simp [StartsWhole]
  | [b] => simp [StartsWhole, consumed]
  | b :: x :: rest =>
      by_cases hb : b = 0x1b
      · have htwo : ¬ ∃ d, consumed (b :: x :: rest) = [d] := by
          by_cases hx : x = 0x5b <;> simp [consumed, hb, hx]
        simp [StartsWhole, hb, hb ▸ htwo]
      · simp [StartsWhole, consumed, hb]

/-! ### Runs -/

/-- The serial line with the states in which `kgetch` was called. -/
def serialCalls : System (Console × List Console) SerialEvent :=
  serial.observe (fun _ => []) fun calls c e _ =>
    match e with
    | .uart _ => calls
    | .getch => calls ++ [c]

theorem serialCalls_getch {calls : List Console} (h : serialCalls.Reachable (c, calls)) :
    serialCalls.Reachable ((kgetch c).2.console, calls ++ [c]) :=
  h.step (e := .getch) ⟨rfl, rfl⟩

theorem serialCalls_valid {calls : List Console} (h : serialCalls.Reachable (c, calls)) :
    c.Valid ∧ ∀ d ∈ calls, d.Valid := by
  refine System.Reachable.observer_invariant (I := fun c calls => c.Valid ∧ ∀ d ∈ calls, d.Valid)
    h ?_ ?_
  · rintro _ ⟨c₀, rfl⟩
    exact ⟨consoleInit_valid c₀, by simp⟩
  · intro c calls e c' ⟨hc, hcalls⟩ hs
    cases e with
    | uart data =>
        obtain rfl : c' = _ := hs
        exact ⟨hc.handler data, hcalls⟩
    | getch =>
        obtain rfl : c' = _ := hs
        refine ⟨((kgetch_loops c).taken hc).1, ?_⟩
        intro d hd
        rcases List.mem_append.mp hd with hd | hd
        · exact hcalls d hd
        · obtain rfl := List.mem_singleton.mp hd
          exact hc

/-- **When every consumed byte is reported.**  A call on a ring without a NUL reports what it takes
exactly if the ring does not start with an escape byte and another byte that begin no whole special
key.  So over a run without NULs no byte is swallowed exactly if no call finds such a ring. -/
theorem kgetch_reports_iff {calls : List Console} (h : serialCalls.Reachable (c, calls))
    (h₀ : ∀ d ∈ calls, 0 ∉ d.pending) :
    (∀ d : Console, d.Valid → 0 ∉ d.pending → (Reports d ↔ StartsWhole d.pending)) ∧
      ((∀ d ∈ calls, Reports d) ↔ ∀ d ∈ calls, StartsWhole d.pending) := by
  have hcall : ∀ d : Console, d.Valid → 0 ∉ d.pending → (Reports d ↔ StartsWhole d.pending) :=
    fun d hd h₀ => (reports_iff hd h₀).trans (startsWhole_iff d.pending).symm
  have hvalid := (serialCalls_valid h).2
  exact ⟨hcall, forall₂_congr fun d hd => hcall d (hvalid d hd) (h₀ d hd)⟩

/-- An arrow key comes and is read: the call takes its three bytes and reports them by its code. -/
theorem kgetch_reports_arrow :
    ∃ c d, serialCalls.Reachable (c, [d]) ∧ d.pending = [0x1b, 0x5b, 0x41] ∧
      (kgetch d).1 = some 0x1001 ∧ c.pending = [] ∧ Reports d := by
  let c₀ := consoleInit ⟨fun _ => 0, 0, 0⟩
  let d := uartInterruptHandler c₀ [0x1b, 0x5b, 0x41]
  have h₁ : serialCalls.Reachable (d, []) :=
    .step (e := .uart [0x1b, 0x5b, 0x41]) (.init (s := (c₀, [])) ⟨⟨_, rfl⟩, rfl⟩) ⟨rfl, rfl⟩
  have h₂ := serialCalls_getch h₁
  exact ⟨_, d, h₂, by decide, by decide, by decide,
    (kgetch_reports_iff h₂ (by decide)).2.mpr (by decide) d List.mem_cons_self⟩

/-- An escape byte and a letter wait: the call takes both and returns the letter. -/
theorem kgetch_swallows_escape :
    serial.Reachable (uartInterruptHandler (consoleInit ⟨fun _ => 0, 0, 0⟩) [0x1b, 0x61]) ∧
    (uartInterruptHandler (consoleInit ⟨fun _ => 0, 0, 0⟩) [0x1b, 0x61]).pending = [0x1b, 0x61] ∧
    (kgetch (uartInterruptHandler (consoleInit ⟨fun _ => 0, 0, 0⟩) [0x1b, 0x61])).2.taken =
      [0x1b, 0x61] ∧
    (kgetch (uartInterruptHandler (consoleInit ⟨fun _ => 0, 0, 0⟩) [0x1b, 0x61])).1 = some 0x61 ∧
    ¬ Reports (uartInterruptHandler (consoleInit ⟨fun _ => 0, 0, 0⟩) [0x1b, 0x61]) := by
  have hr := (serialRing_uart ⟨fun _ => 0, 0, 0⟩ [0x1b, 0x61]).of_observe
  refine ⟨hr, by decide, by decide, by decide, ?_⟩
  rw [reports_iff (Reachable.valid hr) (by decide), ← startsWhole_iff]
  decide

end Arunos
