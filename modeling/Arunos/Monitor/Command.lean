import Arunos.Lib.Strtok
import Mathlib.Data.List.Nodup

/-!
# Monitor — Command — the command line of `kernel/monitor/monitor.c`

`tokenize_command` fills `argv` with pointers to the words of the line, as far as there is room.
`get_command_handler` compares the first of them with the names in `commands`, and the function
found is called with all of them (`monitorLine`).

* `strtok_splits`: the words are the maximal runs of characters that are no delimiters.
* `monitorLine_calls`: the function called is the one whose name is the first word, and `argv` holds
  the words.
-/

namespace Arunos

/-- `ARG_COUNT_MAX`. -/
def argCountMax : Nat := 10

/-- The loop of `tokenize_command`.  A store outside `argv` is a fault. -/
def tokenizeLoop (token : Option Nat) (argc : Nat) (argv : List Nat) (s : Strtok) :
    Option (Nat × List Nat × Strtok) :=
  match token with
  | none => some (argc, argv, s)
  | some pointer =>
      if argc < argCountMax then
        if argc < argv.length then do
          let (token, s) ← strtok s none [32]
          tokenizeLoop token (argc + 1) (argv.set argc pointer) s
        else none
      else some (argc, argv, s)
termination_by argCountMax - argc

/-- `tokenize_command(command_string, &argc, argv)`: the count it stores, the array it fills, and
what it leaves of the line. -/
def tokenizeCommand (s : Strtok) (argv : List Nat) : Option (Nat × List Nat × Strtok) := do
  let (token, s) ← strtok s (some 0) [32]
  tokenizeLoop token 0 argv s

variable {str rest : List UInt8} {s : Strtok} {argv : List Nat} {n : Nat}

/-- The first words are stored, up to the `n`-th. -/
theorem set_map_take {words : List (Nat × List UInt8)} {t : Nat × List UInt8}
    (ht : words[n]? = some t) (hn : n < argv.length) :
    ((words.take n).map Prod.fst ++ argv.drop n).set n t.1 =
      (words.take (n + 1)).map Prod.fst ++ argv.drop (n + 1) := by
  have hlen : ((words.take n).map Prod.fst).length = n := by
    have := (List.getElem?_eq_some_iff.mp ht).1
    simp only [List.length_map, List.length_take]
    omega
  rw [List.set_append_right _ _ hlen.le, hlen, Nat.sub_self, List.drop_eq_getElem_cons hn,
    List.set_cons_zero, List.take_add_one, ht]
  simp

/-- From `n` words on, the loop stores the rest of the first ten. -/
theorem tokenizeLoop_words (hstr : 0 ∉ str) (hargv : argv.length = argCountMax)
    (hs : Splitting [32] str rest (n + 1) s) (hn : n ≤ argCountMax)
    (hwords : n ≤ (tokens [32] str).length) :
    ∃ s', tokenizeLoop ((tokens [32] str)[n]?.map Prod.fst) n
        (((tokens [32] str).take n).map Prod.fst ++ argv.drop n) s =
      some (min argCountMax (tokens [32] str).length,
        ((tokens [32] str).take argCountMax).map Prod.fst ++ argv.drop (tokens [32] str).length,
        s') ∧
      ∀ t ∈ (tokens [32] str).take argCountMax, HoldsString (s'.text.drop t.1) t.2 := by
  -- induction on the room left in `argv`
  induction hroom : argCountMax - n generalizing n s with
  | zero =>
      obtain rfl : n = argCountMax := by omega
      refine ⟨s, ?_, fun t ht => hs.strings t (List.take_subset_take_left _ (by omega) ht)⟩
      rw [Nat.min_eq_left hwords, List.drop_eq_nil_of_le hargv.le,
        List.drop_eq_nil_of_le (by omega)]
      cases (tokens [32] str)[argCountMax]? with
      | none => rw [Option.map_none, tokenizeLoop]
      | some t => rw [Option.map_some, tokenizeLoop, if_neg (Nat.lt_irrefl _)]
  | succ m ih =>
      cases ht : (tokens [32] str)[n]? with
      | none =>
          obtain rfl : n = (tokens [32] str).length :=
            Nat.le_antisymm hwords (List.getElem?_eq_none_iff.mp ht)
          refine ⟨s, ?_, fun t ht => hs.strings t ?_⟩
          · rw [Option.map_none, tokenizeLoop, Nat.min_eq_right hn, List.take_length,
              List.take_of_length_le hn]
          · rw [List.take_of_length_le (by omega)]
            exact List.mem_of_mem_take ht
      | some t =>
          have hlt := (List.getElem?_eq_some_iff.mp ht).1
          obtain ⟨s', hstep, hs'⟩ := hs.step hstr
          rw [Option.map_some, tokenizeLoop, if_pos (by omega), if_pos (by simp; omega), hstep,
            set_map_take ht (by omega)]
          exact ih hs' (by omega) hlt (by omega)

/-- `tokenize_command` stores where the first ten words start, and counts them; they are strings in
what it leaves of the line. -/
theorem tokenizeCommand_words (hstr : 0 ∉ str) (rest : List UInt8) (last : Option Nat)
    (hargv : argv.length = argCountMax) :
    ∃ s, tokenizeCommand ⟨str ++ 0 :: rest, last⟩ argv =
        some (min argCountMax (tokens [32] str).length,
          ((tokens [32] str).take argCountMax).map Prod.fst ++
            argv.drop (tokens [32] str).length, s) ∧
      ∀ t ∈ (tokens [32] str).take argCountMax, HoldsString (s.text.drop t.1) t.2 := by
  obtain ⟨s, hcall, hs⟩ := strtokCall_splitting [32] hstr rest last 0
  obtain ⟨s', hloop, hs'⟩ := tokenizeLoop_words hstr hargv hs (Nat.zero_le _) (Nat.zero_le _)
  refine ⟨s', ?_, hs'⟩
  rw [tokenizeCommand, show strtok ⟨str ++ 0 :: rest, last⟩ (some 0) [32] = _ from hcall]
  exact hloop

/-- **`strtok` splits exactly.**  On a string of any content, whatever `last` was and whatever bytes
follow the terminator: the tokens are the maximal runs of characters that are no delimiters, from
left to right.  The `k`-th call returns where the `k`-th of them starts, and NULL if there is none;
the tokens returned so far are strings at their places, and the bytes changed so far are delimiters
that follow one of them.  No byte after the terminator is looked at or changed: there may be none,
and reading one that is not there is a fault.  `tokenize_command` stores where the first ten words
start, and counts them. -/
theorem strtok_splits {str : List UInt8} (hstr : 0 ∉ str) (rest : List UInt8) (last : Option Nat) :
    (∀ delimiters, (tokens delimiters str).Pairwise (fun t u => t.1 < u.1) ∧
      (∀ i w, (i, w) ∈ tokens delimiters str ↔ MaximalRun (isDelimiter delimiters) str i w) ∧
      ∀ k, ∃ s, strtokCall ⟨str ++ 0 :: rest, last⟩ delimiters k =
          some ((tokens delimiters str)[k]?.map Prod.fst, s) ∧
        (∀ t ∈ (tokens delimiters str).take (k + 1), HoldsString (s.text.drop t.1) t.2) ∧
        ∀ x, s.text[x]? = (str ++ 0 :: rest)[x]? ∨ s.text[x]? = some 0 ∧
          (∃ t ∈ (tokens delimiters str).take (k + 1), x = t.1 + t.2.length) ∧
          ∃ c ∈ delimiters, str[x]? = some c) ∧
    ∀ argv, argv.length = argCountMax →
      ∃ s, tokenizeCommand ⟨str ++ 0 :: rest, last⟩ argv =
          some (min argCountMax (tokens [32] str).length,
            ((tokens [32] str).take argCountMax).map Prod.fst ++
              argv.drop (tokens [32] str).length, s) ∧
        ∀ t ∈ (tokens [32] str).take argCountMax, HoldsString (s.text.drop t.1) t.2 := by
  refine ⟨fun delimiters => ⟨runs_increasing, fun i w => mem_runs, fun k => ?_⟩, ?_⟩
  · obtain ⟨s, hcall, hs⟩ := strtokCall_splitting delimiters hstr rest last k
    exact ⟨s, hcall, hs.strings, hs.changed⟩
  · intro argv hargv
    exact tokenizeCommand_words hstr rest last hargv

/-- The hypothesis is satisfiable: blanks before, between and after two words. -/
theorem strtok_splits_two_words :
    tokens [32] [32, 97, 98, 32, 32, 99, 32] = [(1, [97, 98]), (5, [99])] ∧
      (∃ s, strtokCall ⟨[32, 97, 98, 32, 32, 99, 32, 0], some 3⟩ [32] 1 = some (some 5, s)) ∧
      (∃ s, strtokCall ⟨[32, 97, 98, 32, 32, 99, 32, 0], some 3⟩ [32] 2 = some (none, s)) ∧
      ∃ s, tokenizeCommand ⟨[32, 97, 98, 32, 32, 99, 32, 0], some 3⟩ (List.replicate 10 0) =
        some (2, [1, 5, 0, 0, 0, 0, 0, 0, 0, 0], s) := by
  obtain ⟨hcalls, hcommand⟩ := strtok_splits
    (show 0 ∉ ([32, 97, 98, 32, 32, 99, 32] : List UInt8) by decide) [] (some 3)
  have htokens : tokens [32] [32, 97, 98, 32, 32, 99, 32] = [(1, [97, 98]), (5, [99])] := by
    decide
  obtain ⟨-, -, hcall⟩ := hcalls [32]
  obtain ⟨s₁, h₁, -⟩ := hcall 1
  obtain ⟨s₂, h₂, -⟩ := hcall 2
  obtain ⟨s₃, h₃, -⟩ := hcommand (List.replicate 10 0) rfl
  rw [htokens] at h₁ h₂ h₃
  exact ⟨htokens, ⟨s₁, h₁⟩, ⟨s₂, h₂⟩, s₃, h₃⟩

/-! ### Dispatch -/

/-- The functions that a `command_handler` points to. -/
inductive Handler
  | monHelp
  | monBacktrace
  | monHextee
  | monKerninfo
  | monStatus
  | monExecute
  deriving DecidableEq

/-- `struct Command`, with the name as it lies in memory. -/
structure Command where
  name : List UInt8
  handler : Handler

/-- The table `commands`. -/
def commands : List Command :=
  [ -- help
    ⟨[104, 101, 108, 112, 0], .monHelp⟩,
    -- backtrace
    ⟨[98, 97, 99, 107, 116, 114, 97, 99, 101, 0], .monBacktrace⟩,
    -- hextee
    ⟨[104, 101, 120, 116, 101, 101, 0], .monHextee⟩,
    -- kerninfo
    ⟨[107, 101, 114, 110, 105, 110, 102, 111, 0], .monKerninfo⟩,
    -- status
    ⟨[115, 116, 97, 116, 117, 115, 0], .monStatus⟩,
    -- execute
    ⟨[101, 120, 101, 99, 117, 116, 101, 0], .monExecute⟩]

/-- The loop of `get_command_handler`. -/
def getCommandHandlerLoop (commandName : List UInt8) : List Command → Option (Option Handler)
  | [] => some none
  | command :: rest => do
      if (← strcmp command.name commandName) = 0 then return some command.handler
      else getCommandHandlerLoop commandName rest

/-- `get_command_handler(command_name)`. -/
def getCommandHandler (commandName : List UInt8) : Option (Option Handler) :=
  getCommandHandlerLoop commandName commands

/-- What `monitor` does with a line. -/
inductive Response
  | next
  | notFound
  | call (handler : Handler) (argc : Nat) (argv : List Nat)

/-- The loop of `monitor`, from the line that `kgets` has read on. -/
def monitorLine (s : Strtok) (argv : List Nat) : Option (Response × Strtok) := do
  let (argc, argv, s) ← tokenizeCommand s argv
  if argc = 0 then return (.next, s)
  else
    match ← getCommandHandler (s.text.drop (← argv[0]?)) with
    | none => return (.notFound, s)
    | some handler => return (.call handler argc argv, s)

theorem getCommandHandlerLoop_eq {array word : List UInt8} (h : HoldsString array word)
    {table : List Command} (ht : ∀ command ∈ table, 0 ∈ command.name) :
    getCommandHandlerLoop array table =
      some ((table.find? (cstring ·.name = word)).map Command.handler) := by
  induction table with
  | nil => rfl
  | cons command table ih =>
      obtain ⟨hname, ht'⟩ := List.forall_mem_cons.mp ht
      obtain ⟨r, hcmp, hiff⟩ := (holdsString_cstring hname).strcmp h
      rw [getCommandHandlerLoop, hcmp, List.find?_cons]
      by_cases hword : cstring command.name = word
      · simp [hiff.mpr hword, hword]
      · simp [mt hiff.mp hword, hword, ih ht']

/-- The function found is the one with the name; the names are all different. -/
theorem getCommandHandler_eq_some {array word : List UInt8} (h : HoldsString array word) :
    ∃ found, getCommandHandler array = some found ∧ ∀ handler, found = some handler ↔
      ∃ command ∈ commands, cstring command.name = word ∧ command.handler = handler := by
  have hnames : (commands.map (cstring ·.name)).Nodup := by decide
  refine ⟨_, getCommandHandlerLoop_eq h (by decide), fun handler => ?_⟩
  rw [Option.map_eq_some_iff]
  constructor
  · rintro ⟨command, hfind, hhandler⟩
    exact ⟨command, List.mem_of_find?_eq_some hfind,
      by simpa using List.find?_some hfind, hhandler⟩
  · rintro ⟨command, hmem, hword, hhandler⟩
    refine ⟨command, ?_, hhandler⟩
    cases hfind : commands.find? (cstring ·.name = word) with
    | none =>
        have := List.find?_eq_none.mp hfind command hmem
        simp [hword] at this
    | some found =>
        have hfound : cstring found.name = word := by simpa using List.find?_some hfind
        have heq := List.inj_on_of_nodup_map hnames (List.mem_of_find?_eq_some hfind) hmem
          (hfound.trans hword.symm)
        rw [heq]

/-- A line with words: the first one is looked up. -/
theorem monitorLine_of_word {s' : Strtok} {argc p : Nat} {argv' : List Nat} {found : Option Handler}
    (h : tokenizeCommand s argv = some (argc, argv', s')) (hargc : argc ≠ 0)
    (hp : argv'[0]? = some p) (hget : getCommandHandler (s'.text.drop p) = some found) :
    monitorLine s argv = some (found.elim .notFound (.call · argc argv'), s') := by
  rw [monitorLine, h]
  simp only [Option.bind_eq_bind, Option.bind_some, if_neg hargc, hp, hget]
  cases found <;> rfl

/-- **The monitor calls the command that the first word names.**  For a line of any content: without
a word nothing is called; with one, a function is called if and only if the first word is its name
in `commands`, with the number of words, at most ten, and an `argv` whose entries point to them. -/
theorem monitorLine_calls (hstr : 0 ∉ str) (rest : List UInt8) (last : Option Nat)
    (hargv : argv.length = argCountMax) :
    ∃ response s, monitorLine ⟨str ++ 0 :: rest, last⟩ argv = some (response, s) ∧
      (∀ t ∈ (tokens [32] str).take argCountMax, HoldsString (s.text.drop t.1) t.2) ∧
      (response = .next ↔ tokens [32] str = []) ∧
      ∀ handler argc argv', response = .call handler argc argv' ↔
        (∃ t ∈ (tokens [32] str).head?, ∃ command ∈ commands,
          cstring command.name = t.2 ∧ command.handler = handler) ∧
        argc = min argCountMax (tokens [32] str).length ∧
        argv' = ((tokens [32] str).take argCountMax).map Prod.fst ++
          argv.drop (tokens [32] str).length := by
  obtain ⟨s, htokenize, hstrings⟩ := tokenizeCommand_words hstr rest last hargv
  cases htokens : tokens [32] str with
  | nil =>
      rw [htokens] at htokenize
      refine ⟨.next, s, ?_, by simp, by simp, by simp⟩
      rw [monitorLine, htokenize]
      rfl
  | cons t words =>
      rw [htokens] at htokenize hstrings
      obtain ⟨found, hget, hfound⟩ := getCommandHandler_eq_some (hstrings t List.mem_cons_self)
      have hline := monitorLine_of_word htokenize (by simp [argCountMax]) rfl hget
      refine ⟨_, s, hline, hstrings, ?_, fun handler argc argv' => ?_⟩
      · cases found <;> simp
      · have hhead : (∃ u ∈ (t :: words).head?, ∃ command ∈ commands,
            cstring command.name = u.2 ∧ command.handler = handler) ↔ found = some handler := by
          rw [hfound, List.head?_cons]
          simp
        rw [hhead]
        cases found with
        | none => simp
        | some handler' => simp [eq_comm]

end Arunos
