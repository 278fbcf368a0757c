import Arunos.User.Library

/-!
# User — Shell — the shell does what is typed

For the shell the lines typed and the calls made agree at every point of every run
(`shell_runs_lines`).  Each line makes it list the directory, or create a child and wait for it, or
do nothing, and in the child makes it start the program with the name typed; it does so in the order
of the lines, and it reads on only when it is done with a line.
-/

namespace Arunos

namespace User

open Interactive

variable {h h' : List (Request × Int)}

/-! ### The shell -/

/-- The bytes of a line. -/
def lineBytes (line : List Int) : List UInt8 := line.map toChar

/-- What the shell asks next for a line, when it has done the calls `done` for it. -/
def shellNext (line : List UInt8) : List (Request × Int) → Option Request
  | [] =>
      if line = [] then none
      else if line = [108, 115] ∨ line = [100, 105, 114] then some .dir
      else some .fork
  | [(.fork, pid)] =>
      if pid = 0 then some (.exec line) else if pid < 0 then none else some (.wait pid)
  | [(.fork, _), (.exec _, _)] => some (.exit 1)
  | _ => none

/-- The calls `done` are the beginning of what the shell does for a line. -/
inductive Begun (line : List UInt8) : List (Request × Int) → Prop
  | nil : Begun line []
  | concat {done : List (Request × Int)} {r : Request} (hd : Begun line done)
      (hr : shellNext line done = some r) (a : Int) : Begun line (done ++ [(r, a)])

/-- The calls `done` are all the shell does for a line. -/
def Done (line : List UInt8) (done : List (Request × Int)) : Prop :=
  Begun line done ∧ shellNext line done = none

/-- The shell has done the calls `cmds` for the lines `lines` and stands at the request `r`. -/
inductive ShellAt : List (List UInt8) → List (Request × Int) → Request → Prop
  | reading {lines : List (List UInt8)} {css : List (List (Request × Int))} {r : Request}
      (hdone : List.Forall₂ Done lines css) (hr : r.console = true) :
      ShellAt lines css.flatten r
  | executing {lines : List (List UInt8)} {css : List (List (Request × Int))} {line : List UInt8}
      {done : List (Request × Int)} {r : Request} (hdone : List.Forall₂ Done lines css)
      (hline : Begun line done) (hr : (∃ c, r = .putch c) ∨ shellNext line done = some r) :
      ShellAt (lines ++ [line]) (css.flatten ++ done) r

/-- The lines typed in a history. -/
def typedLines (h : List (Request × Int)) : List (List UInt8) := (typing h).lines.map lineBytes

/-- The request is one that the shell makes at this point of its history. -/
def ShellMay (h : List (Request × Int)) (r : Request) : Prop := ShellAt (typedLines h) (calls h) r

/-- The shell is done with all the lines typed. -/
structure Rests (h : List (Request × Int)) : Prop where
  idle : (typing h).line = []
  done : ∃ css, List.Forall₂ Done (typedLines h) css ∧ calls h = css.flatten

/-- The shell is done with all the lines typed but the last, for which it has done `done`. -/
structure Executing (n : Nat) (line : List UInt8) (done : List (Request × Int))
    (h : List (Request × Int)) : Prop where
  idle : (typing h).line = []
  length : (typing h).lines.length = n + 1
  before : ∃ lines css, List.Forall₂ Done lines css ∧ typedLines h = lines ++ [line] ∧
    calls h = css.flatten ++ done
  begun : Begun line done

section Executing

variable {n : Nat} {line : List UInt8} {done : List (Request × Int)} {r : Request}

theorem typedLines_congr (hh : typing h' = typing h) : typedLines h' = typedLines h :=
  congrArg (fun t : Typing => t.lines.map lineBytes) hh

/-- The shell still rests after it has printed. -/
theorem Rests.printed (hr : Rests h) (hh : Printed h h') : Rests h' := by
  obtain ⟨hidle, css, hdone, hcalls⟩ := hr
  refine ⟨hh.typing ▸ hidle, css, ?_, hh.calls.trans hcalls⟩
  rwa [typedLines_congr hh.typing]

/-- While a line is typed the shell may make any call for the console. -/
theorem Rests.typed {chars : List Int} (hr : Rests h) (ht : Typed h chars h')
    (hc : r.console = true) : ShellMay h' r := by
  obtain ⟨-, css, hdone, hcalls⟩ := hr
  have hlines : typedLines h' = typedLines h := by rw [typedLines, ht.typing, typedLines]
  rw [ShellMay, hlines, ht.calls, hcalls]
  exact .reading hdone hc

theorem Rests.console (hr : Rests h) (hc : r.console = true) : ShellMay h r := by
  have hnone : Typed h [] h := ⟨by rw [← hr.idle], rfl⟩
  exact hr.typed hnone hc

/-- A line that is ended is to be executed. -/
theorem Rests.entered {chars : List Int} (hr : Rests h) (ht : Entered h chars h') :
    Executing (typing h).lines.length (lineBytes chars) [] h' := by
  obtain ⟨-, css, hdone, hcalls⟩ := hr
  refine ⟨by rw [ht.typing], by rw [ht.typing]; simp, ⟨_, css, hdone, ?_, ?_⟩, .nil⟩
  · rw [typedLines, ht.typing, List.map_append]
    rfl
  · rw [ht.calls, hcalls, List.append_nil]

/-- What the shell does for a line is no call for the console. -/
theorem shellNext_console (hr : shellNext line done = some r) : r.console = false := by
  unfold shellNext at hr
  split at hr
  · split at hr
    · cases hr
    · split at hr <;> cases hr <;> rfl
  · split at hr
    · cases hr
      rfl
    · split at hr <;> cases hr
      rfl
  · cases hr
    rfl
  · cases hr

/-- While it executes a line the shell may print, and make the next call for the line. -/
theorem Executing.may (he : Executing n line done h)
    (hr : (∃ c, r = .putch c) ∨ shellNext line done = some r) : ShellMay h r := by
  obtain ⟨lines, css, hdone, hlines, hcalls⟩ := he.before
  rw [ShellMay, hlines, hcalls]
  exact .executing hdone he.begun hr

theorem Executing.printed (he : Executing n line done h) (hh : Printed h h') :
    Executing n line done h' := by
  obtain ⟨lines, css, hdone, hlines, hcalls⟩ := he.before
  refine ⟨hh.typing ▸ he.idle, hh.typing ▸ he.length, ⟨lines, css, hdone, ?_, ?_⟩, he.begun⟩
  · rw [typedLines_congr hh.typing, hlines]
  · rw [hh.calls, hcalls]

/-- One more call is done for the line. -/
theorem Executing.answer (he : Executing n line done h) (hr : shellNext line done = some r)
    (a : Int) : Executing n line (done ++ [(r, a)]) (h ++ [(r, a)]) := by
  obtain ⟨lines, css, hdone, hlines, hcalls⟩ := he.before
  have hconsole := shellNext_console hr
  have htyping : typing (h ++ [(r, a)]) = typing h :=
    typing_concat (by rintro rfl; cases hconsole) a
  refine ⟨htyping ▸ he.idle, htyping ▸ he.length, ⟨lines, css, hdone, ?_, ?_⟩,
    he.begun.concat hr a⟩
  · rw [typedLines_congr htyping, hlines]
  · rw [calls_concat hconsole, hcalls, List.append_assoc]

/-- A line with nothing left to do is done. -/
theorem Executing.rests (he : Executing n line done h) (hr : shellNext line done = none) :
    Rests h := by
  obtain ⟨lines, css, hdone, hlines, hcalls⟩ := he.before
  refine ⟨he.idle, css ++ [done], ?_, ?_⟩
  · rw [hlines]
    exact List.rel_append hdone (.cons ⟨he.begun, hr⟩ .nil)
  · rw [hcalls, List.flatten_append, List.flatten_singleton]

/-- The shell makes the next call for the line. -/
theorem Executing.ask (he : Executing n line done h) (hr : shellNext line done = some r) :
    Obeys ShellMay h (ask r) fun a h' => Executing n line (done ++ [(r, a)]) h' :=
  obeys_ask (he.may (.inr hr)) fun a => he.answer hr a

/-- Printing does nothing for the line. -/
theorem Executing.print (he : Executing n line done h) (s : String) (hs : Format s []) :
    Obeys ShellMay h (printf (literal s) []) fun _ h' => Executing n line done h' :=
  (obeys_print s hs fun _ hp c => (he.printed hp).may (.inl ⟨c, rfl⟩)).mono fun _ _ hp =>
    he.printed hp

end Executing

theorem holdsString_literal (s : String) (hs : 0 ∉ bytes s) :
    HoldsString (literal s) (bytes s) := ⟨hs, [], rfl⟩

/-- The two comparisons find `ls` and `dir`. -/
theorem isListing_eq {command str : List UInt8} (hs : HoldsString command str) :
    isListing command = some (decide (str = [108, 115] ∨ str = [100, 105, 114])) := by
  obtain ⟨r, hr, hls⟩ := hs.strcmp (holdsString_literal "ls" (by decide))
  obtain ⟨r', hr', hdir⟩ := hs.strcmp (holdsString_literal "dir" (by decide))
  rw [show bytes "ls" = [108, 115] from rfl] at hls
  rw [show bytes "dir" = [100, 105, 114] from rfl] at hdir
  rw [isListing, hr, hr']
  by_cases hzero : r = 0
  · simp [hzero, hls.mp hzero]
  · have hne : str ≠ [108, 115] := fun he => hzero (hls.mpr he)
    simp [hzero, hne, hdir]

/-- A string is empty if and only if its array starts with NUL. -/
theorem head_eq_nul {command str : List UInt8} (hs : HoldsString command str) :
    command.head? = some 0 ↔ str = [] := by
  obtain ⟨hzero, rest, rfl⟩ := hs
  cases str with
  | nil => simp
  | cons c str => simpa using fun hc : c = 0 => hzero (hc ▸ List.mem_cons_self)

section Commands

variable {n : Nat} {line : List UInt8}

/-- For `ls` and `dir` the shell makes one call of `dir`. -/
theorem obeys_listDirectory (he : Executing n line [] h) (hline : shellNext line [] = some .dir) :
    Obeys ShellMay h listDirectory fun _ h' =>
      ∃ done, Executing n line done h' ∧ shellNext line done = none := by
  refine obeys_bind ((he.ask hline).mono fun a h₁ he₁ => ?_)
  by_cases ha : a < 0
  · rw [if_pos ha]
    refine obeys_bind ((he₁.print "Cannot list directory\n" (by decide +kernel)).mono
      fun _ _ he₂ => ?_)
    exact obeys_pure ⟨_, he₂, rfl⟩
  · rw [if_neg ha]
    exact obeys_pure ⟨_, he₁, rfl⟩

/-- The child starts the program and, if there is none, exits. -/
theorem obeys_runProgram {command : List UInt8} (he : Executing n line [(.fork, 0)] h)
    (hcommand : cstring command = line) :
    Obeys ShellMay h (runProgram command) fun _ h' =>
      ∃ done, Executing n line done h' ∧ shellNext line done = none := by
  have hexec : shellNext line [(.fork, 0)] = some (.exec (cstring command)) := by rw [hcommand]; rfl
  refine obeys_bind ((he.ask hexec).mono fun a h₁ he₁ => ?_)
  have hprint : Obeys ShellMay h₁ (if a < 0 then do
      let _ ← printf (literal "Command not found\n") []
    else pure () : User Unit) fun _ h' =>
      Executing n line [(.fork, 0), (.exec (cstring command), a)] h' := by
    by_cases ha : a < 0
    · rw [if_pos ha]
      exact obeys_bind ((he₁.print "Command not found\n" (by decide +kernel)).mono
        fun _ _ he₂ => obeys_pure he₂)
    · rw [if_neg ha]
      exact obeys_pure he₁
  refine obeys_bind (hprint.mono fun _ h₂ he₂ => ?_)
  exact obeys_bind ((he₂.ask (r := .exit 1) rfl).mono fun b h₃ he₃ => obeys_pure ⟨_, he₃, rfl⟩)

/-- For any other line the shell creates a child and waits for it. -/
theorem obeys_forkAndWait {command : List UInt8} (he : Executing n line [] h)
    (hline : shellNext line [] = some .fork) (hcommand : cstring command = line) :
    Obeys ShellMay h (forkAndWait command) fun _ h' =>
      ∃ done, Executing n line done h' ∧ shellNext line done = none := by
  refine obeys_bind ((he.ask hline).mono fun pid h₁ he₁ => ?_)
  have hnext : shellNext line [(.fork, pid)] =
      if pid = 0 then some (.exec line) else if pid < 0 then none else some (.wait pid) := rfl
  by_cases hzero : pid = 0
  · rw [if_pos hzero]
    subst hzero
    exact obeys_runProgram he₁ hcommand
  rw [if_neg hzero]
  rw [if_neg hzero] at hnext
  by_cases hneg : pid < 0
  · rw [if_pos hneg]
    rw [if_pos hneg] at hnext
    exact obeys_bind ((he₁.print "Cannot create process\n" (by decide +kernel)).mono
      fun _ _ he₂ => obeys_pure ⟨_, he₂, hnext⟩)
  · rw [if_neg hneg]
    rw [if_neg hneg] at hnext
    exact obeys_bind ((he₁.ask hnext).mono fun a h₂ he₂ => obeys_pure ⟨_, he₂, rfl⟩)

end Commands

/-- A round of the shell reads a line and does what is to be done for it. -/
theorem obeys_shellRound {command : List UInt8} (hlength : command.length = 128) (hh : Rests h) :
    Obeys ShellMay h (shellRound command) fun next h' => ∃ command', next = .inl command' ∧
      command'.length = 128 ∧ Rests h' ∧
      (typing h').lines.length = (typing h).lines.length + 1 := by
  have hprompt := obeys_print "$ " (by decide) fun _ hp c =>
    (hh.printed hp).console (r := .putch c) rfl
  refine obeys_bind (hprompt.mono fun _ h₁ hp => ?_)
  have hh₁ := hh.printed hp
  rw [← hp.typing]
  refine obeys_bind ((obeys_gets hlength hh₁.idle (fun _ _ _ ht hc => hh₁.typed ht hc)
    fun _ _ c ht => (hh₁.entered ht).may (.inl ⟨c, rfl⟩)).mono ?_)
  rintro command' h₂ ⟨chars, hentered, hstring, hlength'⟩
  have he := hh₁.entered hentered
  rw [← lineBytes] at hstring
  generalize lineBytes chars = line at hstring he
  by_cases hnil : line = []
  · rw [if_pos ((head_eq_nul hstring).mpr hnil)]
    exact obeys_pure ⟨command', rfl, hlength', he.rests (by rw [hnil]; rfl), he.length⟩
  rw [if_neg (mt (head_eq_nul hstring).mp hnil)]
  refine obeys_bind (obeys_orFault (isListing_eq hstring) ?_)
  have hdone : Obeys ShellMay h₂
      (if decide (line = [108, 115] ∨ line = [100, 105, 114]) = true then listDirectory
        else forkAndWait command') fun _ h' => ∃ done,
      Executing (typing h₁).lines.length line done h' ∧ shellNext line done = none := by
    by_cases hlist : line = [108, 115] ∨ line = [100, 105, 114]
    · rw [if_pos (decide_eq_true hlist)]
      exact obeys_listDirectory he (by rw [shellNext, if_neg hnil, if_pos hlist])
    · rw [if_neg (by simpa using hlist)]
      exact obeys_forkAndWait he (by rw [shellNext, if_neg hnil, if_neg hlist]) hstring.cstring_eq
  refine obeys_bind (hdone.mono ?_)
  rintro _ h₃ ⟨done, he₃, hnone⟩
  exact obeys_pure ⟨command', rfl, hlength', he₃.rests hnone, he₃.length⟩

/-- The shell does what is typed, round after round, and does not end. -/
theorem obeys_shell (command : Vector UInt8 128) :
    Obeys ShellMay [] (shell command) fun _ _ => False := by
  have hstart : Rests [] := ⟨rfl, [], .nil, rfl⟩
  have hbanner := fun (h' : List (Request × Int)) (hp : Printed [] h') c =>
    (hstart.printed hp).console (r := .putch c) rfl
  refine obeys_bind ((obeys_print shellBanner (by decide +kernel) hbanner).mono fun _ h₁ hp => ?_)
  refine obeys_loop (fun command h => command.length = 128 ∧ Rests h) ?_
    ⟨command.length_toList, hstart.printed hp⟩
  rintro command h ⟨hlength, hh⟩
  refine (obeys_shellRound hlength hh).extends.mono ?_
  rintro next h' ⟨⟨command', rfl, hlength', hh', hmore⟩, hpre⟩
  refine ⟨⟨hlength', hh'⟩, lt_of_le_of_ne hpre.length_le fun heq => ?_⟩
  -- the history has a line more
  rw [hpre.eq_of_length heq] at hmore
  omega

/-- **The shell does what is typed.**  Whatever is typed and whatever the system calls return, the
shell always stands at a request.  For each of the lines typed, in order, it has made the calls that
`shellNext` says, to the end; only for the last line they may be unfinished, and then the request is
the next of these calls or prints something. -/
theorem shell_runs_lines (command : Vector UInt8 128) (answers : List Int) :
    ∃ h r, (shell command).run answers = (h, .asks r) ∧ ShellAt (typedLines h) (calls h) r := by
  generalize hrun : (shell command).run answers = p
  cases hrun ▸ obeys_shell command answers with
  | asks hr => exact ⟨_, _, rfl, hr⟩
  | ended ha => exact ha.elim

end User

end Arunos
