import Arunos.User.Shell

/-!
# User — Children — the programs wait for their own children

`children h` are the numbers that the calls of `fork` in a history have returned to the process
itself: a `fork` that returns 0 makes it a new process, without children.  A program is `Tame` if it
always comes to its next call and waits only for numbers of its children, or for none that is
positive, which `wait` ignores.

All the programs of `user/` are tame.  The shell that is nobody's child moreover never exits and
never becomes another program.
-/

namespace Arunos

namespace User

open Interactive

variable {h h' : List (Request × Int)} {r : Request}

/-- The numbers of the children of a process with this history. -/
def children (h : List (Request × Int)) : List Int :=
  h.foldl (fun l p => if p.1 = .fork then if p.2 = 0 then [] else p.2 :: l else l) []

/-- A `fork` adds a child to the parent, and the child of it has none. -/
theorem children_fork (h : List (Request × Int)) (pid : Int) :
    children (h ++ [(.fork, pid)]) = if pid = 0 then [] else pid :: children h := by
  simp [children, List.foldl_append]

/-- No other call changes the children. -/
theorem children_concat (hr : r ≠ .fork) (a : Int) : children (h ++ [(r, a)]) = children h := by
  simp [children, List.foldl_append, hr]

theorem Printed.children (hh : Printed h h') : children h' = children h := by
  obtain ⟨out, rfl⟩ := hh
  induction out using List.reverseRecOn with
  | nil => simp
  | append_singleton out p ih =>
      rw [List.map_append, ← List.append_assoc]
      exact (children_concat (by simp) p.2).trans ih

/-- The calls for the console do not matter. -/
theorem children_calls (h : List (Request × Int)) : children (calls h) = children h := by
  induction h using List.reverseRecOn with
  | nil => rfl
  | append_singleton h p ih =>
      obtain ⟨r, a⟩ := p
      cases hr : r.console with
      | true =>
          rw [calls_console hr, ih, children_concat (by rintro rfl; cases hr)]
      | false =>
          rw [calls_concat hr]
          by_cases hfork : r = .fork
          · subst hfork
            rw [children_fork, children_fork, ih]
          · rw [children_concat hfork, children_concat hfork, ih]

/-- A call of `wait` is for a child. -/
def MayWait (h : List (Request × Int)) (r : Request) : Prop :=
  ∀ id, r = .wait id → id ≤ 0 ∨ id ∈ children h

/-- The program always comes to a call or to its end, and waits for its children alone. -/
def Tame (x : User Unit) : Prop := Obeys MayWait [] x fun _ _ => True

/-- Only `wait` is restricted. -/
theorem mayWait (hr : ∀ id, r ≠ .wait id) : MayWait h r := fun id he => absurd he (hr id)

/-- A call other than `wait`, then the rest of the program. -/
theorem obeys_call {α : Type} {f : Int → User α} {Q : α → List (Request × Int) → Prop}
    (hr : ∀ id, r ≠ .wait id) (hf : ∀ a, Obeys MayWait (h ++ [(r, a)]) (f a) Q) :
    Obeys MayWait h (ask r >>= f) Q :=
  obeys_bind (obeys_ask (mayWait hr) hf)

theorem obeys_exit (code : Int) : Obeys MayWait h (exit code) fun _ _ => True :=
  obeys_call (by simp) fun _ => obeys_pure trivial

/-- A program that prints, then goes on. -/
theorem obeys_say {α : Type} {f : Int32 → User α} {Q : α → List (Request × Int) → Prop} (s : String)
    (ds : List Directive) {ap : List Argument} (hs : Format s ds) (hm : Matches ds ap)
    (hf : ∀ n h', Printed h h' → Obeys MayWait h' (f n) Q) :
    Obeys MayWait h (printf (literal s) ap >>= f) Q :=
  obeys_bind ((obeys_format s hs hm fun _ _ _ => mayWait (by simp)).mono hf)

/-! ### The programs -/

/-- `ex_test` waits for the child it has created, and the child waits for nobody. -/
theorem tame_exTest : Tame exTest := by
  refine obeys_call (by simp) fun pid => ?_
  have hbranch : Obeys MayWait [(.fork, pid)] (if pid = 0 then do
      let _ ← printf (literal "starting hi_test ...\n") []
      let _ ← exec (literal "hi_test")
    else do
      let _ ← printf (literal "message from parent.\n") []
      wait pid : User Unit) fun _ _ => True := by
    by_cases hzero : pid = 0
    · rw [if_pos hzero]
      refine obeys_say _ [] (by decide +kernel) (.nil _) fun _ h' _ => ?_
      exact obeys_call (by simp) fun _ => obeys_pure trivial
    · rw [if_neg hzero]
      refine obeys_say _ [] (by decide +kernel) (.nil _) fun _ h' hh => ?_
      refine obeys_bind (obeys_ask ?_ fun _ => obeys_pure trivial)
      rintro id ⟨⟩
      have hchild := children_fork [] pid
      rw [if_neg hzero, List.nil_append, ← hh.children] at hchild
      exact .inr (hchild ▸ List.mem_cons_self)
  exact obeys_bind (hbranch.mono fun _ _ _ => obeys_exit 0)

/-- The rounds of `co_test` wait for nobody, by induction on their number. -/
theorem obeys_coRounds (n : Nat) (i : Int) :
    Obeys MayWait h (coRounds n i) fun _ _ => True := by
  induction n generalizing i h with
  | zero => exact obeys_pure trivial
  | succ n ih =>
      refine obeys_call (by simp) fun pid => ?_
      exact obeys_say _ [.decimal, .decimal] (by decide +kernel)
        (.takes trivial (.takes trivial (.nil _))) fun _ _ _ => ih (i + 1)

theorem tame_coTest : Tame coTest :=
  obeys_call (by simp) fun _ => obeys_bind ((obeys_coRounds 50000 0).mono fun _ _ _ => obeys_exit 0)

theorem tame_fkTest : Tame fkTest := by
  refine obeys_call (by simp) fun forkResult => obeys_call (by simp) fun pid => ?_
  exact obeys_say _ [.decimal, .decimal] (by decide +kernel)
    (.takes trivial (.takes trivial (.nil _))) fun _ _ _ => obeys_exit 0

theorem tame_hiTest (s : Vector UInt8 128) : Tame (hiTest s) := by
  have hello : ∀ t, 0 ∈ literal t := fun t => List.mem_append_right _ List.mem_cons_self
  refine obeys_say _ [.string, .string, .decimal] (by decide +kernel)
    (.takes (hello _) (.takes (hello _) (.takes trivial (.nil _)))) fun _ h₁ hp₁ => ?_
  refine obeys_say _ [] (by decide +kernel) (.nil _) fun _ h₂ hp₂ => ?_
  have hidle : (typing h₂).line = [] := by rw [hp₂.typing, hp₁.typing]; rfl
  refine obeys_bind ((obeys_gets s.length_toList hidle (fun _ _ _ _ hr => mayWait ?_)
    fun _ _ _ _ => mayWait (by simp)).mono ?_)
  · rintro id rfl
    cases hr
  rintro s' h₃ ⟨line, -, hstring, -⟩
  exact obeys_say _ [.string] (by decide +kernel) (.takes hstring.terminated (.nil _))
    fun _ _ _ => obeys_exit 0

/-! ### The shell -/

/-- The shell waits for a child only right after the `fork` that has created it. -/
theorem shellNext_wait {line : List UInt8} {done : List (Request × Int)} {id : Int}
    (hr : shellNext line done = some (.wait id)) : id ≠ 0 ∧ done = [(.fork, id)] := by
  unfold shellNext at hr
  split at hr
  · split at hr
    · cases hr
    · split at hr <;> cases hr
  · split at hr
    · cases hr
    next hzero =>
      split at hr
      · cases hr
      · cases hr
        exact ⟨hzero, rfl⟩
  · cases hr
  · cases hr

/-- The shell ends or becomes another program only where a `fork` has returned 0. -/
theorem shellNext_leaves {line : List UInt8} {done : List (Request × Int)}
    (hbegun : Begun line done) (hr : shellNext line done = some r)
    (hleave : (∃ code, r = .exit code) ∨ ∃ name, r = .exec name) : (.fork, 0) ∈ done := by
  unfold shellNext at hr
  split at hr
  · split at hr
    · cases hr
    · split at hr <;> cases hr <;> simp at hleave
  · split at hr
    next hzero => exact hzero ▸ List.mem_cons_self
    · split at hr <;> cases hr
      simp at hleave
  next pid name a =>
    -- the call of `exec` was made because the `fork` before it had returned 0
    generalize hd : [(Request.fork, pid), (Request.exec name, a)] = done at hbegun
    cases hbegun with
    | nil => cases hd
    | @concat done r hb hnext b =>
        have hd' : [(Request.fork, pid)] ++ [(Request.exec name, a)] = done ++ [(r, b)] := hd
        obtain ⟨rfl, he⟩ := List.append_inj' hd' rfl
        cases he
        rw [shellNext] at hnext
        split at hnext
        next hzero => exact hzero ▸ List.mem_cons_self
        · split at hnext <;> cases hnext
  · cases hr

/-- What the shell does for the lines typed waits for its own children alone. -/
theorem ShellMay.mayWait (hm : ShellMay h r) : MayWait h r := by
  rintro id rfl
  right
  rw [← children_calls]
  unfold ShellMay at hm
  generalize typedLines h = lines, calls h = cs at hm
  cases hm with
  | reading hdone hr => cases hr
  | executing hdone hline hr =>
      rcases hr with ⟨c, hr⟩ | hr
      · cases hr
      · obtain ⟨hzero, rfl⟩ := shellNext_wait hr
        rw [children_fork, if_neg hzero]
        exact List.mem_cons_self

/-- The shell waits for its own children alone, whatever is typed. -/
theorem tame_shell (command : Vector UInt8 128) : Tame (shell command) :=
  ((obeys_shell command).weaken fun _ _ hm => hm.mayWait).mono fun _ _ ha => ha.elim

/-- The shell that is nobody's child stays the shell. -/
theorem ShellMay.stays (hm : ShellMay h r) (hfork : (.fork, 0) ∉ h) :
    (∀ code, r ≠ .exit code) ∧ ∀ name, r ≠ .exec name := by
  have hnot : ¬((∃ code, r = .exit code) ∨ ∃ name, r = .exec name) := by
    intro hleave
    have hcalls : (.fork, 0) ∉ calls h := fun hmem => hfork (List.mem_of_mem_filter hmem)
    unfold ShellMay at hm
    generalize typedLines h = lines, calls h = cs at hm hcalls
    cases hm with
    | reading hdone hr => rcases hleave with ⟨code, rfl⟩ | ⟨name, rfl⟩ <;> cases hr
    | executing hdone hline hr =>
        rcases hr with ⟨c, rfl⟩ | hr
        · simp at hleave
        · exact hcalls (List.mem_append_right _ (shellNext_leaves hline hr hleave))
  exact ⟨fun code he => hnot (.inl ⟨code, he⟩), fun name he => hnot (.inr ⟨name, he⟩)⟩

end User

end Arunos
