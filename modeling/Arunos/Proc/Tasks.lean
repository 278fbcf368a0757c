import Arunos.Proc.Syscall
import Arunos.Support.WaitFor

/-!
# Proc — Tasks — what the process subsystem is for

`Tasks` is the abstract state: which slots have a process and whether it is ready or waits for
another one, which process runs, and where the round-robin search stands.  The operations are the
moves of a wait-for table followed by a search for the next ready process.  Nothing of memory,
pages or files is left: a `fork` fails only for lack of a slot, and an `exec` changes nothing here.

`Tasks.Answers` says what each system call does at this level; `Tasks.moveOf` is its move.
-/

namespace Arunos

/-- The abstract state of the process subsystem. -/
structure Tasks where
  table : Table (Fin 10)
  current : Option (Fin 10)
  round : Fin 10

/-- The first of the `n` slots after `r` with `p`. -/
def nextFrom (p : Fin 10 → Bool) : Nat → Fin 10 → Option (Fin 10)
  | 0, _ => none
  | n + 1, r => if p (r + 1) then some (r + 1) else nextFrom p n (r + 1)

theorem nextFrom_some {p : Fin 10 → Bool} {n : Nat} {r d : Fin 10} (h : nextFrom p n r = some d) :
    p d = true := by
  induction n generalizing r with
  | zero => cases h
  | succ n ih =>
      rw [nextFrom] at h
      split at h
      · cases h
        assumption
      · exact ih h

/-- A search without success has tried every slot it passed. -/
theorem nextFrom_none {p : Fin 10 → Bool} {n : Nat} {r : Fin 10} (h : nextFrom p n r = none)
    {m : Nat} (hm : m < n) : p (r + Fin.ofNat 10 (m + 1)) = false := by
  induction n generalizing r m with
  | zero => omega
  | succ n ih =>
      rw [nextFrom] at h
      split at h
      · cases h
      next hp =>
        cases m with
        | zero => exact Bool.eq_false_iff.mpr hp
        | succ m =>
            have e : r + Fin.ofNat 10 (m + 1 + 1) = r + 1 + Fin.ofNat 10 (m + 1) := by
              ext
              simp only [Fin.ofNat, Fin.val_add, Fin.val_one]
              omega
            rw [e]
            exact ih h (by omega)

namespace Tasks

variable {a a' : Tasks} {c d : Fin 10}

/-- The next ready process after the one chosen last. -/
def next (a : Tasks) : Option (Fin 10) :=
  nextFrom (fun d => a.table d = some .ready) 10 a.round

theorem next_some (h : a.next = some d) : a.table d = some .ready := by
  simpa using nextFrom_some h

theorem next_none (h : a.next = none) (d : Fin 10) : a.table d ≠ some .ready := by
  have hd : a.round + Fin.ofNat 10 ((d - a.round - 1).val + 1) = d := by
    have := a.round.isLt
    have := d.isLt
    ext
    simp only [Fin.ofNat, Fin.val_add, Fin.val_sub, Fin.val_one]
    omega
  have := nextFrom_none h (d - a.round - 1).isLt
  rw [hd] at this
  simpa using this

/-- The next ready process runs; without one it is over. -/
def schedule (a : Tasks) : Tasks × Outcome :=
  match a.next with
  | some d => ({ a with current := some d, round := d }, .resume)
  | none => (a, .panic)

/-- The table changes. -/
def move (a : Tasks) (m : Move (Fin 10)) : Tasks := { a with table := m.apply a.table }

/-- The lowest empty slot. -/
def firstFree (a : Tasks) : Option (Fin 10) :=
  (List.finRange 10).find? fun i => a.table i = none

theorem firstFree_some (h : a.firstFree = some c) : a.table c = none := by
  simpa using List.find?_some h

/-- A child gets the lowest empty slot. -/
def fork (a : Tasks) : Tasks × Outcome :=
  match a.firstFree with
  | some i => (a.move (.create i), .ret (i.val + 1))
  | none => (a, .ret (-1))

/-- The process ends, and the next one runs. -/
def exit (a : Tasks) (c : Fin 10) : Tasks × Outcome :=
  { a.move (.exit c) with current := none }.schedule

/-- The process waits for the one with number `pid`, if there is one. -/
def wait (a : Tasks) (c : Fin 10) (pid : Int) : Tasks × Outcome :=
  match procGet pid with
  | some d => if a.table d ≠ none then (a.move (.wait c d)).schedule else (a, .ret 0)
  | none => (a, .ret 0)

/-- What a system call of the process in `c` does. -/
def Answers (a : Tasks) (c : Fin 10) (code arg1 : Nat) (a' : Tasks) (out : Outcome) : Prop :=
  match code with
  | 2 => (a', out) = a.exit c
  | 4 => (a', out) = a.fork
  | 5 => a' = a ∧ (out = .ret (-1) ∨ out = .resume)
  | 6 => (a', out) = a.schedule
  | 7 => (a', out) = a.wait c (signed arg1)
  | _ => a' = a ∧ ∃ r, out = .ret r

/-- The move of a system call of the process in `c`. -/
def moveOf (a : Tasks) (c : Fin 10) (code arg1 : Nat) : Move (Fin 10) :=
  match code with
  | 2 => .exit c
  | 4 => match a.firstFree with
    | some i => .create i
    | none => .stay
  | 7 => match procGet (signed arg1) with
    | some d => if a.table d ≠ none then .wait c d else .stay
    | none => .stay
  | _ => .stay

theorem schedule_table : a.schedule.1.table = a.table := by
  unfold schedule
  split <;> rfl

theorem moveOf_legal (hc : a.table c = some .ready) (code arg1 : Nat) :
    (a.moveOf c code arg1).Legal a.table := by
  unfold moveOf
  split
  · exact hc
  · split
    · exact firstFree_some ‹_›
    · trivial
  · split
    · split
      · exact ⟨hc, ‹_›⟩
      · trivial
    · trivial
  · trivial

theorem moveOf_eq_exit {code arg1 : Nat} :
    a.moveOf c code arg1 = .exit d ↔ code = 2 ∧ c = d := by
  unfold moveOf
  split
  · simp
  · split <;> simp
  · split
    · split <;> simp
    · simp
  · refine ⟨by simp, ?_⟩
    rintro ⟨rfl, -⟩
    contradiction

theorem moveOf_eq_wait {code arg1 : Nat} {x : Fin 10} (h : a.moveOf c code arg1 = .wait x d) :
    code = 7 ∧ c = x ∧ procGet (signed arg1) = some d := by
  unfold moveOf at h
  split at h
  · cases h
  · split at h <;> cases h
  · split at h
    next hp =>
      split at h
      · cases h
        exact ⟨rfl, rfl, hp⟩
      · cases h
    · cases h
  · cases h

theorem fork_table (c : Fin 10) (arg1 : Nat) :
    a.fork.1.table = (a.moveOf c 4 arg1).apply a.table := by
  rw [fork, moveOf]
  cases a.firstFree <;> rfl

theorem wait_table {arg1 : Nat} :
    (a.wait c (signed arg1)).1.table = (a.moveOf c 7 arg1).apply a.table := by
  rw [wait, moveOf]
  cases procGet (signed arg1) with
  | none => rfl
  | some d =>
      dsimp only
      split
      · exact schedule_table
      · rfl

/-- A system call changes the table by its move. -/
theorem Answers.table {code arg1 : Nat} {out : Outcome} (h : a.Answers c code arg1 a' out) :
    a'.table = (a.moveOf c code arg1).apply a.table := by
  have hfst : ∀ {x : Tasks × Outcome}, (a', out) = x → a'.table = x.1.table := fun e =>
    congrArg (fun x => x.1.table) e
  unfold Answers at h
  split at h
  · exact (hfst h).trans schedule_table
  · exact (hfst h).trans (fork_table c arg1)
  · exact congrArg Tasks.table h.1
  · exact (hfst h).trans schedule_table
  · exact (hfst h).trans wait_table
  · unfold moveOf
    split
    all_goals first | exact congrArg Tasks.table h.1 | contradiction

/-- A process is created by `fork`, which returns its number. -/
theorem Answers.born {code arg1 : Nat} {out : Outcome} (h : a.Answers c code arg1 a' out)
    (hc : a.table c = some .ready) {i : Fin 10} (hi : a.table i = none) (hi' : a'.table i ≠ none) :
    out = .ret (i.val + 1) := by
  have htab := h.table
  have hmove := Move.eq_create (moveOf_legal hc code arg1) hi (htab ▸ hi')
  unfold moveOf at hmove
  split at hmove
  case h_2 =>
    split at hmove
    next j hj =>
      cases hmove
      have hout := congrArg Prod.snd (show (a', out) = a.fork from h)
      rwa [fork, hj] at hout
    · cases hmove
  case h_3 =>
    split at hmove
    · split at hmove <;> cases hmove
    · cases hmove
  all_goals cases hmove

end Tasks

end Arunos
