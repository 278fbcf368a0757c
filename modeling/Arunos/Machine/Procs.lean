import Arunos.Machine.Step
import Arunos.User.Children

/-!
# Machine — Procs — the programs as a system of processes

A process is a program and the answers its system calls have had (`Session`), and the system is the
tasks of `Proc.Tasks` with a session in each used slot.  `Procs.call` is the meaning of a system
call at this level: what the caller is answered, and what becomes of the others.  There are no
registers and no memory; `code` says which program a file name stands for.

If all the programs are tame, nobody waits for an older process (`Procs.Ok.call`), so a process is
ready as long as there is any; with the shell of `user/shell.c` as the first program there always is
one (`procs_ready`).  `Machine.Sessions` proves that the machine runs programs in this way.
-/

namespace Arunos

open User

/-! ### Processes -/

/-- A program, and the answers its calls have had. -/
structure Session where
  program : User Unit
  answers : List Int

namespace Session

variable {s : Session} {r : Request}

/-- The calls of the process so far. -/
def history (s : Session) : List (Request × Int) := (s.program.run s.answers).1

/-- The next call of the process. -/
def request (s : Session) : Option Request :=
  match (s.program.run s.answers).2 with
  | .asks r => some r
  | _ => none

/-- The process after an answer to its call. -/
def answer (s : Session) (a : Int) : Session := { s with answers := s.answers ++ [a] }

theorem run_eq (hr : s.request = some r) : s.program.run s.answers = (s.history, .asks r) := by
  unfold request at hr
  split at hr
  next hasks =>
    cases hr
    exact Prod.ext rfl hasks
  · cases hr

theorem history_answer (hr : s.request = some r) (a : Int) :
    (s.answer a).history = s.history ++ [(r, a)] := Interactive.run_concat (run_eq hr) a

theorem history_start (program : User Unit) : (Session.mk program []).history = [] := by
  have hused := program.used []
  rw [List.prefix_nil] at hused
  exact List.map_eq_nil_iff.mp hused

end Session

/-! ### The system -/

/-- The tasks, and the process in each used slot. -/
structure Procs where
  tasks : Tasks
  session : Fin 10 → Option Session

namespace Procs

/-- The call of the process in `c` is answered. -/
def reply (p : Procs) (c : Fin 10) (s : Session) (a : Int) : Procs :=
  { p with session := Function.update p.session c (some (s.answer a)) }

variable (code : List UInt8 → Option (User Unit))

/-- A call of the process in `c`, with `key` as the key typed.  A caller that is made to wait finds
the number of the call where the result would be. -/
def call (p : Procs) (c : Fin 10) (s : Session) (key : Int) : Request → Procs
  | .putch _ => p.reply c s 0
  | .getch => p.reply c s (signed (word key))
  | .exit _ => ⟨(p.tasks.exit c).1, Function.update p.session c none⟩
  | .getpid => p.reply c s (c.val + 1)
  | .fork =>
      match p.tasks.firstFree with
      | some i =>
          reply ⟨p.tasks.fork.1, Function.update p.session i (some (s.answer 0))⟩ c s (i.val + 1)
      | none => p.reply c s (-1)
  | .exec name =>
      match (if name.length ≤ 12 then code name else none), p.tasks.firstFree with
      | some program, some _ =>
          { p with session := Function.update p.session c (some ⟨program, []⟩) }
      | _, _ => p.reply c s (-1)
  | .yield => { p.reply c s 6 with tasks := p.tasks.schedule.1 }
  | .wait id =>
      { p.reply c s (if (p.tasks.wait c id).2 = .ret 0 then 0 else 7) with
        tasks := (p.tasks.wait c id).1 }
  | .dir => p.reply c s 0

/-- The system when `c_entry` has started the first program. -/
def boot (program : User Unit) : Procs :=
  ⟨.initial, Function.update (fun _ => none) 0 (some ⟨program, []⟩)⟩

end Procs

/-- The runs of the system: the running process makes its next call, with a key typed, or the timer
interrupts it. -/
def procs (code : List UInt8 → Option (User Unit)) : System Procs (Option Int) where
  init p := ∃ program, code shellName = some program ∧ p = .boot program
  step p e p' := ∃ c, p.tasks.current = some c ∧ p.tasks.table c = some .ready ∧
    match e with
    | some key => ∃ s r, p.session c = some s ∧ s.request = some r ∧ p' = p.call code c s key r
    | none => p' = { p with tasks := p.tasks.schedule.1 }

/-! ### What a call does -/

section Call

variable {code : List UInt8 → Option (User Unit)} {p : Procs} {c i : Fin 10} {s s' : Session}
  {key : Int} {r : Request}

/-- The move of a call of the process in `c`. -/
def Request.move (a : Tasks) (c : Fin 10) : Request → Move (Fin 10)
  | .exit _ => .exit c
  | .fork =>
      match a.firstFree with
      | some i => .create i
      | none => .stay
  | .wait id =>
      match procGet id with
      | some d => if a.table d ≠ none then .wait c d else .stay
      | none => .stay
  | _ => .stay

/-- The caller and the process it has created. -/
def Request.created (a : Tasks) (c : Fin 10) : Request → Option (Fin 10 × Fin 10)
  | .fork => a.firstFree.map (c, ·)
  | _ => none

theorem Request.move_legal {a : Tasks} (hc : a.table c = some .ready) (r : Request) :
    (r.move a c).Legal a.table := by
  cases r with
  | exit e => exact hc
  | fork =>
      rw [Request.move]
      split
      next hfree => exact Tasks.firstFree_some hfree
      · trivial
  | wait id =>
      rw [Request.move]
      split
      · split
        next hd => exact ⟨hc, hd⟩
        · trivial
      · trivial
  | _ => trivial

theorem Request.move_eq_wait {a : Tasks} {x d : Fin 10} (hm : r.move a c = .wait x d) :
    x = c ∧ r = .wait (d.val + 1) := by
  cases r with
  | fork =>
      rw [Request.move] at hm
      split at hm <;> cases hm
  | wait id =>
      rw [Request.move] at hm
      split at hm
      next hd =>
        split at hm
        · cases hm
          exact ⟨rfl, by rw [procGet_some hd]⟩
        · cases hm
      · cases hm
  | _ => cases hm

/-- A call changes the table by its move. -/
theorem Procs.call_table (code : List UInt8 → Option (User Unit)) (p : Procs) (c : Fin 10)
    (s : Session) (key : Int) (r : Request) :
    (p.call code c s key r).tasks.table = (r.move p.tasks c).apply p.tasks.table := by
  cases r with
  | exit e => exact Tasks.schedule_table
  | fork =>
      rw [call, Request.move]
      cases hfree : p.tasks.firstFree with
      | none => rfl
      | some i =>
          show p.tasks.fork.1.table = _
          rw [Tasks.fork, hfree]
          rfl
  | exec name =>
      rw [call]
      split <;> rfl
  | yield => exact Tasks.schedule_table
  | wait id =>
      show (p.tasks.wait c id).1.table = _
      rw [Tasks.wait, Request.move]
      cases procGet id with
      | none => rfl
      | some d =>
          dsimp only
          split
          · exact Tasks.schedule_table
          · rfl
  | _ => rfl

/-- The processes after a call: the others are as before, the caller has an answer, its child has
the answer 0, or the caller has started a program. -/
inductive Procs.After (code : List UInt8 → Option (User Unit)) (p : Procs) (c : Fin 10)
    (s : Session) (r : Request) : Fin 10 → Session → Prop
  | other {i : Fin 10} {s' : Session} (hi : i ≠ c) (hs : p.session i = some s') :
      After code p c s r i s'
  | caller {a : Int} (hr : ∀ e, r ≠ .exit e)
      (hfork : r = .fork → a ≠ 0 ∧ ∀ d : Fin 10, a = d.val + 1 → p.tasks.firstFree = some d) :
      After code p c s r c (s.answer a)
  | child {i : Fin 10} (hr : r = .fork) (hi : p.tasks.firstFree = some i) :
      After code p c s r i (s.answer 0)
  | start {name : List UInt8} {program : User Unit} (hr : r = .exec name)
      (hname : code name = some program) : After code p c s r c ⟨program, []⟩

theorem update_eq_some {f : Fin 10 → Option Session} {o : Option Session}
    (hs : Function.update f c o i = some s') : (i = c ∧ o = some s') ∨ (i ≠ c ∧ f i = some s') := by
  by_cases hi : i = c
  · rw [hi, Function.update_self] at hs
    exact .inl ⟨hi, hs⟩
  · rw [Function.update_of_ne hi] at hs
    exact .inr ⟨hi, hs⟩

theorem Procs.After.reply (hr : ∀ e, r ≠ .exit e) {a : Int} (hfork : r ≠ .fork)
    (hs : (p.reply c s a).session i = some s') : After code p c s r i s' := by
  rcases update_eq_some hs with ⟨rfl, ⟨⟩⟩ | ⟨hi, hs⟩
  · exact .caller hr fun h => absurd h hfork
  · exact .other hi hs

theorem Procs.call_session (hs : (p.call code c s key r).session i = some s') :
    After code p c s r i s' := by
  cases r with
  | exit e =>
      rcases update_eq_some hs with ⟨rfl, ⟨⟩⟩ | ⟨hi, hs⟩
      exact .other hi hs
  | fork =>
      rw [call] at hs
      cases hfree : p.tasks.firstFree with
      | none =>
          rw [hfree] at hs
          rcases update_eq_some hs with ⟨rfl, ⟨⟩⟩ | ⟨hi, hs⟩
          · exact .caller (by simp) fun _ => ⟨by decide, fun d hd => by omega⟩
          · exact .other hi hs
      | some j =>
          rw [hfree] at hs
          rcases update_eq_some hs with ⟨rfl, ⟨⟩⟩ | ⟨hi, hs⟩
          · refine .caller (by simp) fun _ => ⟨by omega, fun d hd => ?_⟩
            rw [hfree, show j = d from Fin.ext (by omega)]
          · rcases update_eq_some hs with ⟨rfl, ⟨⟩⟩ | ⟨-, hs⟩
            · exact .child rfl hfree
            · exact .other hi hs
  | exec name =>
      rw [call] at hs
      split at hs
      next program j hname hfree =>
        rw [Option.ite_none_right_eq_some] at hname
        rcases update_eq_some hs with ⟨rfl, ⟨⟩⟩ | ⟨hi, hs⟩
        · exact .start rfl hname.2
        · exact .other hi hs
      · exact .reply (by simp) (by simp) hs
  | putch e => exact .reply (by simp) (by simp) hs
  | getch => exact .reply (by simp) (by simp) hs
  | getpid => exact .reply (by simp) (by simp) hs
  | yield => exact .reply (a := 6) (by simp) (by simp) hs
  | wait id => exact .reply (by simp) (by simp) hs
  | dir => exact .reply (by simp) (by simp) hs

/-- A slot has a session if and only if it has a process. -/
def Procs.Used (p : Procs) : Prop := ∀ i, p.session i = none ↔ p.tasks.table i = none

theorem Procs.Used.reply {a : Int} (hu : p.Used) (hc : p.session c = some s) :
    (p.reply c s a).Used := by
  intro i
  by_cases hi : i = c
  · subst hi
    have hlive := mt (hu i).mpr (by rw [hc]; simp)
    simpa [Procs.reply] using hlive
  · simpa [Procs.reply, hi] using hu i

/-- **A call keeps the slots and the sessions together.** -/
theorem Procs.Used.call (hu : p.Used) (hc : p.session c = some s) (key : Int) (r : Request) :
    (p.call code c s key r).Used := by
  intro i
  have htable := congrFun (p.call_table code c s key r) i
  have hreply : ∀ a, (p.reply c s a).session i = none ↔ p.tasks.table i = none :=
    fun a => hu.reply (a := a) hc i
  rw [htable]
  cases r with
  | exit e =>
      by_cases hi : i = c
      · subst hi
        simp [Procs.call, Request.move, Move.apply]
      · rw [Request.move, Move.apply, Function.update_of_ne hi, wake_eq_none, ← hu i]
        show Function.update p.session c none i = none ↔ _
        rw [Function.update_of_ne hi]
  | fork =>
      rw [Procs.call, Request.move]
      cases hfree : p.tasks.firstFree with
      | none => exact hreply _
      | some j =>
          have hj := Tasks.firstFree_some hfree
          have hcj : j ≠ c := by
            rintro rfl
            exact absurd ((hu j).mpr hj) (by rw [hc]; simp)
          by_cases hi : i = j
          · subst hi
            simp [Procs.reply, Move.apply, hcj]
          · rw [Move.apply, Function.update_of_ne hi, ← hreply (j.val + 1)]
            simp [Procs.reply, Function.update_apply, hi]
  | exec name =>
      rw [Procs.call]
      split
      · by_cases hi : i = c
        · subst hi
          have hlive := mt (hu i).mpr (by rw [hc]; simp)
          simpa [Request.move, Move.apply] using hlive
        · simpa [Request.move, Move.apply, hi] using hu i
      · exact hreply _
  | wait id =>
      refine (hreply _).trans ?_
      have hlegal : ∀ x d, (Request.wait id).move p.tasks c = .wait x d → x = c ∧ _ :=
        fun x d => Request.move_eq_wait
      cases hm : (Request.wait id).move p.tasks c with
      | wait x d =>
          obtain ⟨rfl, -⟩ := hlegal x d hm
          by_cases hi : i = x
          · subst hi
            have hlive := mt (hu i).mpr (by rw [hc]; simp)
            simpa [Move.apply] using hlive
          · simp [Move.apply, hi]
      | stay => rfl
      | create j =>
          rw [Request.move] at hm
          split at hm
          · split at hm <;> cases hm
          · cases hm
      | exit j =>
          rw [Request.move] at hm
          split at hm
          · split at hm <;> cases hm
          · cases hm
  | _ => exact hreply _

end Call

/-! ### Tame programs -/

/-- The programs are tame, and whoever has a child's number in its history has filled its slot. -/
structure Procs.Ok (p : Procs) (l : Seniority (Fin 10)) : Prop where
  sound : Sound p.tasks.table
  used : p.Used
  tame : ∀ i s, p.session i = some s → Tame s.program
  senior : l.Ok p.tasks.table
  kin : ∀ (i d : Fin 10) s, p.session i = some s → (d.val : Int) + 1 ∈ children s.history →
    d ∈ l.offspring i

section Tame

variable {code : List UInt8 → Option (User Unit)} {p : Procs} {l : Seniority (Fin 10)}
  {c : Fin 10} {s : Session} {r : Request}

theorem Session.mayWait (ht : Tame s.program) (hr : s.request = some r) : MayWait s.history r :=
  Interactive.Obeys.asks ht (Session.run_eq hr)

theorem Procs.Ok.live (hok : p.Ok l) {i : Fin 10} (hs : p.session i = some s) :
    p.tasks.table i ≠ none := mt (hok.used i).mpr (by rw [hs]; simp)

/-- **A call of a tame program** keeps the programs tame and nobody waits for an older process. -/
theorem Procs.Ok.call (hok : p.Ok l)
    (hcode : ∀ name program, code name = some program → Tame program)
    (hc : p.tasks.table c = some .ready) (hs : p.session c = some s) (hr : s.request = some r)
    (key : Int) : ∃ l', (p.call code c s key r).Ok l' := by
  have htable := p.call_table code c s key r
  have hlegal := Request.move_legal hc r
  refine ⟨l.record p.tasks.table (p.call code c s key r).tasks.table (r.created p.tasks c), ?_⟩
  refine ⟨?_, hok.used.call hs key r, fun i s' hs' => ?_, ?_, fun i d s' hs' hd => ?_⟩
  · rw [htable]
    exact hok.sound.move hlegal
  · cases Procs.call_session hs' with
    | other hi hs' => exact hok.tame i s' hs'
    | caller hr hfork => exact hok.tame c s hs
    | child hr hi => exact hok.tame c s hs
    | start hr hname => exact hcode _ _ hname
  · rw [htable]
    refine hok.senior.move hok.sound hlegal (fun q i hq => ?_) fun x d hm => ?_
    · cases r with
      | fork =>
          obtain ⟨j, hj, ⟨⟩⟩ := Option.map_eq_some_iff.mp hq
          exact Tasks.firstFree_some hj
      | _ => cases hq
    · -- who starts to wait does it for a child
      obtain ⟨rfl, rfl⟩ := Request.move_eq_wait hm
      rcases Session.mayWait (hok.tame x s hs) hr _ rfl with hneg | hmem
      · omega
      · exact hok.kin x d s hs hmem
  · cases Procs.call_session hs' with
    | other hi hs' => exact Seniority.mem_record (hok.live hs') (hok.kin i d s' hs' hd)
    | @caller a hexit hfork =>
        rw [Session.history_answer hr] at hd
        by_cases hrf : r = .fork
        · subst hrf
          obtain ⟨ha, hfree⟩ := hfork rfl
          rw [children_fork, if_neg ha] at hd
          rcases List.mem_cons.mp hd with hd | hd
          · rw [Request.created, hfree d hd.symm]
            exact Seniority.record_fork (hok.live hs)
          · exact Seniority.mem_record (hok.live hs) (hok.kin c d s hs hd)
        · rw [children_concat hrf] at hd
          exact Seniority.mem_record (hok.live hs) (hok.kin c d s hs hd)
    | child hrf hi =>
        subst hrf
        rw [Session.history_answer hr, children_fork, if_pos rfl] at hd
        cases hd
    | start hrx hname =>
        rw [Session.history_start] at hd
        cases hd

theorem Procs.Ok.tick (hok : p.Ok l) : ({ p with tasks := p.tasks.schedule.1 } : Procs).Ok l := by
  have htable : p.tasks.schedule.1.table = p.tasks.table := Tasks.schedule_table
  refine ⟨?_, fun i => ?_, hok.tame, ?_, hok.kin⟩
  · exact htable.symm ▸ hok.sound
  · exact htable.symm ▸ hok.used i
  · exact htable.symm ▸ hok.senior

theorem Procs.Ok.boot {program : User Unit} (ht : Tame program) : (boot program).Ok .start := by
  refine ⟨sound_initial, fun i => ?_, fun i s hs => ?_, ⟨fun _ => le_rfl, fun _ _ _ hc => ?_, ?_⟩,
    fun i d s hs hd => ?_⟩
  · by_cases hi : i = 0 <;> simp [Procs.boot, Tasks.initial, hi]
  · have hboot : Function.update (fun _ => none) 0 (some (Session.mk program [])) i = some s := hs
    rcases update_eq_some hboot with ⟨-, ⟨⟩⟩ | ⟨-, ⟨⟩⟩
    exact ht
  · cases hc
  · intro i d hw
    by_cases hi : i = 0 <;> simp [Procs.boot, Tasks.initial, hi] at hw
  · have hboot : Function.update (fun _ => none) 0 (some (Session.mk program [])) i = some s := hs
    rcases update_eq_some hboot with ⟨-, ⟨⟩⟩ | ⟨-, ⟨⟩⟩
    rw [Session.history_start] at hd
    cases hd

/-! ### The shell -/

/-- The first slot has the shell, which is nobody's child. -/
def Procs.HasShell (command : Vector UInt8 128) (p : Procs) : Prop :=
  ∃ s, p.session 0 = some s ∧ s.program = shell command ∧ (.fork, 0) ∉ s.history

variable {command : Vector UInt8 128}

theorem Procs.HasShell.call (hsh : p.HasShell command) (hu : p.Used)
    (hc : p.tasks.table c = some .ready) (hs : p.session c = some s) (hr : s.request = some r)
    (key : Int) : (p.call code c s key r).HasShell command := by
  obtain ⟨s₀, hs₀, hprogram, hfork⟩ := hsh
  have hlive : p.tasks.table 0 ≠ none := mt (hu 0).mpr (by rw [hs₀]; simp)
  -- the shell does not end
  have hstays : c = 0 → (∀ e, r ≠ .exit e) ∧ ∀ name, r ≠ .exec name := by
    rintro rfl
    cases hs₀.symm.trans hs
    have hmay := (obeys_shell command).asks (hprogram ▸ Session.run_eq hr)
    exact hmay.stays hfork
  have hsome : (p.call code c s key r).session 0 ≠ none := by
    rw [Ne, hu.call hs key r 0, p.call_table code c s key r]
    refine Move.apply_ne_none hlive fun hm => ?_
    cases r with
    | exit e =>
        cases hm
        exact (hstays rfl).1 e rfl
    | fork =>
        rw [Request.move] at hm
        split at hm <;> cases hm
    | wait id =>
        rw [Request.move] at hm
        split at hm
        · split at hm <;> cases hm
        · cases hm
    | _ => cases hm
  obtain ⟨s', hs'⟩ := Option.ne_none_iff_exists'.mp hsome
  refine ⟨s', hs', ?_⟩
  cases Procs.call_session hs' with
  | other hi hs' =>
      cases hs₀.symm.trans hs'
      exact ⟨hprogram, hfork⟩
  | @caller a hexit hanswer =>
      cases hs₀.symm.trans hs
      refine ⟨hprogram, ?_⟩
      rw [Session.history_answer hr]
      intro hmem
      rcases List.mem_append.mp hmem with hmem | hmem
      · exact hfork hmem
      · obtain ⟨rfl, rfl⟩ := Prod.mk.inj (List.mem_singleton.mp hmem)
        exact (hanswer rfl).1 rfl
  | child hrf hi => exact absurd (Tasks.firstFree_some hi) hlive
  | start hrx hname => exact absurd hrx ((hstays rfl).2 _)

/-- **With the shell of `user/shell.c` and tame programs, a process is always ready.** -/
theorem procs_ready (hcode : ∀ name program, code name = some program → Tame program)
    (hshell : code shellName = some (shell command)) (hp : (procs code).Reachable p) :
    p.tasks.table 0 ≠ none ∧ ∃ i, p.tasks.table i = some .ready := by
  have hsh : p.HasShell command ∧ ∃ l, p.Ok l := by
    refine hp.invariant (I := fun p => p.HasShell command ∧ ∃ l, p.Ok l) ?_ ?_
    · rintro p ⟨program, hprogram, rfl⟩
      obtain rfl : shell command = program := Option.some.inj (hshell.symm.trans hprogram)
      refine ⟨⟨_, rfl, rfl, ?_⟩, _, .boot (hcode _ _ hshell)⟩
      rw [Session.history_start]
      exact List.not_mem_nil
    · rintro p e p' ⟨hsh, l, hok⟩ ⟨c, -, hc, hstep⟩
      cases e with
      | none => exact hstep ▸ ⟨hsh, l, hok.tick⟩
      | some key =>
          obtain ⟨s, r, hs, hr, rfl⟩ := hstep
          exact ⟨hsh.call hok.used hc hs hr key, hok.call hcode hc hs hr key⟩
  obtain ⟨⟨s, hs, -⟩, l, hok⟩ := hsh
  exact ⟨hok.live hs, hok.senior.acyclic.exists_ready hok.sound (hok.live hs)⟩

end Tame

end Arunos
