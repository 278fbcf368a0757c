import Arunos.Machine.Step

/-!
# Machine — Waiting — `fork`, `exit` and `wait` in every run

A process is a slot together with the number of births the slot has had: slots are used again.
`recorded σ L` is the system with an observer that counts births, and notes for each process the
birth it waits for and the child of its last successful `fork`.  The observer reads the process
table and the registers only.

* `wait_protocol`: in every run who sleeps waits for a process that is alive and is the one it
  asked for, and is woken by the end of that process and by nothing else.
* `wait_for_stranger`: nevertheless a parent that asks for its own child may wait for another
  process, born in the slot of the child after the child's end.  It waits for its child in every
  run in which a `wait` for one's last child comes before another birth in the child's slot
  (`waits_for_own_child`); so in every run in which no slot of a child is used again while the
  parent lives (`SparesChildren.inTime`).
* `self_wait_panics`: a process that waits for itself stops the kernel.  In every run in which
  nobody waits for a process that waits for it, `schedule` finds a ready process as long as any is
  alive (`ready_while_alive`).
-/

namespace Arunos

variable {σ : Type} {L : Layout} {k k' : Kernel σ} {cpu : Context} {a a' : Tasks} {c d i : Fin 10}
  {sp sp' : Fin 10 → Option Space} {m m' : Machine σ} {e : Event} {t : Trap}
  {l l' : Lives (Fin 10)}

/-! ### The table of the tasks -/

/-- What an entry of the process table says about its slot. -/
def Process.status (p : Process) : Option (Status (Fin 10)) :=
  match p.state with
  | .UNUSED => none
  | .SLEEPING => (procGet p.waitPid).map .waiting
  | _ => some .ready

/-- What the process table says. -/
def statusTable (k : Kernel σ) : Table (Fin 10) := fun i => (k.processTable i).status

theorem procGet_pid : ∀ d : Fin 10, procGet (d.val + 1) = some d := by decide

theorem Shows.status {p : Process} {o : Option (Status (Fin 10))} (h : Shows p o) :
    p.status = o := by
  unfold Process.status
  rcases o with _ | _ | d
  · rw [show p.state = .UNUSED from h]
  · rw [h.1]
  · rw [h.1, h.2]
    exact congrArg (Option.map _) (procGet_pid d)

theorem Runs.statusTable (h : Runs L k a sp) : statusTable k = a.table :=
  funext fun i => (h.view i).status

theorem Shows.sleeping_iff {p : Process} {o : Option (Status (Fin 10))} (h : Shows p o) :
    p.state = .SLEEPING ∧ p.waitPid = d.val + 1 ↔ o = some (.waiting d) := by
  rcases o with _ | _ | x
  · simp [show p.state = .UNUSED from h]
  · simp [h.1]
  · rw [h.1, h.2]
    have : (x.val : Int) + 1 = d.val + 1 ↔ x = d := by
      rw [Fin.ext_iff]
      omega
    simpa using this

/-! ### The observer -/

/-- The process that has called `fork` in a step, and the one whose number it has got. -/
def forkOf : Machine σ → Event → Machine σ → Option (Fin 10 × Fin 10)
  | .user k cpu, .trap (.swi _), .user _ cpu' =>
      if cpu .R0 = 4 then
        match k.currentProcess, procGet (signed (cpu' .R0)) with
        | some p, some c => some (p, c)
        | _, _ => none
      else none
  | _, _, _ => none

/-- The observer's record after a step. -/
def witness (l : Lives (Fin 10)) (m : Machine σ) (e : Event) (m' : Machine σ) : Lives (Fin 10) :=
  l.record (statusTable m.kernel) (statusTable m'.kernel) (forkOf m e m')

/-- The system with the observer. -/
def recorded (σ : Type) [BlockDevice σ] (L : Layout) : System (Machine σ × Lives (Fin 10)) Event :=
  (arunos σ L).observe (fun _ => .start) witness

theorem witness_eq (h : InTasks L a sp m) (h' : InTasks L a' sp' m') :
    witness l m e m' = l.record a.table a'.table (forkOf m e m') := by
  rw [witness, h.runs.statusTable, h'.runs.statusTable]

/-! ### The protocol of `wait` and `exit` -/

/-- What the process table says about waiting, with the births of the processes. -/
structure Protocol (k : Kernel σ) (l : Lives (Fin 10)) : Prop where
  pid : ∀ i, (k.processTable i).state ≠ .UNUSED → (k.processTable i).pid = i.val + 1
  sleeping : ∀ i, (k.processTable i).state = .SLEEPING → ∃ d : Fin 10,
    (k.processTable i).waitPid = d.val + 1 ∧ (k.processTable d).state ≠ .UNUSED ∧
      l.awaited i = l.births d
  awake : ∀ i, (k.processTable i).state ≠ .UNUSED → (k.processTable i).state ≠ .SLEEPING →
    (k.processTable i).waitPid = -1

theorem Owns.pid (h : Owns L k sp) (hi : (k.processTable i).state ≠ .UNUSED) :
    (k.processTable i).pid = i.val + 1 := by
  obtain ⟨s, hs⟩ := Option.ne_none_iff_exists'.mp fun hnone => hi ((h.2 i).mpr hnone)
  exact (h.1.slot i s hs).fields.pid

theorem Runs.protocol (h : Runs L k a sp) (hs : Sound a.table) (hl : l.Ok a.table) :
    Protocol k l := by
  refine ⟨fun i => h.owns.pid, fun i hi => ?_, fun i hlive hi => ?_⟩
  · have hv := h.view i
    rcases ht : a.table i with _ | _ | d
    · rw [ht] at hv
      cases hi.symm.trans hv
    · rw [ht] at hv
      cases hi.symm.trans hv.1
    · rw [ht] at hv
      exact ⟨d, hv.2, fun hd => hs i d ht ((h.view d).unused_iff.mp hd), hl i d ht⟩
  · have hv := h.view i
    rcases ht : a.table i with _ | _ | d
    · rw [ht] at hv
      exact absurd hv hlive
    · rw [ht] at hv
      exact hv.2
    · rw [ht] at hv
      exact absurd hv.1 hi

theorem Unstarted.not_sleeping (h : Unstarted k) (i : Fin 10) :
    (k.processTable i).state ≠ .SLEEPING := by
  intro hi
  cases hi.symm.trans (h i (by rw [hi]; decide)).1

theorem Stopped.protocol (h : Stopped L k) : Protocol k l := by
  obtain ⟨-, hu, sp, ho⟩ := h
  exact ⟨fun _ => ho.pid, fun i hi => absurd hi (hu.not_sleeping i), fun i hi _ => (hu i hi).2⟩

/-- The process in `i`, which waits for the one in `d`, before and after a step. -/
structure Wakes (m : Machine σ) (e : Event) (m' : Machine σ) (i d : Fin 10) : Prop where
  wakes : Exits m e d → (m'.kernel.processTable i).state = .READY ∧
    (m'.kernel.processTable d).state = .UNUSED
  sleeps : ¬ Exits m e d → (m'.kernel.processTable i).state = .SLEEPING ∧
    (m'.kernel.processTable i).waitPid = d.val + 1 ∧ (m'.kernel.processTable d).state ≠ .UNUSED

theorem Runs.wakes {mv : Move (Fin 10)} (h : Runs L m.kernel a sp) (h' : Runs L m'.kernel a' sp')
    (hs : Sound a.table) (hm : e.Makes a m mv) (ht : a'.table = mv.apply a.table)
    (hi : (m.kernel.processTable i).state = .SLEEPING)
    (hd : (m.kernel.processTable i).waitPid = d.val + 1) : Wakes m e m' i d := by
  have hw : a.table i = some (.waiting d) := (h.view i).sleeping_iff.mp ⟨hi, hd⟩
  rcases waiting_move hm.legal hw with ⟨rfl, hr⟩ | ⟨hne, hr⟩
  · refine ⟨fun _ => ⟨(h'.view i).ready_iff.mpr (ht ▸ hr), (h'.view d).unused_iff.mpr ?_⟩,
      fun hno => absurd ((hm.exit d).mp rfl) hno⟩
    rw [ht]
    simp [Move.apply]
  · obtain ⟨h₁, h₂⟩ := (h'.view i).sleeping_iff.mpr (ht ▸ hr)
    refine ⟨fun hex => absurd ((hm.exit d).mpr hex) hne, fun _ => ⟨h₁, h₂, fun hu => ?_⟩⟩
    refine Move.apply_ne_none (hs i d hw) hne ?_
    rw [← ht]
    exact (h'.view d).unused_iff.mp hu

/-! ### Calls -/

/-- What the running process asks for, and the timer. -/
inductive Call where
  | fork
  | exit
  | wait (pid : Nat)
  | tick

/-- The trap of a call. -/
def Call.trap : Call → Trap
  | .tick => .timer
  | _ => .swi 0

/-- The registers of a call. -/
def Call.registers (cpu : Context) : Call → Context
  | .fork => Function.update cpu .R0 4
  | .exit => Function.update cpu .R0 2
  | .wait pid => Function.update (Function.update cpu .R0 7) .R1 pid
  | .tick => cpu

/-- The tasks after a call of the process in `c`. -/
def Tasks.answer (a : Tasks) (c : Fin 10) : Call → Tasks × Outcome
  | .fork => a.fork
  | .exit => a.exit c
  | .wait pid => a.wait c (signed pid)
  | .tick => a.schedule

/-- The child of a call of the process in `c`. -/
def Tasks.child (a : Tasks) (c : Fin 10) : Call → Option (Fin 10 × Fin 10)
  | .fork => a.firstFree.map (c, ·)
  | _ => none

/-- The record after a call of the process in `c`. -/
def Tasks.note (a : Tasks) (l : Lives (Fin 10)) (c : Fin 10) (q : Call) : Lives (Fin 10) :=
  l.record a.table (a.answer c q).1.table (a.child c q)

/-- The tasks and the record after calls of the running processes. -/
def play : Tasks → Lives (Fin 10) → List Call → Tasks × Lives (Fin 10)
  | a, l, [] => (a, l)
  | a, l, q :: qs =>
      match a.current with
      | some c =>
          if a.table c = some .ready then play (a.answer c q).1 (a.note l c q) qs else (a, l)
      | none => (a, l)

theorem Call.registers_cpsr (cpu : Context) (q : Call) : q.registers cpu .CPSR = cpu .CPSR := by
  cases q <;> rfl

theorem Call.reacts {out : Outcome} {q : Call} (h : a.Reacts c (q.registers cpu) a' out q.trap) :
    a' = (a.answer c q).1 ∧ out = (a.answer c q).2 := by
  have heq : (a', out) = a.answer c q := by cases q <;> exact h
  rw [← heq]
  exact ⟨rfl, rfl⟩

/-- When nobody is ready it is over. -/
theorem play_stuck (h : ∀ d, a.table d ≠ some .ready) (qs : List Call) : play a l qs = (a, l) := by
  cases qs with
  | nil => rfl
  | cons q qs =>
      cases hc : a.current with
      | none => simp only [play, hc]
      | some c => simp only [play, hc, h c, if_false]

theorem signed_word : ∀ d : Fin 10, signed (word (d.val + 1)) = d.val + 1 := by decide

theorem procGet_failed : procGet (signed (word (-1))) = none := by decide

/-- The number that `fork` returns is the child's. -/
theorem forkOf_call {q : Call} (hc : k.currentProcess = some c) :
    forkOf (.user k (q.registers cpu)) (.trap q.trap)
      (leave (q.trap.back (q.registers cpu)) (a.answer c q).2 k') = a.child c q := by
  cases q with
  | fork =>
      have h4 : Call.fork.registers cpu .R0 = 4 := rfl
      rw [Tasks.answer, Tasks.child, Tasks.fork]
      cases a.firstFree with
      | none =>
          simp only [Call.trap, Trap.back, leave, forkOf, h4, if_true, Function.update_self, hc,
            procGet_failed, Option.map_none]
      | some i =>
          simp only [Call.trap, Trap.back, leave, forkOf, h4, if_true, Function.update_self, hc,
            signed_word, procGet_pid, Option.map_some]
  | exit =>
      cases leave _ _ k' <;> rfl
  | wait pid =>
      cases leave _ _ k' <;> rfl
  | tick => rfl

variable [BlockDevice σ]

/-- The running process makes a call: it sets its registers and traps. -/
structure Performs (L : Layout) (a : Tasks) (l : Lives (Fin 10)) (c : Fin 10) (q : Call)
    (k : Kernel σ) (cpu : Context) (m' : Machine σ) (sp' : Fin 10 → Option Space) : Prop where
  current : k.currentProcess = some c
  work : (recorded σ L).step (.user k cpu, l) (.work (q.registers cpu))
    (.user k (q.registers cpu), l)
  trap : (recorded σ L).step (.user k (q.registers cpu), l) (.trap q.trap) (m', a.note l c q)
  inTasks : InTasks L (a.answer c q).1 sp' m'
  leaves : ∃ k', m' = leave (q.trap.back (q.registers cpu)) (a.answer c q).2 k'

/-- Every call can be made. -/
theorem exists_performs (cpu : Context) (hin : InTasks L a sp (.user k cpu))
    (hc : a.current = some c) (hr : a.table c = some .ready) (l : Lives (Fin 10)) (q : Call) :
    ∃ m' sp', Performs L a l c q k cpu m' sp' := by
  have hruns : Runs L k a sp := hin.runs
  have hin' : InTasks L a sp (.user k (q.registers cpu)) := .user c hruns hc hr
  have hcur : k.currentProcess = some c := hruns.current.trans hc
  obtain ⟨m', hm'⟩ := exists_step_trap hruns hc hr (q.registers cpu) q.trap
  obtain ⟨a', sp', out, k', ht, rfl, hin''⟩ := step_trap hruns hc hr hm'
  obtain ⟨rfl, rfl⟩ := Call.reacts ht.reacts
  refine ⟨_, sp', hcur, ⟨if_pos ?_, ?_⟩, ⟨hm', ?_⟩, hin'', k', rfl⟩
  · rw [Call.registers_cpsr]
  · exact (witness_eq hin hin').trans l.record_self |>.symm
  · refine ((witness_eq hin' hin'').trans ?_).symm
    rw [Tasks.note, forkOf_call hcur]

omit [BlockDevice σ] in
theorem Waits.not_work {cpu' : Context} : ¬ Waits m (.work cpu') c d := by
  rintro ⟨_, _, _, _, he, -⟩
  cases he

omit [BlockDevice σ] in
/-- Only a call of `wait` waits. -/
theorem Call.not_waits {q : Call} (hq : ∀ pid, q ≠ .wait pid) :
    ¬ Waits (.user k (q.registers cpu)) (.trap q.trap) c d := by
  rintro ⟨_, _, _, hm, he, hcall, -⟩
  cases hm
  cases q with
  | fork => cases hcall
  | exit => cases hcall
  | wait pid => exact hq pid rfl
  | tick => cases he

/-- Calls whose steps meet the condition `G` make a run whose steps meet it. -/
theorem play_restrict {G : Machine σ × Lives (Fin 10) → Event → Machine σ × Lives (Fin 10) → Prop}
    {qs : List Call}
    (hG : ∀ q ∈ qs, ∀ (k : Kernel σ) cpu l y, G (.user k cpu, l) (.work (q.registers cpu)) y ∧
      G (.user k (q.registers cpu), l) (.trap q.trap) y)
    (h : ((recorded σ L).restrict G).Reachable (m, l)) (hin : InTasks L a sp m) :
    ∃ m' sp', ((recorded σ L).restrict G).Reachable (m', (play a l qs).2) ∧
      InTasks L (play a l qs).1 sp' m' := by
  induction qs generalizing a l m sp with
  | nil => exact ⟨m, sp, h, hin⟩
  | cons q qs ih =>
      cases hin with
      | @user k cpu c hruns hc hr =>
          obtain ⟨m', sp', hp⟩ := exists_performs cpu (.user c hruns hc hr) hc hr l q
          simp only [play, hc, hr, if_true]
          have hq := hG q List.mem_cons_self k cpu l
          refine ih (fun q' hq' => hG q' (List.mem_cons_of_mem q hq')) ?_ hp.inTasks
          exact (h.step ⟨hp.work, (hq _).1⟩).step ⟨hp.trap, (hq _).2⟩
      | panicked hruns hstuck =>
          rw [play_stuck hstuck]
          exact ⟨_, sp, h, .panicked hruns hstuck⟩

/-- **Every run of the tasks is a run of the machine.** -/
theorem play_reachable (qs : List Call) (h : (recorded σ L).Reachable (m, l))
    (hin : InTasks L a sp m) :
    ∃ m' sp', (recorded σ L).Reachable (m', (play a l qs).2) ∧
      InTasks L (play a l qs).1 sp' m' := by
  have h' := h.restrict (G := fun _ _ _ => True) fun _ _ _ _ => trivial
  obtain ⟨m', sp', hr, hin'⟩ := play_restrict (fun _ _ _ _ _ _ => ⟨trivial, trivial⟩) h' hin
  exact ⟨m', sp', hr.of_restrict, hin'⟩

/-- What every move of the tasks keeps of the table and the record, is kept by every run. -/
theorem recorded_invariant
    {G : Machine σ × Lives (Fin 10) → Event → Machine σ × Lives (Fin 10) → Prop}
    {P : Table (Fin 10) → Lives (Fin 10) → Prop} (h₀ : P Tasks.initial.table .start)
    (hP : ∀ a sp m l e m' t mv, InTasks L a sp m → Sound a.table → P a.table l → e.Makes a m mv →
      t = mv.apply a.table → statusTable m'.kernel = t → G (m, l) e (m', witness l m e m') →
      P t (l.record a.table t (forkOf m e m')))
    (h : ((recorded σ L).restrict G).Reachable (m, l)) :
    (∃ a sp, InTasks L a sp m ∧ Sound a.table ∧ P a.table l) ∨ Unbooted L m := by
  refine System.Reachable.observed_invariant
    (I := fun m l => (∃ a sp, InTasks L a sp m ∧ Sound a.table ∧ P a.table l) ∨ Unbooted L m) h
    ?_ ?_
  · intro m hi
    rcases init_cases hi with ⟨sp, hin⟩ | hk
    · exact .inl ⟨_, sp, hin, sound_initial, h₀⟩
    · exact .inr hk
  · rintro m l e m' (⟨a, sp, hin, hs, hl⟩ | ⟨k, rfl, -⟩) hstep hG
    · obtain ⟨a', sp', mv, hm, hin', ht⟩ := step_makes hin hstep
      refine .inl ⟨a', sp', hin', ht ▸ hs.move hm.legal, ?_⟩
      rw [witness_eq hin hin']
      exact hP a sp m l e m' a'.table mv hin hs hl hm ht hin'.runs.statusTable hG
    · cases hstep

theorem recorded_ok (h : (recorded σ L).Reachable (m, l)) :
    (∃ a sp, InTasks L a sp m ∧ Sound a.table ∧ l.Ok a.table) ∨ Unbooted L m := by
  refine recorded_invariant (P := fun t l => l.Ok t) (fun i d hw => ?_) ?_
    (h.restrict fun _ _ _ _ => trivial)
  · by_cases hi : i = 0 <;> simp [Tasks.initial, hi] at hw
  · rintro a sp m l e m' t mv - hs hl hm rfl - -
    exact hl.move hs hm.legal _

/-- **No lost wake-up.**  In every reachable machine a slot in use has its number for pid; who
sleeps waits for a process that is alive and is the one it has asked for, and nobody else has a
`wait_pid`; at a kernel exit no slot is left `CREATED`; the running process is `READY`, unless the
kernel has stopped.  And a step wakes a sleeping process if it is the `exit` of the process it
waits for, and leaves it asleep otherwise. -/
theorem wait_protocol (h : (recorded σ L).Reachable (m, l)) :
    Protocol m.kernel l ∧
    (∀ k cpu, m = .user k cpu → ∀ i, (k.processTable i).state ≠ .CREATED) ∧
    (∀ c, m.kernel.currentProcess = some c →
      (m.kernel.processTable c).state = .READY ∨ ∃ k, m = .panicked k) ∧
    ∀ e m', step L m e = some m' → ∀ i d, (m.kernel.processTable i).state = .SLEEPING →
      (m.kernel.processTable i).waitPid = d.val + 1 → Wakes m e m' i d := by
  rcases recorded_ok h with ⟨a, sp, hin, hs, hl⟩ | ⟨k, rfl, hstop⟩
  · refine ⟨hin.runs.protocol hs hl, ?_, ?_, fun e m' hstep i d hi hd => ?_⟩
    · rintro k cpu rfl i hi
      have hv := hin.runs.view i
      rcases ht : a.table i with _ | _ | d <;> rw [ht] at hv
      · cases hi.symm.trans hv
      · cases hi.symm.trans hv.1
      · cases hi.symm.trans hv.1
    · intro c hcur
      cases hin with
      | user x hruns hx hr =>
          obtain rfl : x = c := Option.some.inj (hx.symm.trans (hruns.current.symm.trans hcur))
          exact .inl ((hruns.view x).ready_iff.mpr hr)
      | @panicked k hruns hstuck => exact .inr ⟨k, rfl⟩
    · obtain ⟨a', sp', mv, hm, hin', ht⟩ := step_makes hin hstep
      exact hin.runs.wakes hin'.runs hs hm ht hi hd
  · refine ⟨hstop.protocol, ?_, fun c hcur => ?_, fun e m' hstep => ?_⟩
    · rintro k cpu ⟨⟩
    · cases hstop.1.symm.trans hcur
    · cases hstep

/-- The machine starts with the shell in slot 0. -/
theorem exists_inTasks : ∃ (k : Kernel shellDisk.Reader) (cpu : Context)
      (sp : Fin 10 → Option Space),
    (arunos shellDisk.Reader smallLayout).init (.user k cpu) ∧
      InTasks smallLayout .initial sp (.user k cpu) := by
  obtain ⟨k, cpu, s, hi, hs⟩ := exists_booted
  exact ⟨k, cpu, _, hi, .user 0 hs.runs rfl rfl⟩

/-- The shell forks and waits for its child. -/
theorem wait_protocol_shell : ∃ (m : Machine shellDisk.Reader) (l : Lives (Fin 10)),
    (recorded shellDisk.Reader smallLayout).Reachable (m, l) ∧ Protocol m.kernel l ∧
      (m.kernel.processTable 0).state = .SLEEPING ∧ (m.kernel.processTable 0).waitPid = 2 := by
  obtain ⟨k, cpu, sp, hi, hin⟩ := exists_inTasks
  obtain ⟨m, sp', hr, hin'⟩ := play_reachable [.fork, .wait 2] (.init ⟨hi, rfl⟩) hin
  have ht : (play .initial .start [.fork, .wait 2]).1.table 0 = some (.waiting 1) := by
    decide +kernel
  obtain ⟨h₁, h₂⟩ := (hin'.runs.view 0).sleeping_iff.mpr ht
  exact ⟨m, _, hr, (wait_protocol hr).1, h₁, h₂⟩

/-! ### A parent and its child -/

/-- Who calls `wait` with the number of its last child calls it before another process is born in
the slot of that child. -/
def WaitsInTime (x : Machine σ × Lives (Fin 10)) (e : Event) (_ : Machine σ × Lives (Fin 10)) :
    Prop :=
  ∀ c d n, Waits x.1 e c d → x.2.forked c = some (d, n) → x.2.births d = n

/-- No process is born in a slot where another one, that lives, has its last child. -/
def SparesChildren (x : Machine σ × Lives (Fin 10)) (e : Event) (y : Machine σ × Lives (Fin 10)) :
    Prop :=
  x.2.Fresh (statusTable x.1.kernel) (statusTable y.1.kernel) (forkOf x.1 e y.1)

/-- **A parent may wait for a stranger.**  The shell forks a child, which forks and exits; the
grandchild forks and is given the child's slot.  Now the shell waits for the number its `fork` has
returned: it sleeps, though its child, the first birth in slot 1, is dead. -/
theorem wait_for_stranger : ∃ (k : Kernel shellDisk.Reader) (cpu : Context) (m' : Machine _)
    (l l' : Lives (Fin 10)) (e : Event),
    (recorded shellDisk.Reader smallLayout).Reachable (.user k cpu, l) ∧
    Waits (.user k cpu) e 0 1 ∧ l.forked 0 = some (1, 1) ∧
    (recorded shellDisk.Reader smallLayout).step (.user k cpu, l) e (m', l') ∧
    (m'.kernel.processTable 0).state = .SLEEPING ∧ (m'.kernel.processTable 0).waitPid = 2 ∧
    l'.awaited 0 = 2 ∧ l'.births 1 = 2 := by
  obtain ⟨k, cpu, sp, hi, hin⟩ := exists_inTasks
  -- slot 0 forks 1, 1 forks 2 and exits, 2 forks into slot 1, and slot 0 has its turn
  let qs : List Call := [.fork, .tick, .fork, .exit, .fork, .tick]
  obtain ⟨m, sp₁, hr, hin₁⟩ := play_reachable qs (.init ⟨hi, rfl⟩) hin
  have hc : (play .initial .start qs).1.current = some 0 := by decide +kernel
  have h0 : (play .initial .start qs).1.table 0 = some .ready := by decide +kernel
  cases hin₁ with
  | panicked hruns hstuck => exact absurd h0 (hstuck 0)
  | @user k cpu c hruns hc' hr' =>
      obtain ⟨m', sp', hp⟩ := exists_performs cpu (.user c hruns hc' hr') hc h0
        (play .initial .start qs).2 (.wait 2)
      have ht : ((play .initial .start qs).1.answer 0 (.wait 2)).1.table 0 = some (.waiting 1) := by
        decide +kernel
      obtain ⟨h₁, h₂⟩ := (hp.inTasks.runs.view 0).sleeping_iff.mpr ht
      refine ⟨k, _, m', _, _, _, hr.step hp.work, ⟨k, _, 0, rfl, rfl, rfl, hp.current, rfl⟩, ?_,
        hp.trap, h₁, h₂, ?_, ?_⟩
      all_goals decide +kernel

/-- **A parent waits for its own child** in every run whose calls of `wait` for a last child come in
time: who sleeps on the number of its last child sleeps on that child, and the child is alive. -/
theorem waits_for_own_child (h : ((recorded σ L).restrict WaitsInTime).Reachable (m, l))
    {n : Nat} (hi : (m.kernel.processTable i).state = .SLEEPING) (hf : l.forked i = some (d, n))
    (hw : (m.kernel.processTable i).waitPid = d.val + 1) :
    (m.kernel.processTable d).state ≠ .UNUSED ∧ l.births d = n ∧ l.awaited i = n := by
  have hinv : (∃ a sp, InTasks L a sp m ∧ Sound a.table ∧ l.Ok a.table ∧ l.OwnOk a.table) ∨
      Unbooted L m := by
    refine recorded_invariant (P := fun t l => l.Ok t ∧ l.OwnOk t) ⟨fun i d hw => ?_, ?_⟩ ?_ h
    · by_cases hi : i = 0 <;> simp [Tasks.initial, hi] at hw
    · rintro i d n - ⟨⟩
    · rintro a sp m l e m' t mv - hs ⟨hl, hown⟩ hm rfl - hG
      exact ⟨hl.move hs hm.legal _,
        hown.move hs hm.legal fun i d n hmv => hG i d n (hm.wait i d hmv)⟩
  rcases hinv with ⟨a, sp, hin, hs, hl, hown⟩ | ⟨k, rfl, -, hu, -⟩
  · have ht : a.table i = some (.waiting d) := (hin.runs.view i).sleeping_iff.mp ⟨hi, hw⟩
    have hn := hown i d n ht hf
    exact ⟨fun hu => hs i d ht ((hin.runs.view d).unused_iff.mp hu), hn, (hl i d ht).trans hn⟩
  · exact absurd hi (hu.not_sleeping i)

omit [BlockDevice σ] in
theorem WaitsInTime.of_ne {x y : Machine σ × Lives (Fin 10)} (h : ∀ c d, ¬ Waits x.1 e c d) :
    WaitsInTime x e y := fun c d _ hw => absurd hw (h c d)

/-- The shell's child forks and exits, and the child's slot is used again.  The shell forks once
more before it waits, and waits for its new child. -/
theorem waits_for_own_child_shell : ∃ (m : Machine shellDisk.Reader) (l : Lives (Fin 10)),
    ((recorded shellDisk.Reader smallLayout).restrict WaitsInTime).Reachable (m, l) ∧
      l.births 1 = 2 ∧ (m.kernel.processTable 0).state = .SLEEPING ∧ l.forked 0 = some (3, 1) ∧
      (m.kernel.processTable 3).state ≠ .UNUSED := by
  obtain ⟨k, cpu, sp, hi, hin⟩ := exists_inTasks
  let qs : List Call := [.fork, .tick, .fork, .exit, .fork, .tick, .fork]
  have hr₀ : ((recorded shellDisk.Reader smallLayout).restrict WaitsInTime).Reachable
      (.user k cpu, .start) := .init ⟨hi, rfl⟩
  have hqs : ∀ q ∈ qs, ∀ pid, q ≠ .wait pid := by simp [qs]
  obtain ⟨m, sp₁, hr, hin₁⟩ := play_restrict (fun q hq _ _ _ _ =>
    ⟨.of_ne fun _ _ => Waits.not_work, .of_ne fun _ _ => Call.not_waits (hqs q hq)⟩) hr₀ hin
  have hc : (play .initial .start qs).1.current = some 0 := by decide +kernel
  have h0 : (play .initial .start qs).1.table 0 = some .ready := by decide +kernel
  cases hin₁ with
  | panicked hruns hstuck => exact absurd h0 (hstuck 0)
  | @user k cpu c hruns hc' hr' =>
      obtain ⟨m', sp', hp⟩ := exists_performs cpu (.user c hruns hc' hr') hc h0
        (play .initial .start qs).2 (.wait 4)
      have htime : ∀ n, (play .initial .start qs).2.forked 0 = some (3, n) →
          (play .initial .start qs).2.births 3 = n := by
        have hf : (play .initial .start qs).2.forked 0 = some (3, 1) := by decide +kernel
        have hb : (play .initial .start qs).2.births 3 = 1 := by decide +kernel
        rintro n hn
        rw [hf] at hn
        cases hn
        exact hb
      have hr₂ := (hr.step ⟨hp.work, .of_ne fun _ _ => Waits.not_work⟩).step
        ⟨hp.trap, fun c d n hw hn => by
          obtain ⟨_, _, _, hm, -, -, hcur, hpid⟩ := hw
          cases hm
          obtain rfl : 0 = c := Option.some.inj (hp.current.symm.trans hcur)
          obtain rfl : 3 = d := Option.some.inj hpid
          exact htime n hn⟩
      have ht : ((play .initial .start qs).1.answer 0 (.wait 4)).1.table 0 = some (.waiting 3) := by
        decide +kernel
      obtain ⟨h₁, h₂⟩ := (hp.inTasks.runs.view 0).sleeping_iff.mpr ht
      have hf : ((play .initial .start qs).1.note (play .initial .start qs).2 0
          (.wait 4)).forked 0 = some (3, 1) := by decide +kernel
      exact ⟨m', _, hr₂, by decide +kernel, h₁, hf, (waits_for_own_child hr₂ h₁ hf h₂).1⟩

/-- **A parent whose child's slot is not used again waits in time.** -/
theorem SparesChildren.inTime (h : ((recorded σ L).restrict SparesChildren).Reachable (m, l)) :
    ((recorded σ L).restrict WaitsInTime).Reachable (m, l) := by
  refine h.weaken ?_
  rintro ⟨m, l⟩ e y hr ⟨hstep, -⟩ c d n hw hf
  have hinv : (∃ a sp, InTasks L a sp m ∧ Sound a.table ∧ l.KinOk a.table) ∨ Unbooted L m := by
    refine recorded_invariant (P := fun t l => l.KinOk t) ?_ ?_ hr
    · rintro i c n - ⟨⟩
    · rintro a sp m l e m' t mv hin - hk - rfl ht hG
      refine hk.move ?_
      rw [SparesChildren, hin.runs.statusTable, ht] at hG
      exact hG
  obtain ⟨k, cpu, _, rfl, -, -, hcur, -⟩ := hw
  rcases hinv with ⟨a, sp, hin, -, hk⟩ | ⟨k, ⟨⟩, -⟩
  cases hin with
  | user x hruns hx hready =>
      obtain rfl : x = c := Option.some.inj (hx.symm.trans (hruns.current.symm.trans hcur))
      exact (hk x d n (by simp [hready]) hf).symm

/-! ### Running out of ready processes -/

/-- A call of `wait` is not for a process that waits, directly or through others, for the caller. -/
def AvoidsCycles (m : Machine σ) (e : Event) (_ : Machine σ) : Prop :=
  ∀ c d, Waits m e c d → ¬ Relation.ReflTransGen (WaitsOn (statusTable m.kernel)) d c

/-- **A process that waits for itself stops the kernel**: the shell sleeps for ever, and the loop of
`schedule` ends in the panic. -/
theorem self_wait_panics : ∃ (k k' : Kernel shellDisk.Reader) (cpu : Context) (e : Event),
    (arunos shellDisk.Reader smallLayout).Reachable (.user k cpu) ∧ Waits (.user k cpu) e 0 0 ∧
      step smallLayout (.user k cpu) e = some (.panicked k') ∧
      (k'.processTable 0).state = .SLEEPING := by
  obtain ⟨k, cpu, sp, hi, hin⟩ := exists_inTasks
  obtain ⟨m', sp', hp⟩ := exists_performs cpu hin rfl rfl .start (.wait 1)
  have hout : (Tasks.initial.answer 0 (.wait 1)).2 = .panic := by decide +kernel
  have ht : (Tasks.initial.answer 0 (.wait 1)).1.table 0 = some (.waiting 0) := by decide +kernel
  obtain ⟨h₁, -⟩ := (hp.inTasks.runs.view 0).sleeping_iff.mpr ht
  obtain ⟨k', rfl⟩ := hp.leaves
  rw [hout] at h₁
  have hstep := hp.trap.1
  rw [hout] at hstep
  exact ⟨k, k', _, _, System.Reachable.step (.init hi) hp.work.1,
    ⟨k, _, 0, rfl, rfl, rfl, hp.current, rfl⟩, hstep, h₁⟩

/-- **As long as a process is alive, one is ready**, in every run in which nobody waits for a
process that waits for it; so `schedule` does not panic, and no processes are asleep on one
another. -/
theorem ready_while_alive (h : ((arunos σ L).restrict AvoidsCycles).Reachable m)
    (hm : ∀ k, m ≠ .halted k) (hi : (m.kernel.processTable i).state ≠ .UNUSED) :
    (∃ j, (m.kernel.processTable j).state = .READY) ∧ (∀ k, m ≠ .panicked k) ∧
      Acyclic (statusTable m.kernel) := by
  obtain ⟨l, hl⟩ := h.observe (fun _ => .start) witness
  have hinv : (∃ a sp, InTasks L a sp m ∧ Sound a.table ∧ Acyclic a.table) ∨ Unbooted L m := by
    refine recorded_invariant (P := fun t _ => Acyclic t) ?_ ?_ hl
    · intro i hc
      obtain ⟨j, hj, -⟩ := Relation.TransGen.head'_iff.mp hc
      by_cases hi : i = 0 <;> simp [WaitsOn, Tasks.initial, hi] at hj
    · rintro a sp m l e m' t mv hin - hac hmk rfl - hG
      refine hac.move hmk.legal fun c d hcd => ?_
      have := hG c d (hmk.wait c d hcd)
      rwa [hin.runs.statusTable] at this
  rcases hinv with ⟨a, sp, hin, hs, hac⟩ | ⟨k, rfl, -⟩
  · obtain ⟨j, hj⟩ := hac.exists_ready hs fun hnone => hi ((hin.runs.view i).unused_iff.mpr hnone)
    refine ⟨⟨j, (hin.runs.view j).ready_iff.mpr hj⟩, ?_, hin.runs.statusTable.symm ▸ hac⟩
    rintro k rfl
    cases hin with
    | panicked hruns hstuck => exact hstuck j hj
  · exact absurd rfl (hm k)

omit [BlockDevice σ] in
theorem AvoidsCycles.of_ne (h : ∀ c d, ¬ Waits m e c d) : AvoidsCycles m e m' :=
  fun c d hw => absurd hw (h c d)

/-- The shell forks and waits for its child, which is ready. -/
theorem ready_while_alive_shell : ∃ (m : Machine shellDisk.Reader) (j : Fin 10),
    ((arunos shellDisk.Reader smallLayout).restrict AvoidsCycles).Reachable m ∧
      (m.kernel.processTable 0).state = .SLEEPING ∧ (m.kernel.processTable 0).waitPid = 2 ∧
      (m.kernel.processTable j).state = .READY ∧ Acyclic (statusTable m.kernel) := by
  obtain ⟨k, cpu, sp, hi, hin⟩ := exists_inTasks
  obtain ⟨m₁, sp₁, hp⟩ := exists_performs cpu hin rfl rfl .start .fork
  have hr₀ : ((arunos shellDisk.Reader smallLayout).restrict AvoidsCycles).Reachable
      (.user k cpu) := .init hi
  have hr₁ := (hr₀.step ⟨hp.work.1, .of_ne fun _ _ => Waits.not_work⟩).step
    ⟨hp.trap.1, .of_ne fun _ _ => Call.not_waits (by simp)⟩
  have h0 : (Tasks.initial.answer 0 .fork).1.table 0 = some .ready := by decide +kernel
  have hin₁ := hp.inTasks
  cases hin₁ with
  | panicked hruns hstuck => exact absurd h0 (hstuck 0)
  | @user k₁ cpu₁ c hruns hc hr =>
      obtain ⟨m₂, sp₂, hq⟩ := exists_performs cpu₁ (.user c hruns hc hr)
        (c := 0) (by decide +kernel) h0 (Tasks.initial.note .start 0 .fork) (.wait 2)
      -- nobody waits for anybody yet
      have hready : ∀ c d, (Tasks.initial.answer 0 .fork).1.table c ≠ some (.waiting d) := by
        decide +kernel
      have havoid : AvoidsCycles (.user k₁ ((Call.wait 2).registers cpu₁))
          (.trap (Call.wait 2).trap) m₂ := by
        rintro c d ⟨_, _, _, hm, -, -, hcur, hpid⟩ hpath
        cases hm
        obtain rfl : 0 = c := Option.some.inj (hq.current.symm.trans hcur)
        obtain rfl : 1 = d := Option.some.inj hpid
        rcases Relation.ReflTransGen.cases_head hpath with heq | ⟨x, hx, -⟩
        · cases heq
        · refine hready 1 x ?_
          rw [← hruns.statusTable]
          exact hx
      have hr₂ := (hr₁.step ⟨hq.work.1, .of_ne fun _ _ => Waits.not_work⟩).step ⟨hq.trap.1, havoid⟩
      have ht : ((Tasks.initial.answer 0 .fork).1.answer 0 (.wait 2)).1.table 0 =
          some (.waiting 1) := by decide +kernel
      obtain ⟨h₁, h₂⟩ := (hq.inTasks.runs.view 0).sleeping_iff.mpr ht
      have hhalted : ∀ k, m₂ ≠ .halted k := by
        rintro k rfl
        cases hq.inTasks
      have hlive : (m₂.kernel.processTable 0).state ≠ .UNUSED := by
        rw [h₁]
        decide
      obtain ⟨⟨j, hj⟩, -, hac⟩ := ready_while_alive hr₂ hhalted hlive
      exact ⟨m₂, j, hr₂, h₁, h₂, hj, hac⟩

end Arunos
