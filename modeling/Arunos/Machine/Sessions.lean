import Arunos.Machine.Noninterference
import Arunos.Machine.Procs
import Arunos.Machine.Resume

/-!
# Machine — Sessions — the machine runs the programs

An observer of the machine notes for each process the program it runs and the answers its calls have
had.  An answer is what `r0` has when the process runs next; the observer reads it off the registers
and the saved contexts, and sees in the process table who has been created.

A run follows the sources when each system call is the next one of the program of the process: the
registers have its number and its argument, and the memory has the name for `exec`.  In between
programs may compute and store as they like, and interrupts come at any time.  Every such run is a
run of the system of programs (`sourced_procs`).  So a machine whose disk has programs of `user/`
alone never stops (`user_programs_run_on`).
-/

namespace Arunos

open User

variable {σ : Type} {L : Layout} {k k' : Kernel σ} {cpu : Context} {a a' : Tasks} {c i : Fin 10}
  {sp sp' : Fin 10 → Option Space} {m m' : Machine σ} {e : Event}

/-! ### The observer -/

/-- The text is in the memory at an address, with a NUL after it. -/
def TextAt (memory : UserMemory) : Nat → List UInt8 → Prop
  | addr, [] => memory addr = some 0
  | addr, x :: text => x ≠ 0 ∧ memory addr = some x ∧ TextAt memory (addr + 1) text

/-- The kernel finds a text that is short enough. -/
theorem TextAt.nameIn {memory : UserMemory} {addr : Nat} {text : List UInt8}
    (ht : TextAt memory addr text) (n : Nat) :
    nameIn memory n addr = if text.length < n then some text else none := by
  induction n generalizing addr text with
  | zero => rfl
  | succ n ih =>
      cases text with
      | nil =>
          rw [Arunos.nameIn, show memory addr = some 0 from ht]
          rfl
      | cons x text =>
          obtain ⟨hx, hbyte, ht⟩ := ht
          rw [Arunos.nameIn, hbyte]
          simp only [hx, if_false, ih ht, List.length_cons, Nat.add_lt_add_iff_right]
          split <;> rfl

/-- The process makes the request: its number and its argument are in the registers. -/
def Request.Made (r : Request) (memory : UserMemory) (cpu : Context) : Prop :=
  cpu .R0 = r.code ∧
    match r with
    | .putch v | .exit v | .wait v => signed (cpu .R1) = v
    | .exec name => cpu .R1 ≠ 0 ∧ TextAt memory (cpu .R1) name
    | _ => True

/-- What the process in `i` finds in `r0` when it runs next. -/
def Machine.result (m : Machine σ) (i : Fin 10) : Int :=
  match m with
  | .user k cpu =>
      signed (if k.currentProcess = some i then cpu .R0 else (k.processTable i).context .R0)
  | .panicked k => signed ((k.processTable i).context .R0)
  | .halted k => signed ((k.processTable i).context .R0)

/-- The observer's notes after a step.  `exec` returns only -1. -/
def note (code : List UInt8 → Option (User Unit)) (S : Fin 10 → Option Session) :
    Machine σ → Event → Machine σ → Fin 10 → Option Session
  | .user k cpu, .trap (.swi _), m' =>
      match k.currentProcess with
      | some c => fun i =>
          if i = c then
            if cpu .R0 = 2 then none
            else if cpu .R0 = 5 ∧ m'.result c ≠ -1 then
              (nameIn (userMemory k c) 13 (cpu .R1)).bind fun name =>
                (code name).map (⟨·, []⟩)
            else (S c).map (·.answer (m'.result c))
          else if statusTable k i = none ∧ statusTable m'.kernel i ≠ none then
            (S c).map (·.answer (m'.result i))
          else S i
      | none => S
  | _, _, _ => S

/-- The event is in keeping with the sources. -/
def FollowsSource (S : Fin 10 → Option Session) : Machine σ → Event → Prop
  | .user k cpu, .trap (.swi _) => ∀ c, k.currentProcess = some c →
      ∃ s r, S c = some s ∧ s.request = some r ∧ r.Made (userMemory k c) cpu
  | _, .trap (.execute _) => False
  | _, _ => True

/-- The runs of the machine that follow the sources, with the observer. -/
def sourced (σ : Type) [BlockDevice σ] (L : Layout) (code : List UInt8 → Option (User Unit)) :
    System (Machine σ × (Fin 10 → Option Session)) Event :=
  ((arunos σ L).observe
    (fun _ => Function.update (fun _ => none) 0 ((code shellName).map (⟨·, []⟩)))
    (note code)).restrict fun x e _ => FollowsSource x.2 x.1 e

/-! ### Answers -/

theorem result_ret {back : Int → Context} {r : Int} (hc : k.currentProcess = some c) :
    (leave back (.ret r) k).result c = signed (back r .R0) := by
  rw [leave, Machine.result, if_pos hc]

theorem result_saved {back : Int → Context} {out : Outcome}
    (ho : ∀ r, out = .ret r → k.currentProcess ≠ some i) :
    (leave back out k).result i = signed ((k.processTable i).context .R0) := by
  cases out with
  | ret r => rw [leave, Machine.result, if_neg (ho r rfl)]
  | panic => rfl
  | halt => rfl
  | resume =>
      rw [leave, switchToContext]
      cases hc : k.currentProcess with
      | none => rfl
      | some d =>
          rw [Machine.result]
          by_cases hd : d = i
          · rw [hd, ite_self]
          · rw [if_neg]
            rw [hc]
            exact fun he => hd (Option.some.inj he)

theorem Kernel.os_context {b : Body} (hb : k.os.body i = some b) :
    (k.processTable i).context = b.context := by
  simp only [Kernel.os] at hb
  split at hb
  · cases hb
  · cases hb
    rfl

/-! ### Calls -/

section Calls

variable {code : List UInt8 → Option (User Unit)} {S : Fin 10 → Option Session} {s : Session}
  {key : Int} {r : Request} {back : Int → Context} {out : Outcome}

/-- The notes when the caller goes on and nobody is created. -/
theorem note_reply (hc : k.currentProcess = some c) (hs : S c = some s)
    (htable : ∀ i ≠ c, statusTable k i = none → statusTable m'.kernel i = none) {v : Int}
    (hresult : m'.result c = v) (h2 : cpu .R0 ≠ 2) (h5 : cpu .R0 = 5 → v = -1) :
    note code S (.user k cpu) (.trap (.swi key)) m' =
      Function.update S c (some (s.answer v)) := by
  funext i
  simp only [note, hc]
  by_cases hi : i = c
  · subst hi
    rw [if_pos rfl, if_neg h2, if_neg (fun h => h.2 (hresult.trans (h5 h.1))), hs, hresult,
      Function.update_self]
    rfl
  · rw [if_neg hi, if_neg fun h => h.2 (htable i hi h.1), Function.update_of_ne hi]

/-- The process in `c` makes the request, and the kernel does what the abstract system says. -/
structure CallEnds (progs : List UInt8 → Option Program) (k : Kernel σ) (c : Fin 10) (cpu : Context)
    (key : Int) (r : Request) (out : Outcome) (k' : Kernel σ) : Prop where
  current : k.currentProcess = some c
  ready : k.tasks.table c = some .ready
  body : k.os.body c = some ⟨userMemory k c, (k.processTable c).context⟩
  made : r.Made (userMemory k c) cpu
  os : (k'.os, out) = (k.os.save c cpu).syscall progs c key r.code (cpu .R1)

variable {progs : List UInt8 → Option Program}

theorem CallEnds.saved (h : CallEnds progs k c cpu key r out k') :
    (k.os.save c cpu).body c = some ⟨userMemory k c, cpu⟩ := by
  simp [Os.save, Os.setBody, h.body]

/-- A call that returns at once. -/
theorem CallEnds.ret (h : CallEnds progs k c cpu key r out k') (hs : S c = some s) {v : Int}
    (hos : (k'.os, out) = (k.os.save c cpu, .ret v)) (h2 : r.code ≠ 2) (h5 : r.code = 5 → v = -1) :
    Procs.mk k'.tasks (note code S (.user k cpu) (.trap (.swi key))
      (leave (Trap.back cpu (.swi key)) out k')) =
      (Procs.mk k.tasks S).reply c s (signed (word v)) := by
  obtain ⟨hk, rfl⟩ := Prod.mk.inj hos
  have htasks : k'.tasks = k.tasks := congrArg Os.tasks hk
  have hc' : k'.currentProcess = some c := (congrArg Tasks.current htasks).trans h.current
  have hresult : (leave (Trap.back cpu (.swi key)) (.ret v) k').result c = signed (word v) := by
    rw [result_ret hc', Trap.back, Function.update_self]
  rw [← h.made.1] at h2 h5
  rw [htasks, note_reply h.current hs ?_ hresult h2 fun hnum => ?_]
  · rfl
  · intro i hi hn
    rw [leave_kernel]
    exact (congrFun (congrArg Tasks.table htasks) i).trans hn
  · rw [h5 hnum]
    rfl

/-- A call after which the tasks decide who runs. -/
theorem CallEnds.suspend (h : CallEnds progs k c cpu key r out k') (hs : S c = some s)
    {p : Tasks × Outcome} (hos : (k'.os, out) = (k.os.save c cpu).after p)
    (htable : ∀ i ≠ c, k.tasks.table i = none → p.1.table i = none) (ho : ∀ v, p.2 ≠ .ret v)
    (h2 : r.code ≠ 2) (h5 : r.code ≠ 5) :
    Procs.mk k'.tasks (note code S (.user k cpu) (.trap (.swi key)) (leave back out k')) =
      { (Procs.mk k.tasks S).reply c s (signed r.code) with tasks := p.1 } := by
  obtain ⟨hk, rfl⟩ := Prod.mk.inj hos
  have htasks : k'.tasks = p.1 := congrArg Os.tasks hk
  have hbody : k'.os.body c = some ⟨userMemory k c, cpu⟩ := by
    rw [hk]
    exact h.saved
  have hresult : (leave back p.2 k').result c = signed r.code := by
    rw [result_saved fun v he => absurd he (ho v), Kernel.os_context hbody, ← h.made.1]
  rw [← h.made.1] at h2 h5
  rw [htasks, note_reply h.current hs ?_ hresult h2 fun hnum => absurd hnum h5]
  · rfl
  · intro i hi hn
    rw [leave_kernel]
    exact (congrFun (congrArg Tasks.table htasks) i).trans (htable i hi hn)

theorem CallEnds.exit {v : Int} (h : CallEnds progs k c cpu key (.exit v) out k') :
    Procs.mk k'.tasks (note code S (.user k cpu) (.trap (.swi key)) (leave back out k')) =
      (Procs.mk k.tasks S).call code c s key (.exit v) := by
  obtain ⟨hk, -⟩ := Prod.mk.inj h.os
  have htasks : k'.tasks = (k.tasks.exit c).1 := congrArg Os.tasks hk
  have hnum : cpu .R0 = 2 := h.made.1
  rw [htasks, Procs.call]
  congr 1
  funext i
  simp only [note, h.current]
  by_cases hi : i = c
  · rw [if_pos hi, if_pos hnum, hi, Function.update_self]
  · rw [if_neg hi, if_neg, Function.update_of_ne hi]
    rintro ⟨hnone, hsome⟩
    rw [leave_kernel] at hsome
    refine hsome ?_
    have htable : statusTable k' i = (k.tasks.exit c).1.table i :=
      congrFun (congrArg Tasks.table htasks) i
    have hexit : (k.tasks.exit c).1.table = (Move.exit c).apply k.tasks.table :=
      Tasks.schedule_table
    rw [htable, hexit, Move.apply, Function.update_of_ne hi, wake_eq_none]
    exact hnone

/-- The notes of a `fork` that gives the child the slot `i`. -/
theorem CallEnds.note_child (hs : S c = some s) (h : CallEnds progs k c cpu key .fork out k')
    (hfree : k.tasks.firstFree = some i) :
    note code S (.user k cpu) (.trap (.swi key)) (leave (Trap.back cpu (.swi key)) out k') =
      Function.update (Function.update S i (some (s.answer 0))) c
        (some (s.answer (i.val + 1))) := by
  have hos : (k'.os, out) = (k.os.save c cpu).fork c := h.os
  have hfree' : (k.os.save c cpu).tasks.firstFree = some i := hfree
  have hfork : k.tasks.fork = (k.tasks.move (.create i), .ret (i.val + 1)) := by
    rw [Tasks.fork, hfree]
  have hfork' : (k.os.save c cpu).tasks.fork = (k.tasks.move (.create i), .ret (i.val + 1)) := hfork
  rw [Os.fork, hfree', hfork', h.saved] at hos
  obtain ⟨hk, rfl⟩ := Prod.mk.inj hos
  have hnum : cpu .R0 = 4 := h.made.1
  have htasks : k'.tasks = k.tasks.move (.create i) := congrArg Os.tasks hk
  have htable : ∀ j, statusTable k' j = Function.update k.tasks.table i (some .ready) j :=
    fun j => congrFun (congrArg Tasks.table htasks) j
  have hc' : k'.currentProcess = some c := (congrArg Tasks.current htasks).trans h.current
  have hnone : statusTable k i = none := Tasks.firstFree_some hfree
  have hci : i ≠ c := by
    rintro rfl
    cases hnone.symm.trans h.ready
  have hbody : k'.os.body i = some (Body.child ⟨userMemory k c, cpu⟩) := by
    rw [hk]
    exact Function.update_self _ _ _
  funext j
  simp only [note, h.current, leave_kernel]
  by_cases hj : j = c
  · subst hj
    rw [if_pos rfl, if_neg (by rw [hnum]; decide), if_neg (by rw [hnum]; simp),
      result_ret hc', Function.update_self, hs, Trap.back, Function.update_self, signed_word]
    rfl
  rw [if_neg hj, Function.update_of_ne hj, htable]
  by_cases hji : j = i
  · subst hji
    rw [if_pos ⟨hnone, by rw [Function.update_self]; simp⟩, Function.update_self, hs, result_saved,
      Kernel.os_context hbody]
    · rfl
    · rintro - - he
      exact hci (Option.some.inj (hc'.symm.trans he)).symm
  · rw [Function.update_of_ne hji, Function.update_of_ne hji, if_neg]
    rintro ⟨hn, hsome⟩
    exact hsome hn

theorem CallEnds.fork (hs : S c = some s) (h : CallEnds progs k c cpu key .fork out k') :
    Procs.mk k'.tasks (note code S (.user k cpu) (.trap (.swi key))
      (leave (Trap.back cpu (.swi key)) out k')) =
      (Procs.mk k.tasks S).call code c s key .fork := by
  have hos : (k'.os, out) = (k.os.save c cpu).fork c := h.os
  rw [Procs.call]
  cases hfree : k.tasks.firstFree with
  | none =>
      have hfree' : (k.os.save c cpu).tasks.firstFree = none := hfree
      rw [Os.fork, hfree', Tasks.fork, hfree'] at hos
      exact h.ret hs hos (by decide) fun _ => rfl
  | some i =>
      have hfree' : (k.os.save c cpu).tasks.firstFree = some i := hfree
      rw [Os.fork, hfree'] at hos
      have htasks : k'.tasks = k.tasks.fork.1 := congrArg (fun x => x.1.tasks) hos
      rw [h.note_child hs hfree, htasks]
      rfl

/-- The notes of an `exec` that starts a program. -/
theorem CallEnds.note_start {name : List UInt8} {prog : Program} {program : User Unit}
    (h : CallEnds progs k c cpu key (.exec name) out k') (hlen : name.length < 13)
    (hcode : code name = some program)
    (hos : (k'.os, out) = ((k.os.save c cpu).setBody c (some prog.start), .resume)) :
    note code S (.user k cpu) (.trap (.swi key)) (leave back out k') =
      Function.update S c (some ⟨program, []⟩) := by
  obtain ⟨hk, rfl⟩ := Prod.mk.inj hos
  obtain ⟨hnum, -, htext⟩ := h.made
  replace hnum : cpu .R0 = 5 := hnum
  have htasks : k'.tasks = k.tasks := congrArg Os.tasks hk
  have hbody : k'.os.body c = some prog.start := by
    rw [hk]
    exact Function.update_self _ _ _
  have hresult : (leave back .resume k').result c = 0 := by
    rw [result_saved (by simp), Kernel.os_context hbody]
    rfl
  funext i
  simp only [Arunos.note, h.current]
  by_cases hi : i = c
  · rw [if_pos hi, if_neg (by rw [hnum]; decide), if_pos ⟨hnum, by rw [hresult]; decide⟩,
      htext.nameIn, if_pos hlen, Option.bind_some, hcode, hi, Function.update_self]
    rfl
  · rw [if_neg hi, if_neg, Function.update_of_ne hi]
    rintro ⟨hn, hsome⟩
    rw [leave_kernel] at hsome
    exact hsome ((congrFun (congrArg Tasks.table htasks) i).trans hn)

theorem CallEnds.exec {name : List UInt8} (hcode : ∀ name, progs name = none ↔ code name = none)
    (hs : S c = some s) (h : CallEnds progs k c cpu key (.exec name) out k') :
    Procs.mk k'.tasks (note code S (.user k cpu) (.trap (.swi key))
      (leave (Trap.back cpu (.swi key)) out k')) =
      (Procs.mk k.tasks S).call code c s key (.exec name) := by
  have hos : (k'.os, out) = (k.os.save c cpu).exec progs c (cpu .R1) := h.os
  obtain ⟨-, haddr, htext⟩ := h.made
  rw [Os.exec, if_neg haddr, h.saved, Option.bind_some, htext.nameIn 13] at hos
  have hfail : (k'.os, out) = (k.os.save c cpu, .ret (-1)) →
      Procs.mk k'.tasks (note code S (.user k cpu) (.trap (.swi key))
        (leave (Trap.back cpu (.swi key)) out k')) = (Procs.mk k.tasks S).reply c s (-1) :=
    fun hos => h.ret hs hos (by simp [Request.code]) fun _ => rfl
  rw [Procs.call]
  by_cases hlen : name.length < 13
  · rw [if_pos hlen] at hos
    rw [if_pos (Nat.le_of_lt_succ hlen)]
    replace hos : (k'.os, out) = (k.os.save c cpu).load progs c name := hos
    have hfree' : (k.os.save c cpu).tasks.firstFree = k.tasks.firstFree := rfl
    rw [Os.load, hfree'] at hos
    cases hprog : progs name with
    | none =>
        rw [(hcode name).mp hprog]
        rw [hprog] at hos
        exact hfail hos
    | some prog =>
        obtain ⟨program, hprogram⟩ := Option.ne_none_iff_exists'.mp
          (mt (hcode name).mpr (by rw [hprog]; simp))
        rw [hprogram]
        cases hfree : k.tasks.firstFree with
        | none =>
            rw [hprog, hfree] at hos
            exact hfail hos
        | some i =>
            rw [hprog, hfree] at hos
            have htasks : k'.tasks = k.tasks := congrArg (fun x => x.1.tasks) hos
            rw [h.note_start hlen hprogram hos, htasks]
  · rw [if_neg hlen] at hos
    rw [if_neg (by omega)]
    exact hfail hos

theorem Tasks.wait_cases (a : Tasks) (c : Fin 10) (id : Int) :
    a.wait c id = (a, .ret 0) ∨ ∃ d, a.wait c id = (a.move (.wait c d)).schedule := by
  rw [Tasks.wait]
  split
  next d hd =>
    split
    · exact .inr ⟨d, rfl⟩
    · exact .inl rfl
  · exact .inl rfl

theorem CallEnds.wait {id : Int} (hs : S c = some s)
    (h : CallEnds progs k c cpu key (.wait id) out k') :
    Procs.mk k'.tasks (note code S (.user k cpu) (.trap (.swi key))
      (leave (Trap.back cpu (.swi key)) out k')) =
      (Procs.mk k.tasks S).call code c s key (.wait id) := by
  have hos : (k'.os, out) = (k.os.save c cpu).wait c (signed (cpu .R1)) := h.os
  have harg : signed (cpu .R1) = id := h.made.2
  have htasks : (k.os.save c cpu).tasks = k.tasks := rfl
  rw [harg, Os.wait, htasks] at hos
  rw [Procs.call]
  dsimp only
  rcases k.tasks.wait_cases c id with hw | ⟨d, hw⟩
  · rw [hw] at hos ⊢
    exact h.ret hs hos (by simp [Request.code]) (by simp [Request.code])
  · rw [hw] at hos ⊢
    rw [if_neg (Tasks.schedule_ne_ret _ 0)]
    refine h.suspend hs hos (fun i hi hn => ?_) (Tasks.schedule_ne_ret _)
      (by simp [Request.code]) (by simp [Request.code])
    rw [Tasks.schedule_table, Tasks.move, Move.apply]
    exact (Function.update_of_ne hi _ _).trans hn

/-- The call of a process is the call of its program. -/
theorem CallEnds.note (hcode : ∀ name, progs name = none ↔ code name = none) (hs : S c = some s)
    (h : CallEnds progs k c cpu key r out k') :
    Procs.mk k'.tasks (note code S (.user k cpu) (.trap (.swi key))
      (leave (Trap.back cpu (.swi key)) out k')) = (Procs.mk k.tasks S).call code c s key r := by
  cases r with
  | putch v => exact h.ret hs h.os (by simp [Request.code]) (by simp [Request.code])
  | getch => exact h.ret hs h.os (by decide) fun h5 => by cases h5
  | dir => exact h.ret hs h.os (by decide) (by decide)
  | getpid =>
      rw [Procs.call, ← signed_word]
      exact h.ret hs h.os (by decide) fun h5 => by cases h5
  | exit v => exact h.exit
  | fork => exact h.fork hs
  | exec name => exact h.exec hcode hs
  | yield =>
      refine h.suspend hs h.os (fun i _ hn => ?_) (Tasks.schedule_ne_ret _) (by decide) (by decide)
      rw [Tasks.schedule_table]
      exact hn
  | wait id => exact h.wait hs

end Calls

/-! ### Runs -/

section Runs

variable [BlockDevice σ] {code : List UInt8 → Option (User Unit)} {S : Fin 10 → Option Session}
  {progs : List UInt8 → Option Program} {v : Volume}

/-- The machine is in a state of some tasks with the volume `v` mounted, and the programs are as the
observer has noted. -/
def Keeping (L : Layout) (v : Volume) (code : List UInt8 → Option (User Unit)) (m : Machine σ)
    (S : Fin 10 → Option Session) : Prop :=
  (∃ a sp, InTasks L a sp m ∧ m.kernel.fat = v) ∧ (procs code).Reachable ⟨m.kernel.tasks, S⟩

theorem sourced_step (h : (sourced σ L code).Reachable (m, S)) (hs : step L m e = some m')
    (hf : FollowsSource S m e) : (sourced σ L code).Reachable (m', note code S m e m') :=
  h.step ⟨⟨hs, rfl⟩, hf⟩

/-- One step. -/
theorem Keeping.step (hv : Provides σ v False progs)
    (hcode : ∀ name, progs name = none ↔ code name = none) (h : Keeping L v code m S)
    (hs : step L m e = some m') (hf : FollowsSource S m e) :
    Keeping L v code m' (note code S m e m') := by
  obtain ⟨⟨a, sp, hin, rfl⟩, hreach⟩ := h
  cases hin with
  | panicked hruns hstuck => cases hs
  | @user k cpu c hruns hc hr =>
      cases e with
      | work cpu' =>
          simp only [Arunos.step, Option.ite_none_right_eq_some] at hs
          obtain ⟨-, ⟨⟩⟩ := hs
          exact ⟨⟨a, sp, .user c hruns hc hr, rfl⟩, hreach⟩
      | store virtual x =>
          obtain ⟨addr, haddr, rfl⟩ := Option.map_eq_some_iff.mp hs
          exact ⟨⟨a, sp, .user c (hruns.store hc hr haddr x) hc hr, rfl⟩, hreach⟩
      | trap t =>
          obtain ⟨out, k', a', sp', hs', hruns', hset, hos, hfat⟩ :=
            exists_trap_os t cpu hruns hc hr hv
          cases hs'.symm.trans hs
          refine ⟨⟨a', sp', hset.inTasks hruns' _, (leave_fat _ _ _).trans hfat⟩, ?_⟩
          have htasks : k.tasks = a := hruns.tasks
          have hcur : k.tasks.current = some c := htasks ▸ hc
          have hready : k.tasks.table c = some .ready := htasks ▸ hr
          rw [leave_kernel]
          cases t with
          | swi key =>
              obtain ⟨s, r, hS, hreq, hmade⟩ := hf c hcur
              have hlive : (k.processTable c).state ≠ .UNUSED := by
                rw [Ne, (hruns.view c).unused_iff, hr]
                simp
              have hends : CallEnds progs k c cpu key r out k' :=
                ⟨hcur, hready, if_neg hlive, hmade, hmade.1 ▸ hos⟩
              rw [hends.note hcode hS]
              exact hreach.step (e := some key) ⟨c, hcur, hready, s, r, hS, hreq, rfl⟩
          | timer =>
              have htick : k'.tasks = k.tasks.schedule.1 := congrArg (fun x => x.1.tasks) hos
              rw [htick]
              exact hreach.step (e := none) ⟨c, hcur, hready, rfl⟩
          | uart =>
              have hsame : k'.tasks = k.tasks := congrArg (fun x => x.1.tasks) hos
              rw [hsame]
              exact hreach
          | execute name => exact hf.elim

/-- The start. -/
theorem Keeping.init (hready : ∀ d : σ, (blockInit d).1 = true)
    (hmount : ∀ d : σ, ∃ d', fatInit .zero d = (true, v, d')) (hv : Provides σ v False progs)
    (hcode : ∀ name, progs name = none ↔ code name = none) {program : User Unit}
    (hshell : code shellName = some program) (hm : (arunos σ L).init m) :
    Keeping L v code m
      (Function.update (fun _ => none) 0 ((code shellName).map (Session.mk · []))) := by
  obtain ⟨prog, hprog⟩ := Option.ne_none_iff_exists'.mp
    (mt (hcode shellName).mp (by rw [hshell]; simp))
  obtain ⟨ram, dev, out, k, hrun, rfl⟩ := hm
  obtain ⟨hview, hmounted⟩ := (wp_cEntry_os ram dev hready hmount hv).elim hrun
  rw [Os.boot, hprog] at hview
  rcases hmounted with ⟨a, sp, hin, hfat⟩ | ⟨k', hk'⟩
  · refine ⟨⟨a, sp, hin, hfat⟩, .init ⟨program, hshell, ?_⟩⟩
    rw [hshell, Option.map_some, Procs.boot]
    congr 1
    cases hm : leave (fun _ _ => 0) out k with
    | user k' cpu =>
        rw [hm, Machine.view] at hview
        injection hview with hos
        exact congrArg Os.tasks hos
    | panicked k' =>
        rw [hm] at hview
        cases hview
    | halted k' =>
        rw [hm] at hview
        cases hview
  · rw [hk'] at hview
    cases hview

/-- **Every run that follows the sources is a run of the programs.** -/
theorem sourced_procs (hready : ∀ d : σ, (blockInit d).1 = true)
    (hmount : ∀ d : σ, ∃ d', fatInit .zero d = (true, v, d')) (hv : Provides σ v False progs)
    (hcode : ∀ name, progs name = none ↔ code name = none) {program : User Unit}
    (hshell : code shellName = some program) (h : (sourced σ L code).Reachable (m, S)) :
    Keeping L v code m S :=
  h.observed_invariant (fun _ hm => .init hready hmount hv hcode hshell hm)
    fun _ _ _ _ hk hs hf => hk.step hv hcode hs hf

end Runs

/-! ### The programs of the disk -/

/-- What the arrays `command` of the shell and `s` of `hi_test` hold at the start. -/
structure Arrays where
  command : Vector UInt8 128
  s : Vector UInt8 128

/-- The programs that `user/build.mk` puts on the disk, by their names. -/
def userPrograms (fill : Arrays) : List (List UInt8 × User Unit) :=
  [(bytes "shell", shell fill.command), (bytes "hi_test", hiTest fill.s),
    (bytes "fk_test", fkTest), (bytes "ex_test", exTest), (bytes "co_test", coTest)]

/-- The program of `user/` that a name stands for. -/
def userProgram (fill : Arrays) (name : List UInt8) : Option (User Unit) :=
  ((userPrograms fill).find? fun p => shortName (some p.1) = shortName (some name)).map Prod.snd

theorem tame_userProgram {fill : Arrays} {name : List UInt8} {program : User Unit}
    (h : userProgram fill name = some program) : Tame program := by
  obtain ⟨p, hp, rfl⟩ := Option.map_eq_some_iff.mp h
  have hmem := List.mem_of_find?_eq_some hp
  simp only [userPrograms, List.mem_cons, List.not_mem_nil, or_false] at hmem
  rcases hmem with rfl | rfl | rfl | rfl | rfl
  · exact tame_shell fill.command
  · exact tame_hiTest fill.s
  · exact tame_fkTest
  · exact tame_exTest
  · exact tame_coTest

/-- The programs of a disk, as the sources have them. -/
def diskProgram (img : Nat → Bytes) (v : Volume) (fill : Arrays) (name : List UInt8) :
    Option (User Unit) :=
  (programNamed img v name).bind fun _ => userProgram fill name

section Disk

variable [BlockDevice σ] {S : Fin 10 → Option Session} {v : Volume}

/-- **The programs of `user/` never stop the machine.**  Let the programs on the disk have the names
of programs of `user/`, with the shell among them, and take any run in which the processes make the
system calls their sources make, with anything typed and interrupts at any time.  The machine is
then at work for a process, the shell is there, and the next trap ends. -/
theorem user_programs_run_on {img : Nat → Bytes} {n : Nat} (hd : Serves σ img n)
    (hready : ∀ d : σ, (blockInit d).1 = true) {d₀ d₁ : σ}
    (hmount : fatInit .zero d₀ = (true, v, d₁)) (fill : Arrays)
    (hshell : programNamed img v shellName ≠ none)
    (hfiles : ∀ name, programNamed img v name ≠ none → userProgram fill name ≠ none)
    (h : (sourced σ L (diskProgram img v fill)).Reachable (m, S)) :
    ∃ k cpu, m = .user k cpu ∧ (k.processTable 0).state ≠ .UNUSED ∧
      ∀ t, ∃ m', step L m (.trap t) = some m' := by
  have hv := hd.provides hmount
  have hcode : ∀ name, programNamed img v name = none ↔ diskProgram img v fill name = none := by
    intro name
    constructor
    · intro hnone
      rw [diskProgram, hnone]
      rfl
    · intro hnone
      by_contra hsome
      obtain ⟨prog, hprog⟩ := Option.ne_none_iff_exists'.mp hsome
      rw [diskProgram, hprog, Option.bind_some] at hnone
      exact hfiles name hsome hnone
  have hshell' : diskProgram img v fill shellName = some (shell fill.command) := by
    obtain ⟨prog, hprog⟩ := Option.ne_none_iff_exists'.mp hshell
    rw [diskProgram, hprog, Option.bind_some]
    rfl
  have htame : ∀ name program, diskProgram img v fill name = some program → Tame program := by
    intro name program hp
    obtain ⟨prog, -, hp⟩ := Option.bind_eq_some_iff.mp hp
    exact tame_userProgram hp
  obtain ⟨⟨a, sp, hin, hfat⟩, hreach⟩ :=
    sourced_procs hready (fatInit_serves hd hmount) hv hcode hshell' h
  obtain ⟨hlive, i, hi⟩ := procs_ready htame hshell' hreach
  have htasks : m.kernel.tasks = a := hin.runs.tasks
  rw [htasks] at hlive hi
  cases hin with
  | panicked hruns hstuck => exact absurd hi (hstuck i)
  | @user k cpu c hruns hc hr =>
      refine ⟨k, cpu, rfl, mt (hruns.view 0).unused_iff.mp hlive, fun t => ?_⟩
      obtain ⟨out, k', -, -, hstep, -⟩ := exists_trap_os t cpu hruns hc hr (hfat ▸ hv)
      exact ⟨_, hstep⟩

/-- The one program of `shellDisk` is the shell. -/
theorem userProgram_shellDisk (fill : Arrays) {name : List UInt8}
    (h : programNamed shellDisk.bytes shellVolume name ≠ none) : userProgram fill name ≠ none := by
  obtain ⟨prog, hprog⟩ := Option.ne_none_iff_exists'.mp h
  obtain ⟨file, hfile, hprog⟩ := Option.bind_eq_some_iff.mp hprog
  obtain ⟨key, hkey, hslot⟩ := Option.bind_eq_some_iff.mp hfile
  obtain ⟨i, hi, hfile⟩ := Option.bind_eq_some_iff.mp hslot
  rw [slotNamed, listed_shellDisk] at hi
  have hnamed := List.find?_some hi
  rcases List.mem_pair.mp (List.mem_of_find?_eq_some hi) with rfl | rfl
  · have hname : shortName (some (bytes "shell")) = shortName (some name) := by
      rw [hkey, ← of_decide_eq_true hnamed]
      decide +kernel
    rw [userProgram, userPrograms, List.find?_cons_of_pos (by simpa using hname)]
    simp
  · -- the other file is `bad`
    have hbad : fileOf shellDisk.bytes shellVolume (rootSlot shellDisk.bytes shellVolume 1) =
        some ⟨88, 3⟩ := by decide +kernel
    cases hbad.symm.trans hfile
    have hnone : programOf (fileByte shellDisk.bytes shellVolume 3) 88 = none := by decide +kernel
    cases hnone.symm.trans hprog

/-- What the arrays of the programs of `shellDisk` hold at the start. -/
def zeroArrays : Arrays := ⟨.replicate 128 0, .replicate 128 0⟩

/-- The programs of `shellDisk` as the sources have them. -/
def shellCode : List UInt8 → Option (User Unit) :=
  diskProgram shellDisk.bytes shellVolume zeroArrays

theorem shellCode_shell : shellCode shellName = some (shell zeroArrays.command) := by
  obtain ⟨prog, hprog⟩ := Option.isSome_iff_exists.mp
    (show (programNamed shellDisk.bytes shellVolume shellName).isSome = true by decide +kernel)
  rw [shellCode, diskProgram, hprog, Option.bind_some]
  rfl

/-- The shell of `shellDisk` prints the first character of its banner. -/
theorem exists_first_putch : ∃ (k : Kernel shellDisk.Reader) (cpu : Context)
      (S : Fin 10 → Option Session),
    (sourced shellDisk.Reader smallLayout shellCode).Reachable (.user k cpu, S) ∧
      S 0 = some ⟨shell zeroArrays.command, [0]⟩ := by
  obtain ⟨k, cpu₀, sp, hi, hin⟩ := exists_inTasks
  have hruns : Runs smallLayout k .initial sp := hin.runs
  have hcur : k.currentProcess = some 0 := hruns.current
  let cpu : Context := Function.update (Function.update cpu₀ .R0 0) .R1 10
  let S : Fin 10 → Option Session :=
    Function.update (fun _ => none) 0 ((shellCode shellName).map (Session.mk · []))
  have hS : S 0 = some ⟨shell zeroArrays.command, []⟩ := by
    simp only [S, Function.update_self, shellCode_shell, Option.map_some]
  have h₀ : (sourced shellDisk.Reader smallLayout shellCode).Reachable (.user k cpu₀, S) :=
    .init ⟨hi, rfl⟩
  have hwork : step smallLayout (.user k cpu₀) (.work cpu) = some (.user k cpu) := if_pos rfl
  have hputch : step smallLayout (.user k cpu) (.trap (.swi 0)) =
      some (.user (saveContext k cpu) (Function.update cpu .R0 0)) := rfl
  have hfirst : Session.request ⟨shell zeroArrays.command, []⟩ = some (.putch 10) := by
    decide +kernel
  have hfollows : FollowsSource S (.user k cpu) (.trap (.swi 0)) := by
    intro c hc
    obtain rfl : 0 = c := Option.some.inj (hcur.symm.trans hc)
    exact ⟨_, _, hS, hfirst, rfl, rfl⟩
  refine ⟨_, _, _, sourced_step (sourced_step h₀ hwork trivial) hputch hfollows, ?_⟩
  have hcode : cpu .R0 = 0 := rfl
  have hcur' : (saveContext k cpu).currentProcess = some 0 := (hruns.saveContext rfl cpu).1.current
  have hresult : (Machine.user (saveContext k cpu) (Function.update cpu .R0 0)).result 0 = 0 := by
    rw [Machine.result, if_pos hcur', Function.update_self]
    rfl
  simp only [note, hcur, hcode, hS, hresult, if_true, Option.map_some]
  rfl

/-- The shell makes its first call, and is there after it. -/
theorem user_programs_run_on_shell : ∃ (m : Machine shellDisk.Reader) (S : Fin 10 → Option Session)
      (k : Kernel shellDisk.Reader) (cpu : Context),
    (sourced shellDisk.Reader smallLayout shellCode).Reachable (m, S) ∧
      S 0 = some ⟨shell zeroArrays.command, [0]⟩ ∧
      m = .user k cpu ∧ (k.processTable 0).state ≠ .UNUSED ∧
      ∀ t, ∃ m', step smallLayout m (.trap t) = some m' := by
  obtain ⟨k, cpu, S, hr, hS⟩ := exists_first_putch
  have hshell : programNamed shellDisk.bytes shellVolume shellName ≠ none :=
    Option.isSome_iff_ne_none.mp (by decide +kernel)
  obtain ⟨k', cpu', hrest⟩ := user_programs_run_on shellDisk.serves (fun _ => rfl)
    fatInit_shellDisk zeroArrays hshell (fun _ => userProgram_shellDisk zeroArrays) hr
  exact ⟨_, S, k', cpu', hr, hS, hrest⟩

end Disk

end Arunos
