import Arunos.Machine.Simulation

/-!
# Machine — Noninterference — what one process can learn of the others

Two machines are alike for the process in `c` if it has the same memory and registers in both and
the tasks — who exists, who waits for whom, whose turn it is — are the same.  The other processes
may have different memories, registers and programs.

Take two runs in which the others do what they like between traps, each in its own way and as often
as it likes, but make the same system calls; and the process in `c` does the same in both.  As long
as it lives, the machines stay alike (`others_invisible`).  So the numbers and arguments of system
calls, and the schedule, are all that a process can learn of another one: no byte of memory, no
register and no name given to `exec` gets through.

The argument is made for the abstract system, which the kernel implements.
-/

namespace Arunos

variable {c d i : Fin 10}

/-! ### The abstract system -/

/-- The tasks are the same, and so is the process in `c`. -/
structure Os.Alike (c : Fin 10) (os₁ os₂ : Os) : Prop where
  tasks : os₁.tasks = os₂.tasks
  body : os₁.body c = os₂.body c

/-- The process in `c` sees no difference. -/
inductive OsMachine.Alike (c : Fin 10) : OsMachine → OsMachine → Prop where
  | user {os₁ os₂ : Os} {cpu₁ cpu₂ : Context} (os : os₁.Alike c os₂)
      (cpu : os₁.tasks.current = some c → cpu₁ = cpu₂) : Alike c (.user os₁ cpu₁) (.user os₂ cpu₂)
  | panicked {os₁ os₂ : Os} (os : os₁.Alike c os₂) : Alike c (.panicked os₁) (.panicked os₂)
  | halted : Alike c .halted .halted

namespace Os

variable {os₁ os₂ : Os} {b₁ b₂ : Option Body} {cpu₁ cpu₂ : Context}
  (progs : List UInt8 → Option Program)

/-- A process is in a slot if the tasks have one there. -/
def Full (os : Os) : Prop := ∀ i, os.body i = none ↔ os.tasks.table i = none

theorem Alike.after (h : os₁.Alike c os₂) (r : Tasks × Outcome) :
    (os₁.after r).1.Alike c (os₂.after r).1 := ⟨rfl, h.body⟩

theorem Alike.refl (c : Fin 10) (os : Os) : os.Alike c os := ⟨rfl, rfl⟩

theorem Alike.symm (h : os₁.Alike c os₂) : os₂.Alike c os₁ := ⟨h.tasks.symm, h.body.symm⟩

theorem Alike.trans {os₃ : Os} (h : os₁.Alike c os₂) (h' : os₂.Alike c os₃) : os₁.Alike c os₃ :=
  ⟨h.tasks.trans h'.tasks, h.body.trans h'.body⟩

/-- Another slot changes. -/
theorem Alike.setBody_of_ne (h : os₁.Alike c os₂) (hi : c ≠ i) :
    (os₁.setBody i b₁).Alike c (os₂.setBody i b₂) := by
  refine ⟨h.tasks, ?_⟩
  simp only [Os.setBody, Function.update_of_ne hi, h.body]

theorem Alike.setBody (h : os₁.Alike c os₂) (i : Fin 10) (b : Option Body) :
    (os₁.setBody i b).Alike c (os₂.setBody i b) := by
  refine ⟨h.tasks, ?_⟩
  by_cases hi : c = i
  · simp only [Os.setBody, hi, Function.update_self]
  · simp only [Os.setBody, Function.update_of_ne hi, h.body]

/-- The slot for a new process is not the one of a process that lives. -/
theorem firstFree_ne (hl : os₁.tasks.table c ≠ none) (hi : os₁.tasks.firstFree = some i) :
    c ≠ i := by
  rintro rfl
  exact hl (Tasks.firstFree_some hi)

theorem Alike.save_of_ne (h : os₁.Alike c os₂) (cpu₁ cpu₂ : Context) (hd : c ≠ d) :
    (os₁.save d cpu₁).Alike c (os₂.save d cpu₂) := h.setBody_of_ne hd

theorem Alike.save (h : os₁.Alike c os₂) (cpu : Context) :
    (os₁.save c cpu).Alike c (os₂.save c cpu) := by
  rw [Os.save, Os.save, h.body]
  exact h.setBody c _

theorem Alike.schedule (h : os₁.Alike c os₂) :
    os₁.schedule.1.Alike c os₂.schedule.1 ∧ os₁.schedule.2 = os₂.schedule.2 := by
  rw [Os.schedule, Os.schedule, h.tasks]
  exact ⟨h.after _, rfl⟩

theorem Alike.execute (h : os₁.Alike c os₂) (name : List UInt8) :
    (os₁.execute progs name).1.Alike c (os₂.execute progs name).1 ∧
      (os₁.execute progs name).2 = (os₂.execute progs name).2 := by
  simp only [Os.execute, ← h.tasks]
  cases hi : os₁.tasks.firstFree with
  | none => exact ⟨h, rfl⟩
  | some i =>
      dsimp only
      split
      · exact ⟨(h.setBody i _).after _, rfl⟩
      · exact ⟨h, rfl⟩

theorem Alike.fork (h : os₁.Alike c os₂) (hl : os₁.tasks.table c ≠ none) (d : Fin 10) :
    (os₁.fork d).1.Alike c (os₂.fork d).1 ∧ (os₁.fork d).2 = (os₂.fork d).2 := by
  simp only [Os.fork, ← h.tasks]
  cases hi : os₁.tasks.firstFree with
  | none => exact ⟨h.after _, rfl⟩
  | some i => exact ⟨(h.setBody_of_ne (firstFree_ne hl hi)).after _, rfl⟩

/-- A system call of the process in `c` itself. -/
theorem Alike.syscall_own (h : os₁.Alike c os₂) (hl : os₁.tasks.table c ≠ none) (key : Int)
    (code arg1 : Nat) :
    (os₁.syscall progs c key code arg1).1.Alike c (os₂.syscall progs c key code arg1).1 ∧
      (os₁.syscall progs c key code arg1).2 = (os₂.syscall progs c key code arg1).2 := by
  unfold Os.syscall
  split
  · exact ⟨h, rfl⟩
  · exact ⟨h, rfl⟩
  · rw [Os.exit, Os.exit, h.tasks]
    exact ⟨(h.setBody c none).after _, rfl⟩
  · exact ⟨h, rfl⟩
  · exact h.fork hl c
  · -- the name is read from the same memory
    rw [Os.exec, Os.exec, h.body]
    split
    · exact ⟨h, rfl⟩
    · simp only [Os.load, h.tasks]
      split
      · exact ⟨h.setBody c _, rfl⟩
      · exact ⟨h, rfl⟩
  · exact h.schedule
  · rw [Os.wait, Os.wait, h.tasks]
    exact ⟨h.after _, rfl⟩
  · exact ⟨h, rfl⟩
  · exact ⟨h, rfl⟩

/-- A trap of the process in `c` itself. -/
theorem Alike.trap_own (h : os₁.Alike c os₂) (hl : os₁.tasks.table c ≠ none) (cpu : Context)
    (t : Trap) :
    (os₁.trap progs c cpu t).1.Alike c (os₂.trap progs c cpu t).1 ∧
      (os₁.trap progs c cpu t).2 = (os₂.trap progs c cpu t).2 := by
  cases t with
  | swi key => exact h.syscall_own progs hl key _ _
  | timer => exact h.schedule
  | uart => exact ⟨h, rfl⟩
  | execute name => exact h.execute progs name

/-- An `exec` of another process changes that process only. -/
theorem exec_alike (os : Os) (hd : c ≠ d) (userName : Nat) :
    (os.exec progs d userName).1.Alike c os ∧ (os.exec progs d userName).2 ≠ .panic := by
  unfold Os.exec
  split
  · exact ⟨.refl c os, by simp⟩
  · unfold Os.load
    split
    · refine ⟨⟨rfl, ?_⟩, by simp⟩
      simp only [Os.setBody, Function.update_of_ne hd]
    · exact ⟨.refl c os, by simp⟩

/-- A system call of another process, from whatever memory. -/
theorem Alike.syscall_other (h : os₁.Alike c os₂) (hl : os₁.tasks.table c ≠ none) (hd : c ≠ d)
    (key : Int) (code arg1 : Nat) :
    (os₁.syscall progs d key code arg1).1.Alike c (os₂.syscall progs d key code arg1).1 ∧
      ((os₁.syscall progs d key code arg1).2 = .panic ↔
        (os₂.syscall progs d key code arg1).2 = .panic) := by
  have same : ∀ {r₁ r₂ : Os × Outcome}, r₁.1.Alike c r₂.1 ∧ r₁.2 = r₂.2 →
      r₁.1.Alike c r₂.1 ∧ (r₁.2 = .panic ↔ r₂.2 = .panic) := fun h => ⟨h.1, by rw [h.2]⟩
  unfold Os.syscall
  split
  · exact same ⟨h, rfl⟩
  · exact same ⟨h, rfl⟩
  · rw [Os.exit, Os.exit, h.tasks]
    exact same ⟨(h.setBody d none).after _, rfl⟩
  · exact same ⟨h, rfl⟩
  · exact same (h.fork hl d)
  · -- one may succeed where the other fails
    obtain ⟨h₁, hp₁⟩ := exec_alike progs os₁ hd arg1
    obtain ⟨h₂, hp₂⟩ := exec_alike progs os₂ hd arg1
    exact ⟨(h₁.trans h).trans h₂.symm, by simp [hp₁, hp₂]⟩
  · exact same h.schedule
  · rw [Os.wait, Os.wait, h.tasks]
    exact same ⟨h.after _, rfl⟩
  · exact same ⟨h, rfl⟩
  · exact same ⟨h, rfl⟩

/-- A trap of another process, from whatever memory and registers. -/
theorem Alike.trap_other (h : os₁.Alike c os₂) (hl : os₁.tasks.table c ≠ none) (hd : c ≠ d)
    (h₀ : cpu₁ .R0 = cpu₂ .R0) (h₁ : cpu₁ .R1 = cpu₂ .R1) (t : Trap) :
    (os₁.trap progs d cpu₁ t).1.Alike c (os₂.trap progs d cpu₂ t).1 ∧
      ((os₁.trap progs d cpu₁ t).2 = .panic ↔ (os₂.trap progs d cpu₂ t).2 = .panic) := by
  cases t with
  | swi key =>
      simp only [Os.trap, h₀, h₁]
      exact h.syscall_other progs hl hd key _ _
  | timer => exact ⟨h.schedule.1, by simp only [Os.trap, h.schedule.2]⟩
  | uart => exact ⟨h, Iff.rfl⟩
  | execute name =>
      obtain ⟨ha, ho⟩ := h.execute progs name
      exact ⟨ha, by simp only [Os.trap, ho]⟩

/-- Where a trap of the process in `d` ends that does not stop the machine: with the result of the
call, or with the saved registers of the process that runs. -/
theorem Full.leave {os : Os} {out : Outcome} (hf : os.Full) (hs : Tasks.Settled d os.tasks out)
    (hp : out ≠ .panic) (back : Int → Context) :
    ∃ cpu, Os.leave back (os, out) = .user os cpu ∧
      ((∃ r, out = .ret r ∧ os.tasks.current = some d ∧ cpu = back r) ∨
        ∃ i b, out = .resume ∧ os.tasks.current = some i ∧ os.body i = some b ∧
          cpu = b.context) := by
  cases hs with
  | ret r hc ht => exact ⟨back r, rfl, .inl ⟨r, rfl, hc, rfl⟩⟩
  | panic => exact absurd rfl hp
  | resume i hc ht =>
      obtain ⟨b, hb⟩ := Option.ne_none_iff_exists'.mp fun e => by
        rw [(hf i).mp e] at ht
        cases ht
      refine ⟨b.context, ?_, .inr ⟨i, b, rfl, hc, hb, rfl⟩⟩
      rw [Os.leave, hc, Option.bind_some, hb]

/-- **The machines are alike after a trap.** -/
theorem Alike.leave {o₁ o₂ : Outcome} {back₁ back₂ : Int → Context} (h : os₁.Alike c os₂)
    (hf₁ : os₁.Full) (hf₂ : os₂.Full) (hs₁ : Tasks.Settled d os₁.tasks o₁)
    (hs₂ : Tasks.Settled d os₂.tasks o₂) (hp : o₁ = .panic ↔ o₂ = .panic)
    (hown : c = d → o₁ = o₂ ∧ back₁ = back₂) :
    (Os.leave back₁ (os₁, o₁)).Alike c (Os.leave back₂ (os₂, o₂)) := by
  by_cases hp₁ : o₁ = .panic
  · rw [hp₁, hp.mp hp₁]
    exact .panicked h
  obtain ⟨cpu₁, hl₁, hc₁⟩ := hf₁.leave hs₁ hp₁ back₁
  obtain ⟨cpu₂, hl₂, hc₂⟩ := hf₂.leave hs₂ (mt hp.mpr hp₁) back₂
  rw [hl₁, hl₂]
  refine .user h fun hcur => ?_
  have hcur₂ : os₂.tasks.current = some c := h.tasks ▸ hcur
  rcases hc₁ with ⟨r, rfl, hd, rfl⟩ | ⟨i, b, rfl, hi, hb, rfl⟩
  · -- the call has returned to `c`, so it was its own
    obtain ⟨rfl, rfl⟩ := hown (Option.some.inj (hcur.symm.trans hd))
    rcases hc₂ with ⟨r', ⟨⟩, -, rfl⟩ | ⟨-, -, ⟨⟩, -⟩
    rfl
  · obtain rfl : c = i := Option.some.inj (hcur.symm.trans hi)
    rcases hc₂ with ⟨r, rfl, hd, -⟩ | ⟨j, b', -, hj, hb', rfl⟩
    · cases (hown (Option.some.inj (hcur₂.symm.trans hd))).1
    · obtain rfl : c = j := Option.some.inj (hcur₂.symm.trans hj)
      cases (hb.symm.trans h.body).trans hb'
      rfl

end Os

/-! ### Two runs of the machine -/

variable {σ : Type} {L : Layout} {v : Volume} {k k₁ k₂ : Kernel σ} {a : Tasks}
  {sp sp₁ sp₂ : Fin 10 → Option Space} {m₁ m₂ m₁' m₂' : Machine σ} {e : Event}
  {progs : List UInt8 → Option Program}

theorem Runs.full (h : Runs L k a sp) : k.os.Full := by
  intro i
  rw [show k.os.tasks = a from h.tasks, h.body, Option.map_eq_none_iff, h.live]

/-- A process other than the one in `c` computes or stores. -/
inductive Inner (c : Fin 10) : Machine σ → Event → Prop where
  | work {k : Kernel σ} {cpu : Context} (h : k.currentProcess ≠ some c) (cpu' : Context) :
      Inner c (.user k cpu) (.work cpu')
  | store {k : Kernel σ} {cpu : Context} (h : k.currentProcess ≠ some c) (virtual : Nat)
      (x : UInt8) : Inner c (.user k cpu) (.store virtual x)

/-- The event is one of the process in `c`, or the same trap in both machines, with the same number
and argument of a system call. -/
inductive Common (c : Fin 10) : Machine σ → Machine σ → Event → Prop where
  | own {k₁ k₂ : Kernel σ} {cpu₁ cpu₂ : Context} (h : k₁.currentProcess = some c) (e : Event) :
      Common c (.user k₁ cpu₁) (.user k₂ cpu₂) e
  | trap {k₁ k₂ : Kernel σ} {cpu₁ cpu₂ : Context} (h : k₁.currentProcess ≠ some c) (t : Trap)
      (code : cpu₁ .R0 = cpu₂ .R0) (arg : cpu₁ .R1 = cpu₂ .R1) :
      Common c (.user k₁ cpu₁) (.user k₂ cpu₂) (.trap t)

variable [BlockDevice σ]

/-- From the first two machines runs lead to the second two, in which the process in `c` lives and
does the same, and the others do what they like between the same traps. -/
inductive Paired (L : Layout) (c : Fin 10) (m₁ m₂ : Machine σ) : Machine σ → Machine σ → Prop where
  | refl : Paired L c m₁ m₂ m₁ m₂
  | left {n₁ n₂ n₁' : Machine σ} {e : Event} (h : Paired L c m₁ m₂ n₁ n₂) (inner : Inner c n₁ e)
      (step : step L n₁ e = some n₁') : Paired L c m₁ m₂ n₁' n₂
  | right {n₁ n₂ n₂' : Machine σ} {e : Event} (h : Paired L c m₁ m₂ n₁ n₂) (inner : Inner c n₂ e)
      (step : step L n₂ e = some n₂') : Paired L c m₁ m₂ n₁ n₂'
  | both {n₁ n₂ n₁' n₂' : Machine σ} {e : Event} (h : Paired L c m₁ m₂ n₁ n₂)
      (live : (n₁.kernel.processTable c).state ≠ .UNUSED) (common : Common c n₁ n₂ e)
      (step₁ : step L n₁ e = some n₁') (step₂ : step L n₂ e = some n₂') :
      Paired L c m₁ m₂ n₁' n₂'

omit [BlockDevice σ] in
theorem OsMachine.Alike.symm {n₁ n₂ : OsMachine} (h : n₁.Alike c n₂) : n₂.Alike c n₁ := by
  cases h with
  | user os cpu => exact .user os.symm fun hc => (cpu (os.tasks ▸ hc)).symm
  | panicked os => exact .panicked os.symm
  | halted => exact .halted

/-- What another process does between traps changes nothing for the one in `c`. -/
theorem Inner.alike {n : OsMachine} (hv : Provides σ v False progs) (hm : Mounted L v m₁)
    (hi : Inner c m₁ e) (hs : step L m₁ e = some m₁') (ha : m₁.view.Alike c n) :
    m₁'.view.Alike c n := by
  have hview := (step_view hv hm e).1
  rw [hs, Option.map_some] at hview
  cases hi with
  | @work k cpu hne cpu' =>
      obtain ⟨-, hview⟩ := Option.ite_none_right_eq_some.mp hview.symm
      rw [← Option.some.inj hview]
      cases ha with
      | user os _ => exact .user os fun hc => absurd hc hne
  | @store k cpu hne virtual x =>
      obtain ⟨os, hos, hview⟩ := Option.map_eq_some_iff.mp hview.symm
      obtain ⟨d, hd, hos⟩ := Option.bind_eq_some_iff.mp hos
      obtain ⟨b, -, rfl⟩ := Option.map_eq_some_iff.mp hos
      have hdc : c ≠ d := fun e => hne (e ▸ hd)
      rw [← hview]
      cases ha with
      | user os _ =>
          refine .user ⟨os.tasks, ?_⟩ fun hc => absurd hc hne
          simpa only [Os.setBody, Function.update_of_ne hdc] using os.body

/-- A trap of the process in `d`, in both machines. -/
theorem trap_alike {cpu₁ cpu₂ : Context} {t : Trap} (hv : Provides σ v False progs)
    (h₁ : Runs L k₁ a sp₁) (h₂ : Runs L k₂ a sp₂) (hf₁ : k₁.fat = v) (hf₂ : k₂.fat = v)
    (hd : a.current = some d) (hr : a.table d = some .ready) (ha : k₁.os.Alike c k₂.os)
    (hl : a.table c ≠ none) (hown : c = d → cpu₁ = cpu₂) (h₀ : cpu₁ .R0 = cpu₂ .R0)
    (harg : cpu₁ .R1 = cpu₂ .R1) (hs₁ : step L (.user k₁ cpu₁) (.trap t) = some m₁')
    (hs₂ : step L (.user k₂ cpu₂) (.trap t) = some m₂') : m₁'.view.Alike c m₂'.view := by
  obtain ⟨o₁, k₁', a₁, s₁, hstep₁, hr₁, hset₁, hos₁, -⟩ :=
    exists_trap_os t cpu₁ h₁ hd hr (hf₁.symm ▸ hv)
  obtain ⟨o₂, k₂', a₂, s₂, hstep₂, hr₂, hset₂, hos₂, -⟩ :=
    exists_trap_os t cpu₂ h₂ hd hr (hf₂.symm ▸ hv)
  cases hs₁.symm.trans hstep₁
  cases hs₂.symm.trans hstep₂
  have htable : (k₁.os.save d cpu₁).tasks.table c ≠ none := by
    rw [show (k₁.os.save d cpu₁).tasks = a from h₁.tasks]
    exact hl
  -- the two results, whoever traps
  have hres : k₁'.os.Alike c k₂'.os ∧ (o₁ = .panic ↔ o₂ = .panic) ∧ (c = d → o₁ = o₂) := by
    rw [show k₁'.os = _ from congrArg Prod.fst hos₁, show k₂'.os = _ from congrArg Prod.fst hos₂,
      show o₁ = _ from congrArg Prod.snd hos₁, show o₂ = _ from congrArg Prod.snd hos₂]
    by_cases hcd : c = d
    · subst hcd
      rw [hown rfl] at htable ⊢
      obtain ⟨h, ho⟩ := (ha.save cpu₂).trap_own progs htable cpu₂ t
      exact ⟨h, by rw [ho], fun _ => ho⟩
    · obtain ⟨h, ho⟩ := (ha.save_of_ne cpu₁ cpu₂ hcd).trap_other progs htable hcd h₀ harg t
      exact ⟨h, ho, fun e => absurd e hcd⟩
  rw [hset₁.view hr₁, hset₂.view hr₂]
  rw [← show k₁'.os.tasks = a₁ from hr₁.tasks] at hset₁
  rw [← show k₂'.os.tasks = a₂ from hr₂.tasks] at hset₂
  exact hres.1.leave hr₁.full hr₂.full hset₁ hset₂ hres.2.1 fun e => ⟨hres.2.2 e, by rw [hown e]⟩

omit [BlockDevice σ] in
theorem Mounted.user {cpu : Context} (h : Mounted L v (.user k cpu)) :
    ∃ a sp d, Runs L k a sp ∧ k.fat = v ∧ a.current = some d ∧ a.table d = some .ready := by
  rcases h with ⟨a, sp, hin, hf⟩ | ⟨k', hk⟩
  · cases hin with
    | user d hruns hd hr => exact ⟨a, sp, d, hruns, hf, hd, hr⟩
  · cases hk

/-- A trap in two machines that are alike. -/
theorem Mounted.trap_alike {cpu₁ cpu₂ : Context} {t : Trap} (hv : Provides σ v False progs)
    (hm₁ : Mounted L v (.user k₁ cpu₁)) (hm₂ : Mounted L v (.user k₂ cpu₂))
    (ha : k₁.os.Alike c k₂.os) (hl : (k₁.processTable c).state ≠ .UNUSED)
    (hown : k₁.currentProcess = some c → cpu₁ = cpu₂) (h₀ : cpu₁ .R0 = cpu₂ .R0)
    (harg : cpu₁ .R1 = cpu₂ .R1) (hs₁ : step L (.user k₁ cpu₁) (.trap t) = some m₁')
    (hs₂ : step L (.user k₂ cpu₂) (.trap t) = some m₂') : m₁'.view.Alike c m₂'.view := by
  obtain ⟨a, sp₁, d, h₁, hf₁, hd, hr⟩ := hm₁.user
  obtain ⟨a₂, sp₂, d₂, h₂, hf₂, -, -⟩ := hm₂.user
  obtain rfl : a = a₂ := h₁.tasks.symm.trans (ha.tasks.trans h₂.tasks)
  refine Arunos.trap_alike hv h₁ h₂ hf₁ hf₂ hd hr ha ?_ (fun e => hown ?_) h₀ harg hs₁ hs₂
  · exact fun e => hl ((h₁.view c).unused_iff.mpr e)
  · rw [h₁.current, hd, e]

/-- What both machines do keeps them alike. -/
theorem Common.alike (hv : Provides σ v False progs) (hm₁ : Mounted L v m₁) (hm₂ : Mounted L v m₂)
    (ha : m₁.view.Alike c m₂.view) (hl : (m₁.kernel.processTable c).state ≠ .UNUSED)
    (hc : Common c m₁ m₂ e) (hs₁ : step L m₁ e = some m₁') (hs₂ : step L m₂ e = some m₂') :
    m₁'.view.Alike c m₂'.view := by
  have hview₁ := (step_view hv hm₁ e).1
  have hview₂ := (step_view hv hm₂ e).1
  rw [hs₁, Option.map_some] at hview₁
  rw [hs₂, Option.map_some] at hview₂
  cases hc with
  | @trap k₁ k₂ cpu₁ cpu₂ hne t h₀ harg =>
      cases ha with
      | user os hcpu => exact hm₁.trap_alike hv hm₂ os hl hcpu h₀ harg hs₁ hs₂
  | @own k₁ k₂ cpu₁ cpu₂ hcur e =>
      cases ha with
      | user os hcpu =>
          obtain rfl := hcpu hcur
          have hcur₂ : k₂.os.tasks.current = some c := os.tasks ▸ hcur
          cases e with
          | work cpu =>
              obtain ⟨-, h₁⟩ := Option.ite_none_right_eq_some.mp hview₁.symm
              obtain ⟨-, h₂⟩ := Option.ite_none_right_eq_some.mp hview₂.symm
              rw [← Option.some.inj h₁, ← Option.some.inj h₂]
              exact .user os fun _ => rfl
          | store virtual x =>
              -- both store into the same memory
              obtain ⟨o₁, ho₁, h₁⟩ := Option.map_eq_some_iff.mp hview₁.symm
              obtain ⟨o₂, ho₂, h₂⟩ := Option.map_eq_some_iff.mp hview₂.symm
              rw [Os.store, show k₁.os.tasks.current = some c from hcur, Option.bind_some, os.body]
                at ho₁
              rw [Os.store, hcur₂, Option.bind_some] at ho₂
              obtain ⟨b, hb, rfl⟩ := Option.map_eq_some_iff.mp ho₁
              obtain ⟨b', hb', rfl⟩ := Option.map_eq_some_iff.mp ho₂
              cases hb.symm.trans hb'
              rw [← h₁, ← h₂]
              exact .user (os.setBody c _) fun _ => rfl
          | trap t => exact hm₁.trap_alike hv hm₂ os hl (fun _ => rfl) rfl rfl hs₁ hs₂

theorem Paired.mounted {n₁ n₂ : Machine σ} (hv : Provides σ v False progs)
    (h : Paired L c m₁ m₂ n₁ n₂) (hm₁ : Mounted L v m₁) (hm₂ : Mounted L v m₂) :
    Mounted L v n₁ ∧ Mounted L v n₂ := by
  induction h with
  | refl => exact ⟨hm₁, hm₂⟩
  | left _ _ hs ih => exact ⟨(step_view hv ih.1 _).2 _ hs, ih.2⟩
  | right _ _ hs ih => exact ⟨ih.1, (step_view hv ih.2 _).2 _ hs⟩
  | both _ _ _ hs₁ hs₂ ih => exact ⟨(step_view hv ih.1 _).2 _ hs₁, (step_view hv ih.2 _).2 _ hs₂⟩

/-- Machines that are alike stay alike. -/
theorem Paired.alike {n₁ n₂ : Machine σ} (hv : Provides σ v False progs)
    (h : Paired L c m₁ m₂ n₁ n₂) (hm₁ : Mounted L v m₁) (hm₂ : Mounted L v m₂)
    (ha : m₁.view.Alike c m₂.view) : n₁.view.Alike c n₂.view := by
  induction h with
  | refl => exact ha
  | left hp hi hs ih =>
      exact hi.alike hv (hp.mounted hv hm₁ hm₂).1 hs ih
  | right hp hi hs ih =>
      exact (hi.alike hv (hp.mounted hv hm₁ hm₂).2 hs ih.symm).symm
  | both hp hl hc hs₁ hs₂ ih =>
      obtain ⟨h₁, h₂⟩ := hp.mounted hv hm₁ hm₂
      exact hc.alike hv h₁ h₂ ih hl hs₁ hs₂

/-- Every reachable machine has the volume of the disk mounted, or has halted. -/
theorem reachable_mounted {img : Nat → Bytes} {n : Nat} (hd : Serves σ img n)
    (hready : ∀ d : σ, (blockInit d).1 = true) {d₀ d₁ : σ}
    (hmount : fatInit .zero d₀ = (true, v, d₁)) (h : (arunos σ L).Reachable m₁) :
    Mounted L v m₁ := by
  have hv := hd.provides hmount
  refine h.invariant ?_ fun m e m' hm hs => (step_view hv hm e).2 m' hs
  rintro m ⟨ram, dev, out, k, hrun, rfl⟩
  exact ((wp_cEntry_os ram dev hready (fatInit_serves hd hmount) hv).elim hrun).2

/-- **A process learns nothing of the others' memory and registers.**  Take two reachable machines
that are alike for the process in `c`, and two runs from them in which that process lives and does
the same while the others, between traps with the same numbers and arguments, compute and store
whatever they like.  At the end the process has the same memory and the same registers in both, and
the tasks are the same. -/
theorem others_invisible {img : Nat → Bytes} {n : Nat} (hd : Serves σ img n)
    (hready : ∀ d : σ, (blockInit d).1 = true) {d₀ d₁ : σ}
    (hmount : fatInit .zero d₀ = (true, v, d₁)) {n₁ n₂ : Machine σ}
    (hr₁ : (arunos σ L).Reachable m₁) (hr₂ : (arunos σ L).Reachable m₂)
    (ha : m₁.view.Alike c m₂.view) (hp : Paired L c m₁ m₂ n₁ n₂) : n₁.view.Alike c n₂.view :=
  hp.alike (hd.provides hmount) (reachable_mounted hd hready hmount hr₁)
    (reachable_mounted hd hready hmount hr₂) ha

/-- The shell forks; then it stores different bytes on its stack in two runs, and its child sees no
difference. -/
theorem others_invisible_shell : ∃ (m : Machine shellDisk.Reader) (k₁ k₂ : Kernel shellDisk.Reader)
      (cpu : Context),
    (arunos shellDisk.Reader smallLayout).Reachable m ∧
      Paired smallLayout 1 m m (.user k₁ cpu) (.user k₂ cpu) ∧
      (k₁.processTable 1).state = .READY ∧ byteAt k₁ 0 0x7fffd000 ≠ byteAt k₂ 0 0x7fffd000 ∧
      (Machine.user k₁ cpu).view.Alike 1 (Machine.user k₂ cpu).view := by
  obtain ⟨k₀, cpu₀, sp₀, hi, hin₀⟩ := exists_inTasks
  obtain ⟨m, sp, hr, hin⟩ := play_reachable [.fork] (.init ⟨hi, rfl⟩) hin₀
  have hc : (play .initial .start [.fork]).1.current = some 0 := by decide +kernel
  have h0 : (play .initial .start [.fork]).1.table 0 = some .ready := by decide +kernel
  have h1 : (play .initial .start [.fork]).1.table 1 = some .ready := by decide +kernel
  cases hin with
  | panicked hruns hstuck => exact absurd h0 (hstuck 0)
  | @user k cpu c hruns hc' hr' =>
      obtain ⟨k₁, hs₁, hr₁, hb₁, -⟩ := hruns.exists_store hc h0 (x := 0) (by decide) 1 cpu
      obtain ⟨k₂, hs₂, -, hb₂, -⟩ := hruns.exists_store hc h0 (x := 0) (by decide) 2 cpu
      have hinner : ∀ x, Inner 1 (.user k cpu) (.store 0x7fffd000 x) := fun x =>
        .store (by rw [hruns.current.trans hc]; decide) _ x
      have hp : Paired smallLayout 1 (.user k cpu) (.user k cpu) (.user k₁ cpu) (.user k₂ cpu) :=
        (Paired.refl.left (hinner 1) hs₁).right (hinner 2) hs₂
      have hreach := hr.of_observe
      refine ⟨_, k₁, k₂, cpu, hreach, hp, (hr₁.view 1).ready_iff.mpr h1, ?_, ?_⟩
      · rw [hb₁, hb₂]
        decide
      · exact others_invisible shellDisk.serves (fun _ => rfl) fatInit_shellDisk hreach hreach
          (.user ⟨rfl, rfl⟩ fun _ => rfl) hp

end Arunos
