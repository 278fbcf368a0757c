import Arunos.Machine.Code
import Arunos.Machine.Interrupts
import Arunos.Machine.Memory

/-!
# Machine — Resume — what a process finds when it runs again

A run of `machineCode` that does not execute the process in slot `p` spares it: one step does
(`step_spares`), so the whole run does (`runsWithout_spares`), and when the process is resumed it
has the registers of its saved context.

* `preemption_invisible`: its heap, its stack, `heap_size` and its context are as they were, and a
  process that a timer interrupt has preempted goes on with the registers it had.
* `syscall_results`: what a system call leaves in the registers, by either way back.  `yield` and a
  `wait` that sleeps are resumed from the context that was saved before the handler ran, so `r0` is
  not the `0` they are written to return but the number of the call (`yield_returns_its_number`).
-/

namespace Arunos

variable {σ : Type} {L : Layout} {E : EntryImage} {k k' : Kernel σ} {cpu cpu' : Context}
  {a a' : Tasks} {c p : Fin 10} {sp sp' : Fin 10 → Option Space} {m m₀ m' : Machine σ} {t : Trap}

/-! ### What belongs to a process -/

/-- The process in `i` finds its own as it was: the heap and the stack, whose page is at
`USER_STACK_BOTTOM`. -/
structure Undisturbed (i : Fin 10) (k k' : Kernel σ) : Prop where
  heapSize : (k'.processTable i).heapSize = (k.processTable i).heapSize
  context : (k'.processTable i).context = (k.processTable i).context
  heap : ∀ virtual < (k.processTable i).heapSize, byteAt k' i virtual = byteAt k i virtual
  stack : ∀ virtual, 0x7fffd000 ≤ virtual → virtual < 0x7fffe000 →
    byteAt k' i virtual = byteAt k i virtual

/-- A mapped page is the same page of memory before and after. -/
theorem Spares.byteAt (h : Spares p sp sp' k k') (hw : World L k sp) (hw' : World L k' sp')
    {s : Space} (hs : sp p = some s) {virtual ap page : Nat}
    (hm : spaceMap L s (virtual / 4096) = some (pageEntry ap (v2p page / 4096)))
    (hp : page ∈ s.pages) : byteAt k' p virtual = byteAt k p virtual := by
  have hs' : sp' p = some s := h.space.trans hs
  have hal : page % 4096 = 0 := (hw.page_aligned hs hp).1
  have hram := h.ram
  rw [hs] at hram
  rw [hw.byteAt_page hs hm hp, hw'.byteAt_page hs' hm hp]
  have := Nat.mod_lt virtual (show 4096 > 0 by decide)
  exact hram.page hp hal (by omega) (by omega)

theorem Spares.undisturbed (h : Spares p sp sp' k k') (hw : World L k sp) (hw' : World L k' sp')
    (hp : sp p ≠ none) : Undisturbed p k k' := by
  obtain ⟨s, hs⟩ := Option.ne_none_iff_exists'.mp hp
  have hd := (hw.slot p s hs).fields
  have hlen := hd.frames
  have hsize : (k'.processTable p).body.heapSize = (k.processTable p).body.heapSize :=
    congrArg Process.heapSize h.process
  refine ⟨hsize, h.context, fun virtual hv => ?_, fun virtual h₁ h₂ => ?_⟩
  · rw [hd.heapSize] at hv
    obtain ⟨hm, hmem⟩ := spaceMap_frame (L := L)
      (List.getElem?_eq_getElem (show virtual / 4096 < s.frames.length by omega))
    exact h.byteAt hw hw' hs hm hmem
  · have hm := (spaceMap_stacks L hlen).1
    rw [show 0x7fffd = virtual / 4096 by omega] at hm
    exact h.byteAt hw hw' hs hm (by simp [Space.pages])

/-! ### Runs without a process -/

/-- The step does not execute the process in `p`. -/
def Without (p : Fin 10) (m : Machine σ) (_ : Event) (_ : Machine σ) : Prop :=
  m.kernel.currentProcess ≠ some p

/-- If the process in `p` runs, it has the registers of its context. -/
def Resumed (p : Fin 10) (m : Machine σ) : Prop :=
  ∀ k cpu, m = .user k cpu → k.currentProcess = some p → cpu = (k.processTable p).context

theorem resumed_switchToContext (p : Fin 10) (k : Kernel σ) : Resumed p (switchToContext k) := by
  intro k' cpu heq hcur
  unfold switchToContext at heq
  split at heq
  next c hc =>
    cases heq
    obtain rfl : c = p := Option.some.inj (hc.symm.trans hcur)
    rfl
  · cases heq

theorem Spares.saveContext (hcur : k.currentProcess ≠ some p) (cpu : Context) :
    Spares p sp sp k (saveContext k cpu) := by
  unfold Arunos.saveContext
  split
  next c hc =>
    have hne : p ≠ c := fun e => hcur (e ▸ hc)
    exact ⟨rfl, rfl, by rw [setEntry_of_ne hne], .refl _ _⟩
  · exact .refl p sp k

/-- After a trap of another process, the process in `p` runs from its context. -/
theorem Tasks.Settled.resumed {out : Outcome} (h : Tasks.Settled c a' out) (hr : Runs L k' a' sp')
    (hne : p ≠ c) (back : Int → Context) : Resumed p (leave back out k') := by
  cases h with
  | ret r hc _ =>
      rintro k₁ cpu₁ ⟨⟩ hk
      exact absurd (Option.some.inj (hk.symm.trans (hr.current.trans hc))) hne
  | resume d _ _ => exact resumed_switchToContext p k'
  | panic _ => rintro k₁ cpu₁ ⟨⟩

section Runs

variable [BlockDevice σ]

/-- **A step that does not execute a process spares it.** -/
theorem step_spares {e : Event} (h : InTasks L a sp m) (hp : sp p ≠ none)
    (hcur : m.kernel.currentProcess ≠ some p) (hs : step L m e = some m') :
    ∃ a' sp', InTasks L a' sp' m' ∧ Spares p sp sp' m.kernel m'.kernel ∧ Resumed p m' := by
  obtain ⟨k, cpu, rfl, hcases⟩ := step_cases hs
  cases h with
  | user c hruns hc hr =>
      have hkc : k.currentProcess = some c := hruns.current.trans hc
      have hne : p ≠ c := fun e => hcur (e ▸ hkc)
      rcases hcases with ⟨cpu', rfl, -, rfl⟩ | ⟨virtual, b, addr, rfl, ha, rfl⟩ | ⟨t, rfl, ht⟩
      · refine ⟨a, sp, .user c hruns hc hr, .refl p sp k, ?_⟩
        rintro k' cpu ⟨⟩ hk
        exact absurd hk hcur
      · refine ⟨a, sp, .user c (hruns.store hc hr ha b) hc hr, ?_, ?_⟩
        · obtain ⟨s, hs, hw⟩ := hruns.store_writes hc hr ha b
          exact (hruns.world.write hs hw).2.spares hne hp rfl
        · rintro k' cpu ⟨⟩ hk
          exact absurd hk hcur
      · obtain ⟨a', sp', out, k', htrap, rfl, hin'⟩ := step_trap hruns hc hr ht
        refine ⟨a', sp', hin', ?_, (htrap.reacts.settled hc hr).resumed htrap.runs hne _⟩
        rw [leave_kernel]
        exact (Spares.saveContext hcur cpu).trans (htrap.others p hne hp)

/-- The runs by the code from `m₀` on that do not execute the process in `p`. -/
def runsWithout (L : Layout) (E : EntryImage) (m₀ : Machine σ) (p : Fin 10) :
    System (Machine σ) Event :=
  ((machineCode σ L E).start m₀).restrict (Without p)

/-- **A run that does not execute a process spares it**, and in the end resumes it. -/
theorem runsWithout_spares (h₀ : InTasks L a sp m₀) (hp : sp p ≠ none)
    (h : (runsWithout L E m₀ p).Reachable m) :
    ∃ a' sp', InTasks L a' sp' m ∧ Spares p sp sp' m₀.kernel m.kernel ∧
      (Resumed p m₀ → Resumed p m) := by
  refine h.invariant (I := fun m => ∃ a' sp', InTasks L a' sp' m ∧
    Spares p sp sp' m₀.kernel m.kernel ∧ (Resumed p m₀ → Resumed p m)) ?_ ?_
  · rintro m rfl
    exact ⟨a, sp, h₀, .refl p sp _, id⟩
  · rintro m e m' ⟨a₁, sp₁, hin, hsp, -⟩ ⟨hs, hcur⟩
    have hlive : sp₁ p ≠ none := by rwa [hsp.space]
    obtain ⟨a', sp', hin', hsp', hres⟩ := step_spares hin hlive hcur (codeStep_step hs)
    exact ⟨a', sp', hin', hsp.trans hsp', fun _ => hres⟩

theorem runsWithout_step {e : Event} (hs : (machineCode σ L E).step m₀ e m)
    (hcur : m₀.kernel.currentProcess ≠ some p) : (runsWithout L E m₀ p).Reachable m :=
  .step (e := e) (.init rfl) ⟨hs, hcur⟩

/-- A run that would execute the process at once takes no step. -/
theorem runsWithout_running (hp : m₀.kernel.currentProcess = some p)
    (h : (runsWithout L E m₀ p).Reachable m) : m = m₀ := by
  refine h.invariant (I := fun m => m = m₀) (fun _ hm => hm) ?_
  rintro m e m' rfl ⟨-, hcur⟩
  exact absurd hp hcur

/-! ### Preemption -/

/-- The state of a running machine. -/
theorem Reachable.running (h : (machineCode σ L E).Reachable (.user k cpu)) :
    ∃ a sp c, Runs L k a sp ∧ a.current = some c ∧ a.table c = some .ready := by
  rcases Reachable.sane (machineCode_reachable.mp h) with ⟨a, sp, hin, -⟩ | ⟨k, ⟨⟩, -⟩
  cases hin with
  | user c hruns hc hr => exact ⟨a, sp, c, hruns, hc, hr⟩

/-- A process that a trap has suspended goes on with the registers it had. -/
theorem suspended_resumes {out : Outcome} (h : Runs L k a sp) (hc : a.current = some p)
    (hp : sp p ≠ none) (hout : ∀ r, out ≠ .ret r) (hsp : Spares p sp sp' (saveContext k cpu) k')
    (hin : InTasks L a' sp' (leave (t.back cpu) out k'))
    (hrun : (runsWithout L E (leave (t.back cpu) out k') p).Reachable m) :
    Undisturbed p (saveContext k cpu) m.kernel ∧
      ∀ k₁ cpu₁, m = .user k₁ cpu₁ → k₁.currentProcess = some p → cpu₁ = cpu := by
  obtain ⟨hsave, hcpu⟩ := h.saveContext hc cpu
  have hlive : sp' p ≠ none := by rwa [hsp.space]
  obtain ⟨a₁, sp₁, hin₁, hsp₁, hres⟩ := runsWithout_spares hin hlive hrun
  rw [leave_kernel] at hsp₁
  have hall := hsp.trans hsp₁
  refine ⟨hall.undisturbed hsave.world hin₁.runs.world hp, fun k₁ cpu₁ hm hcur => ?_⟩
  have hres₀ : Resumed p (leave (t.back cpu) out k') := by
    cases out with
    | ret r => exact absurd rfl (hout r)
    | resume => exact resumed_switchToContext p k'
    | panic => rintro k₁ cpu₁ ⟨⟩
    | halt => rintro k₁ cpu₁ ⟨⟩
  subst hm
  rw [hres hres₀ k₁ cpu₁ rfl hcur, ← hcpu]
  exact hall.context

/-- A timer interrupt switches to the next ready process. -/
theorem exists_timer (E : EntryImage) (h : Runs L k a sp) (hc : a.current = some c)
    (hr : a.table c = some .ready) (cpu : Context) {d : Fin 10} (hd : a.next = some d) :
    ∃ k' sp', (machineCode σ L E).step (.user k cpu) (.trap .timer)
      (.user k' (k'.processTable d).context) ∧ Runs L k' a.schedule.1 sp' ∧
        k'.currentProcess = some d := by
  obtain ⟨k', sp', hs, hruns, hcur, -⟩ := exists_step_timer h hc hr cpu hd
  exact ⟨k', sp', exists_codeTrap E h hc hr hs, hruns, hcur⟩

/-- An image of the kernel. -/
def smallImage : EntryImage where
  currentProcess := 0x8001fff0
  processTable := 0x80020000
  kernelStackStart := 0x80030000
  irqStackStart := 0x80031000
  site
    | .save1 => 0x80010010
    | .save2 => 0x80010020
    | .context1 => 0x80010110
    | .context2 => 0x80010210
  table_pos := by decide
  table_end := by decide
  current_end := by decide
  current_apart := by decide
  irq_start := rfl

/-- The shell of `shellDisk` forks, on the machine with its code. -/
theorem exists_codeFork : ∃ (k k₁ : Kernel shellDisk.Reader) (cpu : Context)
      (sp₁ : Fin 10 → Option Space),
    (machineCode shellDisk.Reader smallLayout smallImage).Reachable (.user k cpu) ∧
      k.currentProcess = some 0 ∧ cpu .R0 = 4 ∧ (k.processTable 1).state = .UNUSED ∧
      (handleSyscall smallLayout 0 (cpu .R0) (cpu .R1)).run (saveContext k cpu) =
        some (.ret 2, k₁) ∧
      (machineCode shellDisk.Reader smallLayout smallImage).step (.user k cpu) (.trap (.swi 0))
        (.user k₁ (Function.update cpu .R0 2)) ∧
      Runs smallLayout k₁ Tasks.initial.fork.1 sp₁ := by
  obtain ⟨k, k₁, cpu, s, sp₁, hreach, hs, hcode, hrun, htrap, hruns⟩ := exists_fork
  exact ⟨k, k₁, cpu, sp₁, machineCode_reachable.mpr hreach, hs.runs.current, hcode,
    hs.runs.view 1, hrun, exists_codeTrap smallImage hs.runs (c := 0) rfl rfl htrap, hruns⟩

/-- **Preemption is invisible.**  As long as a process is not the running one, nothing that happens
changes its heap, its stack or its saved registers.  And when a timer interrupt takes the
processor from it, the registers with which it runs next are those it was interrupted with, and its
memory is as it left it. -/
theorem preemption_invisible (h : (machineCode σ L E).Reachable (.user k cpu))
    (hp : (k.processTable p).state ≠ .UNUSED) :
    (∀ m, (runsWithout L E (.user k cpu) p).Reachable m → Undisturbed p k m.kernel) ∧
      ∀ m₁, k.currentProcess = some p → (machineCode σ L E).step (.user k cpu) (.trap .timer) m₁ →
        ∀ m, (runsWithout L E m₁ p).Reachable m → Undisturbed p (saveContext k cpu) m.kernel ∧
          ∀ k' cpu', m = .user k' cpu' → k'.currentProcess = some p → cpu' = cpu := by
  obtain ⟨a, sp, c, hruns, hc, hr⟩ := Reachable.running h
  have hlive : sp p ≠ none := fun hnone => hp ((hruns.owns.2 p).mpr hnone)
  refine ⟨fun m hm => ?_, fun m₁ hcur hs m hm => ?_⟩
  · obtain ⟨a', sp', hin, hsp, -⟩ := runsWithout_spares (.user c hruns hc hr) hlive hm
    exact hsp.undisturbed hruns.world hin.runs.world hlive
  · obtain rfl : c = p := Option.some.inj ((hruns.current.trans hc).symm.trans hcur)
    obtain ⟨a', sp', out, k', ht, rfl, hin⟩ := step_trap hruns hc hr (codeStep_step hs)
    have hreact : (a', out) = a.schedule := ht.reacts
    have htab : a'.table = a.table := by
      rw [show a' = a.schedule.1 from congrArg Prod.fst hreact, Tasks.schedule_table]
    have hlive' : sp' c ≠ none := fun hnone => by
      rw [ht.runs.live c, htab, hr] at hnone
      cases hnone
    have hout : ∀ r, out ≠ .ret r := by
      rw [show out = a.schedule.2 from congrArg Prod.snd hreact]
      exact a.schedule_ne_ret
    rcases ht.caller hlive' with hsp | ⟨⟨key, ⟨⟩⟩, -⟩
    exact suspended_resumes hruns hc hlive hout hsp hin hm

/-- A timer interrupt takes the processor from the shell, another one takes it from its child. -/
theorem preemption_invisible_shell : ∃ (k₁ k₂ k₃ : Kernel shellDisk.Reader) (cpu cpu₂ : Context),
    (machineCode shellDisk.Reader smallLayout smallImage).Reachable (.user k₁ cpu) ∧
      (machineCode shellDisk.Reader smallLayout smallImage).step (.user k₁ cpu) (.trap .timer)
        (.user k₂ cpu₂) ∧ k₂.currentProcess = some 1 ∧
      (machineCode shellDisk.Reader smallLayout smallImage).step (.user k₂ cpu₂) (.trap .timer)
        (.user k₃ cpu) ∧ k₃.currentProcess = some 0 ∧
      Undisturbed 0 (saveContext k₁ cpu) k₃ := by
  obtain ⟨k, k₁, cpu₀, sp₁, hreach, -, -, -, -, hstep, hruns⟩ := exists_codeFork
  obtain ⟨k₂, sp₂, hs₂, hruns₂, hc₂⟩ := exists_timer smallImage hruns (c := 0) (d := 1)
    (by decide +kernel) (by decide +kernel) (Function.update cpu₀ .R0 2) (by decide +kernel)
  obtain ⟨k₃, sp₃, hs₃, hruns₃, hc₃⟩ := exists_timer smallImage hruns₂ (c := 1) (d := 0)
    (by decide +kernel) (by decide +kernel) (k₂.processTable 1).context (by decide +kernel)
  have hr₁ := hreach.step hstep
  have hcur : k₁.currentProcess = some 0 := hruns.current.trans (by decide +kernel)
  have hlive : (k₁.processTable 0).state ≠ .UNUSED := fun hu =>
    absurd ((hruns.view 0).unused_iff.mp hu) (by decide +kernel)
  have hne : k₂.currentProcess ≠ some 0 := by
    rw [hc₂]
    decide
  obtain ⟨hund, hcpu⟩ :=
    (preemption_invisible hr₁ hlive).2 _ hcur hs₂ _ (runsWithout_step hs₃ hne)
  have hres := hcpu k₃ _ rfl hc₃
  rw [hres] at hs₃
  exact ⟨k₁, k₂, k₃, _, _, hr₁, hs₂, hc₂, hs₃, hc₃, hund⟩

/-! ### The results of system calls -/

/-- What the handler of a system call is written to return: after `schedule()` the handlers of
`yield` and `wait` go on with `return 0`, while `exit` and an `exec` that succeeds do not come
back. -/
def writtenResult (code : Nat) : Outcome → Option Int
  | .ret r => some r
  | _ => if code = 6 ∨ code = 7 then some 0 else none

/-- The handler of the call is written to return `r`. -/
def Written (L : Layout) (key : Int) (k : Kernel σ) (cpu : Context) (r : Int) : Prop :=
  ∃ out k', (handleSyscall L key (cpu .R0) (cpu .R1)).run (saveContext k cpu) = some (out, k') ∧
    writtenResult (cpu .R0) out = some r

/-- The call is `yield`, or a `wait` for a process that there is. -/
def Suspends (k : Kernel σ) (cpu : Context) : Prop :=
  cpu .R0 = 6 ∨ (cpu .R0 = 7 ∧ ∃ d, procGet (signed (cpu .R1)) = some d ∧
    (k.processTable d).state ≠ .UNUSED)

/-- `wait` returns at once just if there is nothing to wait for. -/
theorem Tasks.wait_ret_iff {pid : Int} :
    (∃ r, (a.wait c pid).2 = .ret r) ↔ ¬ ∃ d, procGet pid = some d ∧ a.table d ≠ none := by
  unfold Tasks.wait
  cases procGet pid with
  | none => simp
  | some d =>
      dsimp only
      split
      next hd =>
        have hne := Tasks.schedule_ne_ret (a.move (.wait c d))
        simp [hne, hd]
      next hd => simp [hd]

omit [BlockDevice σ] in
/-- A call that suspends the caller is one whose handler does not return. -/
theorem suspends_iff {out : Outcome} {r : Int} (h : Runs L k a sp)
    (ha : a.Answers c (cpu .R0) (cpu .R1) a' out) (hw : writtenResult (cpu .R0) out = some r) :
    Suspends k cpu ↔ out ≠ .ret r := by
  have hused : ∀ d, (k.processTable d).state ≠ .UNUSED ↔ a.table d ≠ none := fun d =>
    not_congr (h.view d).unused_iff
  unfold Suspends
  simp only [hused]
  by_cases h6 : cpu .R0 = 6
  · rw [h6] at ha
    have hout : out = a.schedule.2 := congrArg Prod.snd (show (a', out) = a.schedule from ha)
    exact iff_of_true (.inl h6) (hout ▸ a.schedule_ne_ret r)
  by_cases h7 : cpu .R0 = 7
  · rw [h7] at ha
    have hout : out = (a.wait c (signed (cpu .R1))).2 :=
      congrArg Prod.snd (show (a', out) = a.wait c (signed (cpu .R1)) from ha)
    have hret : (∃ r', out = .ret r') ↔ out = .ret r := by
      refine ⟨?_, fun e => ⟨r, e⟩⟩
      rintro ⟨r', rfl⟩
      rw [writtenResult, Option.some.injEq] at hw
      rw [hw]
    rw [← not_iff_not, not_not, ← hret, hout, Tasks.wait_ret_iff]
    simp [h7]
  · -- no other handler that does not return is written to
    have hout : out = .ret r := by
      cases out with
      | ret r' => exact congrArg _ (Option.some.inj hw)
      | _ => simp [writtenResult, h6, h7] at hw
    simp [h6, h7, hout]

omit [BlockDevice σ] in
theorem Suspends.code (h : Suspends k cpu) : cpu .R0 = 6 ∨ cpu .R0 = 7 := h.imp_right And.left

omit [BlockDevice σ] in
theorem writtenResult_suspended {code : Nat} {out : Outcome} {r : Int}
    (hw : writtenResult code out = some r) (hout : out ≠ .ret r) (hcode : code = 6 ∨ code = 7) :
    (∀ r', out ≠ .ret r') ∧ r = 0 := by
  cases out with
  | ret r' => exact absurd (congrArg _ (Option.some.inj hw)) hout
  | _ =>
      simp only [writtenResult, if_pos hcode, Option.some.injEq] at hw
      exact ⟨by simp, hw.symm⟩

/-- The caller of a handler that does not return is resumed from its context. -/
theorem suspended_call {key : Int} {out : Outcome} (h : Runs L k a sp) (hc : a.current = some c)
    (hr : a.table c = some .ready) (hs : Suspends k cpu) (hout : ∀ r, out ≠ .ret r)
    (ht : Trapped L a c sp (saveContext k cpu) cpu (.swi key) out k' a' sp')
    {k₁ : Kernel σ} {cpu₁ : Context}
    (hm : (runsWithout L E (leave (Trap.back cpu (.swi key)) out k') c).Reachable (.user k₁ cpu₁))
    (hcur : k₁.currentProcess = some c) : cpu₁ = cpu := by
  have hcode := hs.code
  have htable : a'.table c ≠ none := by
    have hanswers : a.Answers c (cpu .R0) (cpu .R1) a' out := ht.reacts
    rw [hanswers.table]
    refine Move.apply_ne_none (by simp [hr]) fun hexit => ?_
    have := (Tasks.moveOf_eq_exit.mp hexit).1
    omega
  have hlive : sp c ≠ none := fun hnone => by simp [(h.live c).mp hnone] at hr
  have hlive' : sp' c ≠ none := fun hnone => htable ((ht.runs.live c).mp hnone)
  rcases ht.caller hlive' with hsp | ⟨-, hexec, -⟩
  · have hin := (ht.reacts.settled hc hr).inTasks ht.runs (Trap.back cpu (.swi key))
    exact (suspended_resumes h hc hlive hout hsp hin hm).2 k₁ cpu₁ rfl hcur
  · omega

/-- A child starts with the registers of its parent, and 0 in `r0`. -/
theorem child_starts {key : Int} {out : Outcome} {i : Fin 10} (hc : a.current = some c)
    (hr : a.table c = some .ready) (hi : sp i = none) (hi' : sp' i ≠ none)
    (ht : Trapped L a c sp (saveContext k cpu) cpu (.swi key) out k' a' sp') (hne : i ≠ c)
    {k₁ : Kernel σ} {cpu₁ : Context}
    (hm : (runsWithout L E (leave (Trap.back cpu (.swi key)) out k') i).Reachable (.user k₁ cpu₁))
    (hcur : k₁.currentProcess = some i) : cpu₁ = Function.update cpu .R0 0 := by
  have hset := ht.reacts.settled hc hr
  obtain ⟨a₁, sp₁, -, hsp, hres⟩ :=
    runsWithout_spares (hset.inTasks ht.runs (Trap.back cpu (.swi key))) hi' hm
  have hcpu := hres (hset.resumed ht.runs hne _) k₁ cpu₁ rfl hcur
  rw [leave_kernel] at hsp
  exact hcpu.trans (hsp.context.trans (ht.child i hi hi'))

/-- **What a system call leaves in the registers.**  The caller goes on behind its `swi` with its
registers and the handler's result in `r0`, just if the call does not suspend it; a child that it
has created starts with the same registers and 0. -/
theorem syscall_results {key r : Int} {m₁ : Machine σ}
    (h : (machineCode σ L E).Reachable (.user k cpu)) (hp : k.currentProcess = some p)
    (hw : Written L key k cpu r)
    (hs : (machineCode σ L E).step (.user k cpu) (.trap (.swi key)) m₁) :
    (∀ k' cpu', (runsWithout L E m₁ p).Reachable (.user k' cpu') → k'.currentProcess = some p →
      (cpu' = Function.update cpu .R0 (word r) ↔ ¬ Suspends k cpu) ∧
        ∀ item ≠ .R0, cpu' item = cpu item) ∧
    ∀ i, (k.processTable i).state = .UNUSED → (m₁.kernel.processTable i).state ≠ .UNUSED →
      r = (m₁.kernel.processTable i).pid ∧
        ∀ k' cpu', (runsWithout L E m₁ i).Reachable (.user k' cpu') → k'.currentProcess = some i →
          cpu' = Function.update cpu .R0 0 := by
  obtain ⟨a, sp, c, hruns, hc, hr⟩ := Reachable.running h
  obtain rfl : c = p := Option.some.inj ((hruns.current.trans hc).symm.trans hp)
  obtain ⟨out, k₁, hrun, hout⟩ := hw
  obtain ⟨hsave, hcpu⟩ := hruns.saveContext hc cpu
  have hstep : step L (.user k cpu) (.trap (.swi key)) = some m₁ := codeStep_step hs
  obtain rfl : leave (Trap.back cpu (.swi key)) out k₁ = m₁ := by
    rw [step, Trap.handler, hrun] at hstep
    exact Option.some.inj hstep
  obtain ⟨a', sp', ht⟩ := (wp_handler (t := .swi key) hsave hc hr hcpu).elim hrun
  have hset := ht.reacts.settled hc hr
  have hanswers : a.Answers c (cpu .R0) (cpu .R1) a' out := ht.reacts
  have hiff := suspends_iff hruns hanswers hout
  refine ⟨fun k' cpu' hm hcur => ?_, fun i hi hi' => ?_⟩
  · by_cases hsus : Suspends k cpu
    · obtain ⟨hret, rfl⟩ := writtenResult_suspended hout (hiff.mp hsus) hsus.code
      obtain rfl := suspended_call hruns hc hr hsus hret ht hm hcur
      refine ⟨iff_of_false (fun heq => ?_) (not_not.mpr hsus), fun _ _ => rfl⟩
      have h₀ : cpu' .R0 = 0 := (congrFun heq .R0).trans (Function.update_self _ _ _)
      have := hsus.code
      omega
    · obtain rfl : out = .ret r := not_not.mp (mt hiff.mpr hsus)
      cases hset with
      | ret _ hc' _ =>
          have hcur₁ : (leave (Trap.back cpu (.swi key)) (.ret r) k₁).kernel.currentProcess =
              some c := ht.runs.current.trans hc'
          cases runsWithout_running hcur₁ hm
          exact ⟨iff_of_true rfl hsus, fun item hitem => Function.update_of_ne hitem _ _⟩
  · rw [leave_kernel] at hi' ⊢
    have hi₀ : sp i = none := (hruns.owns.2 i).mp hi
    have hi₁ : sp' i ≠ none := fun hnone => hi' ((ht.runs.owns.2 i).mpr hnone)
    have htable : a.table i = none := (hruns.live i).mp hi₀
    have hborn := hanswers.born hr htable fun hnone => hi₁ ((ht.runs.live i).mpr hnone)
    have hne : i ≠ c := by
      rintro rfl
      simp [htable] at hr
    refine ⟨?_, fun k' cpu' hm hcur => child_starts hc hr hi₀ hi₁ ht hne hm hcur⟩
    obtain ⟨s, hs'⟩ := Option.ne_none_iff_exists'.mp hi₁
    rw [(ht.runs.world.slot i s hs').fields.pid]
    rw [hborn, writtenResult, Option.some.injEq] at hout
    exact hout.symm

/-- The shell forks: it goes on with 2 in `r0`, and its child starts with 0. -/
theorem syscall_results_fork : ∃ (k k₁ k₂ : Kernel shellDisk.Reader) (cpu : Context),
    (machineCode shellDisk.Reader smallLayout smallImage).Reachable (.user k cpu) ∧
      cpu .R0 = 4 ∧ Written smallLayout 0 k cpu 2 ∧
      (machineCode shellDisk.Reader smallLayout smallImage).step (.user k cpu) (.trap (.swi 0))
        (.user k₁ (Function.update cpu .R0 2)) ∧
      (machineCode shellDisk.Reader smallLayout smallImage).step
        (.user k₁ (Function.update cpu .R0 2)) (.trap .timer)
        (.user k₂ (Function.update cpu .R0 0)) ∧
      k₁.currentProcess = some 0 ∧ k₂.currentProcess = some 1 := by
  obtain ⟨k, k₁, cpu, sp₁, hreach, hcur, h₄, hunused, hrun, hstep, hruns⟩ := exists_codeFork
  have hw : Written smallLayout 0 k cpu 2 := ⟨_, k₁, hrun, rfl⟩
  obtain ⟨k₂, sp₂, hs₂, hruns₂, hc₂⟩ := exists_timer smallImage hruns (c := 0) (d := 1)
    (by decide +kernel) (by decide +kernel) (Function.update cpu .R0 2) (by decide +kernel)
  have hcur₁ : k₁.currentProcess = some 0 := hruns.current.trans (by decide +kernel)
  have hlive : (k₁.processTable 1).state ≠ .UNUSED := fun hu =>
    absurd ((hruns.view 1).unused_iff.mp hu) (by decide +kernel)
  have hne : k₁.currentProcess ≠ some 1 := by
    rw [hcur₁]
    decide
  have hchild := ((syscall_results hreach hcur hw hstep).2 1 hunused hlive).2 k₂ _
    (runsWithout_step hs₂ hne) hc₂
  rw [hchild] at hs₂
  exact ⟨k, k₁, k₂, cpu, hreach, h₄, hw, hstep, hs₂, hcur₁, hc₂⟩

/-- **`yield` returns its own number.**  The shell calls `yield`, whose handler is written to return
0, and goes on with 6 in `r0`. -/
theorem yield_returns_its_number : ∃ (k k₁ : Kernel shellDisk.Reader) (cpu : Context),
    (machineCode shellDisk.Reader smallLayout smallImage).Reachable (.user k cpu) ∧
      k.currentProcess = some 0 ∧ Written smallLayout 0 k cpu 0 ∧
      (machineCode shellDisk.Reader smallLayout smallImage).step (.user k cpu) (.trap (.swi 0))
        (.user k₁ cpu) ∧ k₁.currentProcess = some 0 ∧ cpu .R0 = 6 ∧ cpu .R0 ≠ word 0 := by
  obtain ⟨k, cpu₀, s, hreach, hs⟩ := exists_running
  let cpu : Context := Function.update cpu₀ .R0 6
  have hwork : step smallLayout (.user k cpu₀) (.work cpu) = some (.user k cpu) := if_pos rfl
  obtain ⟨hsave, hcpu⟩ := hs.runs.saveContext (c := 0) rfl cpu
  obtain ⟨out, k₁, hrun, rfl, rfl⟩ := (wp_schedule (F := False) hsave).total id
  have hnext : Tasks.initial.next = some 0 := by decide +kernel
  have hsched : Tasks.initial.schedule = (.initial, .resume) := by
    rw [Tasks.schedule, hnext]
    rfl
  rw [hsched] at hrun
  have hcall : (handleSyscall smallLayout 0 (cpu .R0) (cpu .R1)).run (saveContext k cpu) =
      some (.resume, (saveContext k cpu).runAs .initial) := hrun
  have htrap : step smallLayout (.user k cpu) (.trap (.swi 0)) =
      some (.user ((saveContext k cpu).runAs .initial) cpu) := by
    refine Option.map_eq_some_iff.mpr ⟨_, hcall, ?_⟩
    exact congrArg (Machine.user _) hcpu
  exact ⟨k, _, cpu, machineCode_reachable.mpr (hreach.step hwork), hs.runs.current,
    ⟨_, _, hcall, rfl⟩, exists_codeTrap smallImage hs.runs (c := 0) rfl rfl htrap, rfl, rfl,
    show 6 ≠ word 0 by decide⟩

end Runs

end Arunos
