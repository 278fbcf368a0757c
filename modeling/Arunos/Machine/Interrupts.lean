import Arunos.Machine.Step

/-!
# Machine — Interrupts — saved contexts, and interrupts that find the kernel at work

`startup.S` unmasks interrupts before `c_entry`.  Later every entry to the kernel masks them until
it goes back to user mode, so `c_entry` is the one piece of kernel code that an interrupt can find
at work.  Up to its call of `schedule` that does nothing: `current_process` is null, `SAVE_CONTEXT`
stores nothing, and the UART handler works on the console's buffer only.  In `schedule` it is
otherwise, and the search, `proc_start` and `switch_to_context` are split here at the points where
an interrupt makes a difference (`Point`).

* `arunos_init_interruptible`: without interrupts `c_entry` does what `arunos` takes for its start.
* `boot_interrupt_spoils_context`: an interrupt after `current_process` has been set saves the
  kernel's own registers as the context of the shell, which is then resumed in supervisor mode.
* `saved_contexts_user_mode`: in every run without such an interrupt, and with programs that stay
  below `KERNEL_BASE`, a saved context is one of user mode and the process's own.
-/

namespace Arunos

variable {σ : Type} {L : Layout} {k k' : Kernel σ} {cpu : Context} {a a' : Tasks} {c d i : Fin 10}
  {sp sp' : Fin 10 → Option Space} {m m' : Machine σ} {t : Trap} {s : Space}

/-! ### `c_entry` in `schedule` -/

/-- Where `c_entry` is in its call of `schedule`. -/
inductive Point where
  /-- At the head of the loop, with `left` slots to try. -/
  | search (left : Nat)
  /-- After `round_robin_index++`. -/
  | bumped (left : Nat)
  /-- After the wrap of `round_robin_index`. -/
  | wrapped (left : Nat)
  /-- The process is `READY`. -/
  | found (proc : Fin 10)
  /-- After `current_process = proc`. -/
  | claimed (proc : Fin 10)
  /-- In `proc_start`, after the translation table base is set. -/
  | mapped (proc : Fin 10)
  /-- In `switch_to_context`, with the first two words loaded. -/
  | loading (proc : Fin 10) (cpsr addr : Nat)
  /-- In `switch_to_context`, before the jump. -/
  | loaded (cpu : Context)

/-- The lines that interrupt. -/
inductive Irq where
  | uart
  | timer
deriving DecidableEq

/-- The processor is in `c_entry`, or has left it. -/
inductive Stage (σ : Type) where
  | entry (p : Point) (k : Kernel σ)
  | machine (m : Machine σ)

/-- The kernel state of a stage. -/
def Stage.kernel : Stage σ → Kernel σ
  | .entry _ k => k
  | .machine m => m.kernel

/-- `c_entry` goes on to the next point. -/
def Point.next (k : Kernel σ) : Point → Option (Stage σ)
  | .search 0 => some (.machine (.panicked k))
  | .search (n + 1) =>
      some (.entry (.bumped n) { k with roundRobinIndex := k.roundRobinIndex + 1 })
  | .bumped n =>
      some (.entry (.wrapped n)
        { k with roundRobinIndex := if k.roundRobinIndex = 10 then 0 else k.roundRobinIndex })
  | .wrapped n =>
      if h : k.roundRobinIndex < 10 then
        if (k.processTable ⟨k.roundRobinIndex, h⟩).state = .READY then
          some (.entry (.found ⟨k.roundRobinIndex, h⟩) k)
        else some (.entry (.search n) k)
      else none
  | .found proc => some (.entry (.claimed proc) { k with currentProcess := some proc })
  | .claimed proc => (k.processTable proc).vm.map fun v =>
      .entry (.mapped proc) { k with currentProcess := some proc, ttb := some v }
  | .mapped proc =>
      let context := (k.processTable proc).context
      some (.entry (.loading proc (context .CPSR) (context .RESTART_ADDR)) k)
  | .loading proc cpsr addr =>
      let context := (k.processTable proc).context
      some (.entry (.loaded
        (Function.update (Function.update context .CPSR cpsr) .RESTART_ADDR addr)) k)
  | .loaded cpu => some (.machine (.user k cpu))

/-- The registers of kernel code that an interrupt finds: supervisor mode, unmasked, and an address
of the kernel. -/
def KernelMode (cpu : Context) : Prop :=
  cpu .CPSR % 32 = 0x13 ∧ cpu .CPSR / 128 % 2 = 0 ∧ 0x80000000 ≤ cpu .RESTART_ADDR

/-- The machine runs a program in user mode. -/
def Machine.UserMode (m : Machine σ) : Prop := ∀ k cpu, m = .user k cpu → cpu .CPSR % 32 = 0x10

/-- What happens: `c_entry` goes on, an interrupt finds it with the registers `cpu`, or an event of
the machine. -/
inductive StageEvent where
  | advance
  | interrupt (irq : Irq) (cpu : Context)
  | program (e : Event)

/-- `irq_entry` when it has found `c_entry` at `p`.  The UART handler returns there; `handle_timer`
does not return. -/
def irqEntry (p : Point) (k : Kernel σ) (cpu : Context) : Irq → Option (Stage σ)
  | .uart => some (.entry p (saveContext k cpu))
  | .timer =>
      (schedule.run (saveContext k cpu)).map fun r => .machine (leave (fun _ => cpu) r.1 r.2)

/-- One step, as a relation: a program in user mode takes the steps of the machine. -/
inductive Stage.Step [BlockDevice σ] (L : Layout) : Stage σ → StageEvent → Stage σ → Prop where
  | advance {p : Point} {k : Kernel σ} {y : Stage σ} (h : p.next k = some y) :
      Step L (.entry p k) .advance y
  | interrupt {p : Point} {k : Kernel σ} {irq : Irq} {cpu : Context} {y : Stage σ}
      (hk : KernelMode cpu) (h : irqEntry p k cpu irq = some y) :
      Step L (.entry p k) (.interrupt irq cpu) y
  | program {m m' : Machine σ} {e : Event} (hm : m.UserMode) (h : step L m e = some m') :
      Step L (.machine m) (.program e) (.machine m')

/-- The system with `c_entry` in its call of `schedule`. -/
def interruptible (σ : Type) [BlockDevice σ] (L : Layout) : System (Stage σ) StageEvent where
  init x := ∃ ram dev ok k, (prepare L).run (Kernel.initial ram dev) = some (ok, k) ∧
    x = if ok then .entry (.search 10) k else .machine (.halted k)
  step := Stage.Step L

/-! ### Origins -/

/-- The registers with which each process has entered the kernel, and those of the process that has
created it. -/
structure Book where
  entries : Fin 10 → List Context
  parent : Fin 10 → Option Context

/-- The book before any process runs. -/
def Book.start : Book := ⟨fun _ => [], fun _ => none⟩

/-- The process in `c` enters the kernel with the registers `cpu`.  A slot that is not in use may
get a process now. -/
def Book.enter (b : Book) (k : Kernel σ) (c : Fin 10) (cpu : Context) : Book where
  entries i :=
    if (k.processTable i).state = .UNUSED then []
    else if i = c then cpu :: b.entries i else b.entries i
  parent i := if (k.processTable i).state = .UNUSED then some cpu else b.parent i

/-- The book after a step. -/
def Book.note (b : Book) (x : Stage σ) (e : StageEvent) (_ : Stage σ) : Book :=
  match x, e with
  | .machine (.user k cpu), .program (.trap _) =>
      match k.currentProcess with
      | some c => b.enter k c cpu
      | none => b
  | _, _ => b

/-- The context was built by `load_elf`, built by `fork`, or saved from the process itself. -/
def Book.Origin (b : Book) (i : Fin 10) (context : Context) : Prop :=
  (∃ entry < 0x100000, context = startContext entry) ∨
    (∃ cpu, b.parent i = some cpu ∧ context = childContext cpu) ∨ context ∈ b.entries i

/-- The system with the book. -/
def booked (σ : Type) [BlockDevice σ] (L : Layout) : System (Stage σ × Book) StageEvent :=
  (interruptible σ L).observe (fun _ => .start) Book.note

/-- A context to resume in user mode, below the kernel. -/
structure UserContext (context : Context) : Prop where
  mode : context .CPSR % 32 = 0x10
  address : context .RESTART_ADDR < 0x80000000

/-- The contexts of the processes that have started. -/
def Contexts (k : Kernel σ) (b : Book) : Prop :=
  ∀ i, (k.processTable i).state = .READY ∨ (k.processTable i).state = .SLEEPING →
    UserContext (k.processTable i).context ∧ b.Origin i (k.processTable i).context

theorem UserContext.start {entry : Nat} (h : entry < 0x100000) : UserContext (startContext entry) :=
  ⟨rfl, h.trans (by decide)⟩

theorem UserContext.child (h : UserContext cpu) : UserContext (childContext cpu) :=
  ⟨h.mode, h.address⟩

theorem Spares.context {j : Fin 10} (h : Spares j sp sp' k k') :
    (k'.processTable j).context = (k.processTable j).context := by
  have hbody := congrArg Process.context h.process
  exact hbody

theorem Shows.started {p : Process} {o : Option (Status (Fin 10))} (h : Shows p o) (ho : o ≠ none) :
    p.state = .READY ∨ p.state = .SLEEPING := by
  rcases o with _ | _ | d
  · exact absurd rfl ho
  · exact .inl h.1
  · exact .inr h.1

theorem saveContext_current (cpu : Context) (hc : k.currentProcess = some c) :
    (saveContext k cpu).processTable c = { k.processTable c with context := cpu } := by
  simp only [saveContext, hc]
  rw [setEntry_processTable]

theorem saveContext_context (hc : k.currentProcess = some c) (hi : i ≠ c) :
    ((saveContext k cpu).processTable i).context = (k.processTable i).context := by
  simp only [saveContext, hc]
  rw [setEntry_of_ne hi]

/-- **A trap** from user mode leaves the contexts in order. -/
theorem Trapped.contexts {b : Book} {out : Outcome} (hb : Contexts k b) (h : Runs L k a sp)
    (hc : a.current = some c) (hcpu : UserContext cpu)
    (ht : Trapped L a c sp (saveContext k cpu) cpu t out k' a' sp') :
    Contexts k' (b.enter k c cpu) := by
  intro i hi
  have hlive : sp' i ≠ none := fun hnone => by
    have := (ht.runs.view i).unused_iff.mpr ((ht.runs.live i).mp hnone)
    rcases hi with hi | hi <;> cases this.symm.trans hi
  have hcur : k.currentProcess = some c := h.current.trans hc
  by_cases hsp : sp i = none
  · -- a new process: the child of the caller, or a program of the monitor
    have hu : (k.processTable i).state = .UNUSED := h.owns.2 i |>.mpr hsp
    have hbears := ht.child i hsp hlive
    cases t with
    | execute name =>
        obtain ⟨entry, he, heq⟩ := hbears
        exact heq ▸ ⟨.start he, .inl ⟨entry, he, rfl⟩⟩
    | swi key | timer | uart =>
        rw [show (k'.processTable i).context = childContext cpu from hbears]
        exact ⟨hcpu.child, .inr (.inl ⟨cpu, if_pos hu, rfl⟩)⟩
  have hu : (k.processTable i).state ≠ .UNUSED := fun hu => hsp ((h.owns.2 i).mp hu)
  by_cases hic : i = c
  · subst hic
    rcases ht.caller hlive with hs | ⟨-, -, -, entry, he, heq⟩
    · have hctx : (k'.processTable i).context = cpu := hs.context.trans (h.saveContext hc cpu).2
      rw [hctx]
      refine ⟨hcpu, .inr (.inr ?_)⟩
      simp [Book.enter, hu]
    · exact heq ▸ ⟨.start he, .inl ⟨entry, he, rfl⟩⟩
  · have hctx := (ht.others i hic hsp).context.trans (saveContext_context hcur hic)
    obtain ⟨huser, horigin⟩ := hb i ((h.view i).started fun hnone => hsp ((h.live i).mpr hnone))
    rw [hctx]
    refine ⟨huser, ?_⟩
    simpa [Book.Origin, Book.enter, hu, hic] using horigin

/-! ### The points of `c_entry` -/

/-- The kernel variables that `schedule` sets, at each of its points. -/
def Point.Holds (k : Kernel σ) : Point → Prop
  | .search _ => k.currentProcess = none ∧ k.ttb = none ∧ k.roundRobinIndex < 10
  | .bumped _ => k.currentProcess = none ∧ k.ttb = none ∧ k.roundRobinIndex ≤ 10
  | .wrapped _ => k.currentProcess = none ∧ k.ttb = none ∧ k.roundRobinIndex < 10
  | .found proc => k.currentProcess = none ∧ k.ttb = none ∧ k.roundRobinIndex = proc.val ∧
      (k.processTable proc).state = .READY
  | .claimed proc => k.currentProcess = some proc ∧ k.ttb = none ∧ k.roundRobinIndex = proc.val ∧
      (k.processTable proc).state = .READY
  | .mapped proc => k.currentProcess = some proc ∧ k.ttb = some proc ∧
      k.roundRobinIndex = proc.val ∧ (k.processTable proc).state = .READY
  | .loading proc cpsr addr => k.currentProcess = some proc ∧ k.ttb = some proc ∧
      k.roundRobinIndex = proc.val ∧ (k.processTable proc).state = .READY ∧
      cpsr = (k.processTable proc).context .CPSR ∧
      addr = (k.processTable proc).context .RESTART_ADDR
  | .loaded cpu => ∃ proc, k.currentProcess = some proc ∧ k.ttb = some proc ∧
      k.roundRobinIndex = proc.val ∧ (k.processTable proc).state = .READY ∧
      cpu = (k.processTable proc).context

/-- `c_entry` is at the point `p` and the shell is loaded. -/
def AtPoint (L : Layout) (p : Point) (k : Kernel σ) : Prop :=
  (∃ s, Prepared L (k.runAs .unscheduled) s) ∧ p.Holds k

theorem Prepared.runs_at (h : Prepared L (k.runAs .unscheduled) s)
    (ht : a.table = Tasks.unscheduled.table) (hc : k.currentProcess = a.current)
    (httb : k.ttb = a.current) (hr : k.roundRobinIndex = a.round.val) :
    Runs L k a (Function.update (fun _ => none) 0 (some s)) := by
  rw [← Kernel.runAs_self hc httb hr]
  exact h.runs.runAs ht

theorem Prepared.contexts (h : Prepared L (k.runAs .unscheduled) s) (b : Book) : Contexts k b := by
  intro i hi
  have hv := h.runs.view i
  by_cases h0 : i = 0
  · subst h0
    obtain ⟨entry, he, hctx⟩ := h.context
    rw [show (k.processTable 0).context = startContext entry from hctx]
    exact ⟨.start he, .inl ⟨entry, he, rfl⟩⟩
  · have hnone : Tasks.unscheduled.table i = none := by simp [Tasks.unscheduled, Tasks.initial, h0]
    rw [hnone] at hv
    rcases hi with hi | hi <;> cases hi.symm.trans hv

/-- A choice among the loaded processes. -/
def Tasks.chosen (current : Option (Fin 10)) (round : Fin 10) : Tasks :=
  ⟨Tasks.unscheduled.table, current, round⟩

/-- What holds in every stage of a run without harmful interrupts. -/
def StageOk (L : Layout) (x : Stage σ) (b : Book) : Prop :=
  match x with
  | .entry p k => AtPoint L p k
  | .machine m => Contexts m.kernel b ∧ m.UserMode ∧
      ∀ k cpu, m = .user k cpu → ∃ a sp, InTasks L a sp m

theorem StageOk.contexts {x : Stage σ} {b : Book} (h : StageOk L x b) : Contexts x.kernel b := by
  cases x with
  | entry p k =>
      obtain ⟨⟨s, hs⟩, -⟩ := h
      exact hs.contexts b
  | machine m => exact h.1

theorem Tasks.schedule_ne_ret (a : Tasks) (r : Int) : a.schedule.2 ≠ .ret r := by
  unfold Tasks.schedule
  cases a.next <;> simp

/-- A machine that a handler or `c_entry` ends in. -/
theorem StageOk.leave {b : Book} {out : Outcome} {back : Int → Context}
    (hin : InTasks L a sp (leave back out k)) (hb : Contexts k b)
    (hback : ∀ r, out = .ret r → back r .CPSR % 32 = 0x10) :
    StageOk L (.machine (Arunos.leave back out k)) b := by
  refine ⟨(leave_kernel back out k).symm ▸ hb, ?_, fun _ _ _ => ⟨a, sp, hin⟩⟩
  intro k₁ cpu₁ hm
  cases out with
  | ret r =>
      cases hm
      exact hback r rfl
  | panic => cases hm
  | halt => cases hm
  | resume =>
      rw [Arunos.leave, switchToContext] at hm hin
      cases hc : k.currentProcess with
      | none =>
          rw [hc] at hm
          cases hm
      | some d =>
          rw [hc] at hm hin
          cases hm
          cases hin with
          | user x hruns hx hr =>
              obtain rfl : x = d := Option.some.inj (hx.symm.trans (hruns.current.symm.trans hc))
              exact (hb x (.inl ((hruns.view x).ready_iff.mpr hr))).1.mode

/-- `c_entry` goes on. -/
theorem AtPoint.next {p : Point} {y : Stage σ} {b : Book} (h : AtPoint L p k)
    (hy : p.next k = some y) : StageOk L y b := by
  obtain ⟨⟨s, hs⟩, hp⟩ := h
  cases p with
  | search left =>
      cases left with
      | zero =>
          cases hy
          exact ⟨hs.contexts b, fun _ _ h => (by cases h), fun _ _ h => (by cases h)⟩
      | succ n =>
          cases hy
          exact ⟨⟨s, hs⟩, hp.1, hp.2.1, hp.2.2⟩
  | bumped left =>
      cases hy
      refine ⟨⟨s, hs⟩, hp.1, hp.2.1, ?_⟩
      have := hp.2.2
      dsimp only
      split <;> omega
  | wrapped left =>
      rw [Point.next, dif_pos hp.2.2] at hy
      split at hy
      next hr =>
        cases hy
        exact ⟨⟨s, hs⟩, hp.1, hp.2.1, rfl, hr⟩
      · cases hy
        exact ⟨⟨s, hs⟩, hp⟩
  | found proc =>
      cases hy
      exact ⟨⟨s, hs⟩, rfl, hp.2⟩
  | claimed proc =>
      obtain ⟨v, hv, rfl⟩ := Option.map_eq_some_iff.mp hy
      have hready := (hs.runs.view proc).ready_iff.mp hp.2.2.2
      obtain ⟨t, ht⟩ := hs.runs.space (i := proc) (by simp [hready])
      have hvm : (k.processTable proc).vm = some proc := (hs.runs.world.slot proc t ht).fields.vm
      obtain rfl : proc = v := Option.some.inj (hvm.symm.trans hv)
      exact ⟨⟨s, hs⟩, rfl, rfl, hp.2.2⟩
  | mapped proc =>
      cases hy
      exact ⟨⟨s, hs⟩, hp.1, hp.2.1, hp.2.2.1, hp.2.2.2, rfl, rfl⟩
  | loading proc cpsr addr =>
      cases hy
      obtain ⟨h₁, h₂, h₃, h₄, rfl, rfl⟩ := hp
      refine ⟨⟨s, hs⟩, proc, h₁, h₂, h₃, h₄, ?_⟩
      rw [Function.update_eq_self, Function.update_eq_self]
  | loaded cpu =>
      cases hy
      obtain ⟨proc, h₁, h₂, h₃, h₄, rfl⟩ := hp
      have hruns : Runs L k (.chosen (some proc) proc) _ := hs.runs_at rfl h₁ h₂ h₃
      have hready := (hruns.view proc).ready_iff.mp h₄
      have hb := hs.contexts b
      refine ⟨hb, ?_, fun _ _ _ => ⟨_, _, .user proc hruns rfl hready⟩⟩
      rintro _ _ ⟨⟩
      exact (hb proc (.inl h₄)).1.mode

/-! ### The way to the first process -/

section Advance

/-! `R` is what runs reach, in one of the systems. -/

variable {R : Stage σ → Prop} (hR : ∀ p k y, R (.entry p k) → p.next k = some y → R y)

include hR

/-- The search ends with the next ready process. -/
theorem search_claims {n : Nat} (h : Runs L k a sp) (hr : R (.entry (.search n) k))
    (hd : nextFrom (fun d => a.table d = some .ready) n a.round = some d) :
    R (.entry (.claimed d) { k with currentProcess := some d, roundRobinIndex := d.val }) := by
  induction n generalizing k a with
  | zero => cases hd
  | succ n ih =>
      have hround : (if k.roundRobinIndex + 1 = 10 then 0 else k.roundRobinIndex + 1) =
          (a.round + 1).val := by rw [h.round, round_step]
      have hwrapped := hR _ _ _ (hR _ _ _ hr rfl) rfl
      dsimp only at hwrapped
      rw [hround] at hwrapped
      have hview := (h.view (a.round + 1)).ready_iff
      have hlt : (a.round + 1).val < 10 := (a.round + 1).isLt
      rw [nextFrom] at hd
      split at hd
      next hready =>
        cases hd
        have hstate := hview.mpr (by simpa using hready)
        have hfound := hR _ _ (.entry (.found (a.round + 1))
          { k with roundRobinIndex := (a.round + 1).val }) hwrapped
          (by rw [Point.next, dif_pos hlt, if_pos hstate])
        exact hR _ _ _ hfound rfl
      next hready =>
        have hstate := fun e => hready (by simpa using hview.mp e)
        have hruns : Runs L { k with roundRobinIndex := (a.round + 1).val }
            { a with round := a.round + 1 } sp :=
          ⟨h.world.same rfl rfl rfl rfl, h.live, h.view, h.current,
            h.ttb, rfl⟩
        have hsearch := hR _ _ (.entry (.search n) _) hwrapped
          (by rw [Point.next, dif_pos hlt, if_neg hstate])
        have hclaimed := ih hruns hsearch hd
        exact hclaimed

/-- The claimed process is resumed from its saved context. -/
theorem claimed_resumes {v : Fin 10} (hr : R (.entry (.claimed d) k))
    (hv : (k.processTable d).vm = some v) :
    R (.machine (.user { k with currentProcess := some d, ttb := some v }
      (k.processTable d).context)) := by
  have hmapped := hR _ _ (.entry (.mapped d) { k with currentProcess := some d, ttb := some v }) hr
    (by rw [Point.next, hv]; rfl)
  have hloaded := hR _ _ _ (hR _ _ _ hmapped rfl) rfl
  dsimp only at hloaded
  rw [Function.update_eq_self, Function.update_eq_self] at hloaded
  exact hR _ _ _ hloaded rfl

end Advance

/-- The interrupts that `c_entry` stands at `p`: none once `current_process` is set, and not the
timer's when `round_robin_index` has been incremented to 10 and not yet wrapped. -/
def Point.Safe (k : Kernel σ) : Point → Irq → Prop
  | .search _, _ => True
  | .bumped _, irq => irq = .uart ∨ k.roundRobinIndex ≠ 10
  | .wrapped _, _ => True
  | .found _, _ => True
  | _, _ => False

/-- The process in `c_entry` may be interrupted, and a program that traps is below `KERNEL_BASE`. -/
def Harmless (x : Stage σ × Book) (e : StageEvent) (_ : Stage σ × Book) : Prop :=
  match x.1, e with
  | .entry p k, .interrupt irq _ => p.Safe k irq
  | .machine (.user _ cpu), .program (.trap _) => cpu .RESTART_ADDR < 0x80000000
  | _, _ => True

/-- Where an interrupt is safe, no process runs. -/
theorem Point.Safe.idle {p : Point} {irq : Irq} (h : p.Safe k irq) (hp : p.Holds k) :
    k.currentProcess = none ∧ k.ttb = none ∧ (irq = .timer → k.roundRobinIndex < 10) := by
  cases p with
  | search left => exact ⟨hp.1, hp.2.1, fun _ => hp.2.2⟩
  | bumped left =>
      refine ⟨hp.1, hp.2.1, fun ht => ?_⟩
      rcases h with hu | hne
      · cases ht.symm.trans hu
      · exact lt_of_le_of_ne hp.2.2 hne
  | wrapped left => exact ⟨hp.1, hp.2.1, fun _ => hp.2.2⟩
  | found proc => exact ⟨hp.1, hp.2.1, fun _ => hp.2.2.1 ▸ proc.isLt⟩
  | claimed proc => cases h
  | mapped proc => cases h
  | loading proc cpsr addr => cases h
  | loaded cpu => cases h

/-- A safe interrupt. -/
theorem AtPoint.interrupt {p : Point} {y : Stage σ} {b : Book} {irq : Irq} (h : AtPoint L p k)
    (hsafe : p.Safe k irq) (hy : irqEntry p k cpu irq = some y) : StageOk L y b := by
  obtain ⟨hcur, httb, hlt⟩ := hsafe.idle h.2
  have hsave : saveContext k cpu = k := by rw [saveContext, hcur]
  rw [irqEntry.eq_def, hsave] at hy
  cases irq with
  | uart =>
      cases hy
      exact h
  | timer =>
      obtain ⟨⟨s, hs⟩, -⟩ := h
      obtain ⟨⟨out, k'⟩, hrun, rfl⟩ := Option.map_eq_some_iff.mp hy
      have hruns : Runs L k (.chosen none ⟨k.roundRobinIndex, hlt rfl⟩) _ :=
        hs.runs_at rfl hcur httb rfl
      obtain ⟨rfl, rfl⟩ := (wp_schedule (F := False) hruns).elim hrun
      refine .leave ((Tasks.schedule_settled 0 _).inTasks hruns.schedule _) (hs.contexts b) ?_
      exact fun r hret => absurd hret (Tasks.schedule_ne_ret _ r)

variable [BlockDevice σ]

omit [BlockDevice σ] in
theorem Prepared.vm (h : Prepared L k s) : (k.processTable 0).vm = some 0 :=
  (h.runs.world.slot 0 s (Function.update_self _ _ _)).fields.vm

omit [BlockDevice σ] in
/-- `c_entry` finds the shell. -/
theorem Prepared.claims {R : Stage σ → Prop}
    (hR : ∀ p k y, R (.entry p k) → p.next k = some y → R y) (h : Prepared L k s)
    (hr : R (.entry (.search 10) k)) :
    R (.entry (.claimed 0) { k with currentProcess := some 0, roundRobinIndex := 0 }) :=
  search_claims hR h.runs hr (by decide)

/-- **Without interrupts** `c_entry` ends where the runs of `arunos` start. -/
theorem arunos_init_interruptible (h : (arunos σ L).init m) :
    (interruptible σ L).Reachable (.machine m) := by
  have hR : ∀ p k y, (interruptible σ L).Reachable (.entry p k) → p.next k = some y →
      (interruptible σ L).Reachable y := fun _ _ _ hr hy => hr.step (.advance hy)
  obtain ⟨ram, dev, out, k, hrun, rfl⟩ := h
  rw [cEntry, StateT.run_bind] at hrun
  obtain ⟨⟨ok, k₁⟩, hprep, hrest⟩ := Option.bind_eq_some_iff.mp hrun
  have hinit := System.Reachable.init (A := interruptible σ L) ⟨ram, dev, ok, k₁, hprep, rfl⟩
  rcases ((wp_prepare ram dev).elim hprep).1 with ⟨rfl, -⟩ | ⟨rfl, s, hp⟩
  · cases hrest
    exact hinit
  · obtain ⟨rfl, rfl⟩ := (wp_schedule (F := False) hp.runs).elim hrest
    rw [Tasks.unscheduled_schedule]
    exact claimed_resumes hR (hp.claims hR hinit) hp.vm

theorem stageOk_step {x y : Stage σ} {e : StageEvent} {b : Book} (h : StageOk L x b)
    (hs : x.Step L e y) (hG : Harmless (x, b) e (y, b.note x e y)) :
    StageOk L y (b.note x e y) := by
  cases hs with
  | advance hy => exact AtPoint.next h hy
  | interrupt hk hy => exact AtPoint.interrupt h hG hy
  | @program m m' e hm hstep =>
      obtain ⟨k, cpu, rfl, hcases⟩ := step_cases hstep
      obtain ⟨hb, hmode, htasks⟩ := h
      obtain ⟨a, sp, hin⟩ := htasks k cpu rfl
      cases hin with
      | user c hruns hc hr =>
          rcases hcases with
            ⟨cpu', rfl, hcpsr, rfl⟩ | ⟨virtual, byte, addr, rfl, ha, rfl⟩ | ⟨t, rfl, ht⟩
          · refine ⟨hb, ?_, fun _ _ _ => ⟨a, sp, .user c hruns hc hr⟩⟩
            rintro _ _ ⟨⟩
            have := hmode k cpu rfl
            omega
          · refine ⟨hb, ?_, fun _ _ _ => ⟨a, sp, .user c (hruns.store hc hr ha byte) hc hr⟩⟩
            rintro _ _ ⟨⟩
            exact hmode k cpu rfl
          · obtain ⟨a', sp', out, k', htrap, rfl, hin'⟩ := step_trap hruns hc hr ht
            have hcur : k.currentProcess = some c := hruns.current.trans hc
            have hnote : b.note (.machine (.user k cpu)) (.program (.trap t))
                (.machine (leave (t.back cpu) out k')) = b.enter k c cpu := by
              simp only [Book.note, hcur]
            rw [hnote]
            refine .leave hin' (htrap.contexts hb hruns hc ⟨hmode k cpu rfl, hG⟩) fun r _ => ?_
            cases t <;> exact hmode k cpu rfl

/-- **Saved contexts are of user mode**, in every run in which no interrupt finds `c_entry` with a
`current_process` set, the timer's none with a `round_robin_index` to be wrapped, and programs stay
below `KERNEL_BASE`: the saved context of a process that is `READY` has the mode bits of user mode
and an address below the kernel, and was built by `load_elf` or `fork` or saved from the process's
own execution.  So the processor never leaves the kernel in another mode. -/
theorem saved_contexts_user_mode {x : Stage σ} {b : Book}
    (h : ((booked σ L).restrict Harmless).Reachable (x, b)) :
    (∀ i, (x.kernel.processTable i).state = .READY →
      UserContext (x.kernel.processTable i).context ∧
      b.Origin i (x.kernel.processTable i).context) ∧
    ∀ k cpu, x = .machine (.user k cpu) → cpu .CPSR % 32 = 0x10 := by
  have hok : StageOk L x b := by
    refine System.Reachable.observed_invariant h ?_ fun _ _ _ _ => stageOk_step
    rintro x ⟨ram, dev, ok, k, hrun, rfl⟩
    rcases ((wp_prepare ram dev).elim hrun).1 with ⟨rfl, -, hu, -⟩ | ⟨rfl, s, hs⟩
    · refine ⟨fun i hi => ?_, fun _ _ h => (by cases h), fun _ _ h => (by cases h)⟩
      have hi' : (k.processTable i).state = .READY ∨ (k.processTable i).state = .SLEEPING := hi
      by_cases hused : (k.processTable i).state = .UNUSED
      · rcases hi' with hi | hi <;> cases hi.symm.trans hused
      · rcases hi' with hi | hi <;> cases hi.symm.trans (hu i hused).1
    · have hself : k.runAs .unscheduled = k := hs.runs.runAs_self
      refine ⟨⟨s, hself.symm ▸ hs⟩, hs.runs.current, hs.runs.ttb, ?_⟩
      rw [hs.runs.round]
      decide
  refine ⟨fun i hi => hok.contexts i (.inl hi), ?_⟩
  rintro k cpu rfl
  exact hok.2.1 k cpu rfl

/-- Registers of kernel code in `c_entry`. -/
def entryRegisters : Context
  | .CPSR => 0x13
  | .RESTART_ADDR => 0x80100000
  | _ => 0

theorem entryRegisters_kernelMode : KernelMode entryRegisters :=
  ⟨by decide, by decide, by decide⟩

/-- The port interrupts `c_entry` in its search.  The shell is started and works, and the timer
interrupts it: the registers it had then are saved. -/
theorem saved_contexts_user_mode_shell :
    ∃ (k₀ k k' : Kernel shellDisk.Reader) (cpu cpu' : Context) (b : Book),
      ((booked shellDisk.Reader smallLayout).restrict Harmless).Reachable
        (.entry (.search 10) k₀, .start) ∧
      ((booked shellDisk.Reader smallLayout).restrict Harmless).step
        (.entry (.search 10) k₀, .start) (.interrupt .uart entryRegisters)
        (.entry (.search 10) k₀, .start) ∧
      ((booked shellDisk.Reader smallLayout).restrict Harmless).Reachable
        (.machine (.user k cpu), .start) ∧ cpu .R4 = 7 ∧
      ((booked shellDisk.Reader smallLayout).restrict Harmless).step
        (.machine (.user k cpu), .start) (.program (.trap .timer)) (.machine (.user k' cpu'), b) ∧
      (k'.processTable 0).state = .READY ∧ (k'.processTable 0).context = cpu ∧
      UserContext (k'.processTable 0).context ∧ b.Origin 0 (k'.processTable 0).context := by
  obtain ⟨k, s, hrun, hp⟩ := exists_prepared fun _ => 0
  let R (x : Stage shellDisk.Reader) : Prop :=
    ((booked shellDisk.Reader smallLayout).restrict Harmless).Reachable (x, .start)
  have hR : ∀ p k y, R (.entry p k) → p.next k = some y → R y :=
    fun _ _ _ hr hy => hr.step (e := .advance) ⟨⟨.advance hy, rfl⟩, trivial⟩
  have hinit : R (.entry (.search 10) k) := .init ⟨⟨_, _, true, k, hrun, rfl⟩, rfl⟩
  -- no process runs, so nothing is saved
  have huart : irqEntry (.search 10) k entryRegisters .uart = some (.entry (.search 10) k) := by
    rw [irqEntry, saveContext, hp.runs.current]
    rfl
  have hirq : ((booked shellDisk.Reader smallLayout).restrict Harmless).step
      (.entry (.search 10) k, .start) (.interrupt .uart entryRegisters)
      (.entry (.search 10) k, .start) :=
    ⟨⟨.interrupt entryRegisters_kernelMode huart, rfl⟩, trivial⟩
  have hstart := claimed_resumes hR (hp.claims hR (hinit.step hirq)) hp.vm
  let k₁ : Kernel shellDisk.Reader :=
    { k with currentProcess := some 0, ttb := some 0, roundRobinIndex := 0 }
  have hself : Prepared smallLayout (k₁.runAs .unscheduled) s := hp.runs.runAs_self.symm ▸ hp
  have hruns : Runs smallLayout k₁ (.chosen (some 0) 0) _ := hself.runs_at rfl rfl rfl rfl
  -- the shell has worked
  let cpu : Context := Function.update (k.processTable 0).context .R4 7
  have hstep : step smallLayout (.user k₁ (k.processTable 0).context) (.work cpu) =
      some (.user k₁ cpu) := if_pos rfl
  have hmode : ∀ {k cpu}, R (.machine (.user k cpu)) → (Machine.user k cpu).UserMode := by
    rintro k cpu hr _ _ ⟨⟩
    exact (saved_contexts_user_mode hr).2 k cpu rfl
  have hwork : R (.machine (.user k₁ cpu)) :=
    hstart.step (e := .program (.work cpu)) ⟨⟨.program (hmode hstart) hstep, rfl⟩, trivial⟩
  obtain ⟨k', sp', hs, hruns', -, hctx⟩ :=
    exists_step_timer hruns (c := 0) rfl rfl cpu (d := 0) (by decide)
  have haddr : cpu .RESTART_ADDR < 0x80000000 := by
    obtain ⟨entry, hentry, hcontext⟩ := hp.context
    show (k.processTable 0).context .RESTART_ADDR < 0x80000000
    rw [hcontext]
    exact hentry.trans (by decide)
  have htimer : ((booked shellDisk.Reader smallLayout).restrict Harmless).step
      (.machine (.user k₁ cpu), .start) (.program (.trap .timer))
      (.machine (.user k' (k'.processTable 0).context), Book.start.enter k₁ 0 cpu) :=
    ⟨⟨.program (hmode hwork) hs, rfl⟩, haddr⟩
  have hready : (k'.processTable 0).state = .READY :=
    (hruns'.view 0).ready_iff.mpr (by decide +kernel)
  obtain ⟨huser, horigin⟩ := (saved_contexts_user_mode (hwork.step htimer)).1 0 hready
  exact ⟨k, k₁, k', cpu, _, _, hinit, hirq, hwork, rfl, htimer, hready, hctx, huser, horigin⟩

/-- **The shell may be resumed in supervisor mode.**  An interrupt of the UART finds `c_entry` after
`current_process = proc`: the kernel's registers become the saved context of the shell, which is
`READY`, and `switch_to_context` goes back to them. -/
theorem boot_interrupt_spoils_context : ∃ (k k' : Kernel shellDisk.Reader) (cpu : Context),
    (interruptible shellDisk.Reader smallLayout).Reachable (.entry (.claimed 0) k) ∧
      (k.processTable 0).state = .READY ∧ (k.processTable 0).context .CPSR % 32 = 0x13 ∧
      0x80000000 ≤ (k.processTable 0).context .RESTART_ADDR ∧
      (interruptible shellDisk.Reader smallLayout).Reachable (.machine (.user k' cpu)) ∧
      cpu .CPSR % 32 = 0x13 ∧ 0x80000000 ≤ cpu .RESTART_ADDR := by
  obtain ⟨k, s, hrun, hp⟩ := exists_prepared fun _ => 0
  have hR : ∀ p k y, (interruptible shellDisk.Reader smallLayout).Reachable (.entry p k) →
      p.next k = some y → (interruptible shellDisk.Reader smallLayout).Reachable y :=
    fun _ _ _ hr hy => hr.step (.advance hy)
  let k₁ : Kernel shellDisk.Reader := { k with currentProcess := some 0, roundRobinIndex := 0 }
  have hclaimed : (interruptible _ _).Reachable (.entry (.claimed 0) k₁) :=
    hp.claims hR (.init ⟨_, _, true, k, hrun, rfl⟩)
  have hkernel := entryRegisters_kernelMode
  have huart : irqEntry (.claimed 0) k₁ entryRegisters .uart =
      some (.entry (.claimed 0) (saveContext k₁ entryRegisters)) := rfl
  have hspoilt := hclaimed.step (.interrupt hkernel huart)
  have hctx := saveContext_current entryRegisters (show k₁.currentProcess = some 0 from rfl)
  have hresumed := claimed_resumes hR hspoilt (congrArg Process.vm hctx |>.trans hp.vm)
  rw [hctx] at hresumed
  refine ⟨_, _, _, hspoilt, ?_, ?_, ?_, hresumed, hkernel.1, hkernel.2.2⟩
  all_goals rw [hctx]
  · exact (hp.runs.view 0).ready_iff.mpr rfl
  · exact hkernel.1
  · exact hkernel.2.2

end Arunos
