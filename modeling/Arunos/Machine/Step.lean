import Arunos.Proc.Boot
import Arunos.Support.System

/-!
# Machine — Step — the running system

A machine runs a user program with the registers `cpu` over a kernel state, or the kernel has
stopped.  The user program is arbitrary: it may do anything with its registers and store to any
page its page tables let it write (`Event.work`, `Event.store`).  A `Trap` enters the kernel, which
saves the registers to the running process's context, runs the handler to its end with interrupts
masked, and goes back: to the caller with the handler's result, or to the process the scheduler
chose.  The monitor's `execute` is entered like an interrupt.

`arunos L` is the system that starts with `c_entry` on arbitrary memory and an arbitrary disk.  In
its reachable states the machine is in a state of some abstract tasks (`InTasks`), and a step is
what `Stepped` says: the abstract reaction, a legal move of the wait-for table, and everything
spared that is not the trapping process's own.
-/

namespace Arunos

variable {σ : Type}

/-! ### The machine -/

/-- A machine between two instructions of a user program, or stopped in the loop of `schedule` or
of `c_entry`. -/
inductive Machine (σ : Type) where
  | user (k : Kernel σ) (cpu : Context)
  | panicked (k : Kernel σ)
  | halted (k : Kernel σ)

/-- The kernel state of a machine. -/
def Machine.kernel : Machine σ → Kernel σ
  | .user k _ => k
  | .panicked k => k
  | .halted k => k

/-- An entry to the kernel; `key` is what `kgetch` would return. -/
inductive Trap where
  | swi (key : Int)
  | timer
  | uart
  | execute (name : List UInt8)

/-- What happens next: the program computes, it stores a byte, or the kernel is entered. -/
inductive Event where
  | work (cpu : Context)
  | store (virtual : Nat) (b : UInt8)
  | trap (t : Trap)

/-- The byte of memory a user program's store to `virtual` reaches. -/
def userAddress (k : Kernel σ) (virtual : Nat) : Option Nat :=
  match descriptor k.mem.ram (activeVm k) (virtual / 4096) with
  | some e =>
      if e.accessPermissions = AP_RW_RW then some (p2v (e.baseAddress * 4096 + virtual % 4096))
      else none
  | none => none

/-- `SAVE_CONTEXT`: the registers go to the running process's context, if there is one. -/
def saveContext (k : Kernel σ) (cpu : Context) : Kernel σ :=
  match k.currentProcess with
  | some c => k.setEntry c { k.processTable c with context := cpu }
  | none => k

/-- `switch_to_context` for the running process. -/
def switchToContext (k : Kernel σ) : Machine σ :=
  match k.currentProcess with
  | some c => .user k (k.processTable c).context
  | none => .halted k

/-- The end of a handler; `back` has the registers to return with. -/
def leave (back : Int → Context) : Outcome → Kernel σ → Machine σ
  | .ret r, k => .user k (back r)
  | .resume, k => switchToContext k
  | .panic, k => .panicked k
  | .halt, k => .halted k

/-- The end of a handler changes nothing in the kernel. -/
theorem leave_kernel (back : Int → Context) (out : Outcome) (k : Kernel σ) :
    (leave back out k).kernel = k := by
  cases out with
  | resume =>
      change (switchToContext k).kernel = k
      unfold switchToContext
      split <;> rfl
  | _ => rfl

/-- A number as a register. -/
def word (r : Int) : Nat := (r % 2 ^ 32).toNat

/-- The registers after a handler has returned: a system call puts its result into `r0`. -/
def Trap.back (cpu : Context) : Trap → Int → Context
  | .swi _, r => Function.update cpu .R0 (word r)
  | _, _ => cpu

section Steps

variable [BlockDevice σ]

/-- The handler of a trap.  The UART handler works on the console's buffer only. -/
def Trap.handler (L : Layout) (cpu : Context) : Trap → KM σ Outcome
  | .swi key => handleSyscall L key (cpu .R0) (cpu .R1)
  | .timer => schedule
  | .uart => return .ret 0
  | .execute name => monExecute L name

/-- One step of the machine: none if the event cannot happen or the kernel faults.  User code
cannot write the control bits of `CPSR`. -/
def step (L : Layout) : Machine σ → Event → Option (Machine σ)
  | .user k cpu, .work cpu' =>
      if cpu' .CPSR % 256 = cpu .CPSR % 256 then some (.user k cpu') else none
  | .user k cpu, .store virtual b =>
      (userAddress k virtual).map fun a => .user (k.setRam (Function.update k.mem.ram a b)) cpu
  | .user k cpu, .trap t =>
      ((t.handler L cpu).run (saveContext k cpu)).map fun r => leave (t.back cpu) r.1 r.2
  | _, _ => none

/-- The system: `c_entry` on any memory and any disk, then any events. -/
def arunos (σ : Type) [BlockDevice σ] (L : Layout) : System (Machine σ) Event where
  init m := ∃ ram dev out k, (cEntry L).run (Kernel.initial ram dev) = some (out, k) ∧
    m = leave (fun _ _ => 0) out k
  step m e m' := step L m e = some m'

end Steps

/-! ### Machines in a state of the tasks -/

variable {L : Layout} {k k' : Kernel σ} {cpu : Context} {a a' : Tasks} {c : Fin 10}
  {sp sp' : Fin 10 → Option Space} {m m' : Machine σ} {t : Trap}

/-- The machine is in a state of the tasks `a`. -/
inductive InTasks (L : Layout) (a : Tasks) (sp : Fin 10 → Option Space) : Machine σ → Prop where
  | user {k : Kernel σ} {cpu : Context} (c : Fin 10) (runs : Runs L k a sp)
      (current : a.current = some c) (ready : a.table c = some .ready) :
      InTasks L a sp (.user k cpu)
  | panicked {k : Kernel σ} (runs : Runs L k a sp) (stuck : ∀ d, a.table d ≠ some .ready) :
      InTasks L a sp (.panicked k)

theorem InTasks.runs (h : InTasks L a sp m) : Runs L m.kernel a sp := by
  cases h with
  | user c runs current ready => exact runs
  | panicked runs stuck => exact runs

theorem Runs.owns (h : Runs L k a sp) : Owns L k sp :=
  ⟨h.world, fun i => (h.view i).unused_iff.trans (h.live i).symm⟩

/-- How the tasks answer a trap of the process in `c`. -/
def Tasks.Reacts (a : Tasks) (c : Fin 10) (cpu : Context) (a' : Tasks) (out : Outcome) :
    Trap → Prop
  | .swi _ => a.Answers c (cpu .R0) (cpu .R1) a' out
  | .timer => (a', out) = a.schedule
  | .uart => a' = a ∧ out = .ret 0
  | .execute _ => (a' = a ∧ out = .ret 0) ∨
      ∃ i, a.firstFree = some i ∧ (a', out) = (a.move (.create i)).schedule

/-- The moves a trap may make. -/
def Tasks.Moves (a : Tasks) (c : Fin 10) (cpu : Context) (mv : Move (Fin 10)) : Trap → Prop
  | .swi _ => mv = a.moveOf c (cpu .R0) (cpu .R1)
  | .execute _ => mv = .stay ∨ ∃ i, a.firstFree = some i ∧ mv = .create i
  | _ => mv = .stay

/-- Where the outcome of an abstract operation leaves a machine. -/
inductive Tasks.Settled (c : Fin 10) (a' : Tasks) : Outcome → Prop where
  | ret (r : Int) (current : a'.current = some c) (ready : a'.table c = some .ready) :
      Settled c a' (.ret r)
  | resume (d : Fin 10) (current : a'.current = some d) (ready : a'.table d = some .ready) :
      Settled c a' .resume
  | panic (stuck : ∀ d, a'.table d ≠ some .ready) : Settled c a' .panic

theorem Tasks.schedule_settled (c : Fin 10) (a : Tasks) :
    Tasks.Settled c a.schedule.1 a.schedule.2 := by
  unfold Tasks.schedule
  cases h : a.next with
  | some d =>
      have hr := Tasks.next_some h
      exact .resume d rfl hr
  | none => exact .panic (Tasks.next_none h)

theorem Tasks.Settled.of_eq {x : Tasks × Outcome} {out : Outcome} (h : (a', out) = x)
    (hx : Tasks.Settled c x.1 x.2) : Tasks.Settled c a' out := by
  subst h
  exact hx

/-- A system call leaves the machine with the caller, with another process or with none. -/
theorem Tasks.Answers.settled {code arg1 : Nat} {out : Outcome}
    (h : a.Answers c code arg1 a' out) (hc : a.current = some c) (hr : a.table c = some .ready) :
    Tasks.Settled c a' out := by
  unfold Tasks.Answers at h
  split at h
  · exact .of_eq h (Tasks.schedule_settled c _)
  · refine .of_eq h ?_
    unfold Tasks.fork
    cases hf : a.firstFree with
    | none => exact .ret _ hc hr
    | some i =>
        have hne : c ≠ i := by
          rintro rfl
          rw [Tasks.firstFree_some hf] at hr
          cases hr
        exact .ret _ hc (by simpa [Tasks.move, Move.apply, hne] using hr)
  · obtain ⟨rfl, rfl | rfl⟩ := h
    · exact .ret _ hc hr
    · exact .resume c hc hr
  · exact .of_eq h (Tasks.schedule_settled c _)
  · refine .of_eq h ?_
    unfold Tasks.wait
    cases procGet (signed arg1) with
    | none => exact .ret _ hc hr
    | some d =>
        dsimp only
        split
        · exact Tasks.schedule_settled c _
        · exact .ret _ hc hr
  · obtain ⟨rfl, r, rfl⟩ := h
    exact .ret r hc hr

theorem Tasks.Reacts.settled {out : Outcome} (h : a.Reacts c cpu a' out t)
    (hc : a.current = some c) (hr : a.table c = some .ready) : Tasks.Settled c a' out := by
  cases t with
  | swi key => exact Tasks.Answers.settled h hc hr
  | timer => exact .of_eq h (Tasks.schedule_settled c a)
  | uart =>
      obtain ⟨rfl, rfl⟩ := h
      exact .ret 0 hc hr
  | execute name =>
      rcases h with ⟨rfl, rfl⟩ | ⟨i, -, h⟩
      · exact .ret 0 hc hr
      · exact .of_eq h (Tasks.schedule_settled c _)

/-- A trap changes the table by one of its moves. -/
theorem Tasks.Reacts.moves {out : Outcome} (h : a.Reacts c cpu a' out t)
    (hr : a.table c = some .ready) :
    ∃ mv, a.Moves c cpu mv t ∧ mv.Legal a.table ∧ a'.table = mv.apply a.table := by
  cases t with
  | swi key => exact ⟨_, rfl, Tasks.moveOf_legal hr _ _, Tasks.Answers.table h⟩
  | timer =>
      refine ⟨.stay, rfl, trivial, ?_⟩
      rw [show a' = a.schedule.1 from congrArg Prod.fst h]
      exact Tasks.schedule_table
  | uart =>
      obtain ⟨rfl, -⟩ := h
      exact ⟨.stay, rfl, trivial, rfl⟩
  | execute name =>
      rcases h with ⟨rfl, -⟩ | ⟨i, hi, h⟩
      · exact ⟨.stay, .inl rfl, trivial, rfl⟩
      · refine ⟨.create i, .inr ⟨i, hi, rfl⟩, Tasks.firstFree_some hi, ?_⟩
        rw [show a' = _ from congrArg Prod.fst h]
        exact Tasks.schedule_table

/-! ### A trap -/

/-- Where the context of a process that a trap has created comes from. -/
def Trap.Bears (cpu : Context) (context : Context) : Trap → Prop
  | .execute _ => ∃ entry < 0x100000, context = startContext entry
  | _ => context = childContext cpu

/-- What the handler of a trap of the process in `c` does. -/
structure Trapped (L : Layout) (a : Tasks) (c : Fin 10) (sp : Fin 10 → Option Space) (k : Kernel σ)
    (cpu : Context) (t : Trap) (out : Outcome) (k' : Kernel σ) (a' : Tasks)
    (sp' : Fin 10 → Option Space) : Prop where
  reacts : a.Reacts c cpu a' out t
  runs : Runs L k' a' sp'
  others : ∀ j ≠ c, sp j ≠ none → Spares j sp sp' k k'
  caller : sp' c ≠ none → Spares c sp sp' k k' ∨
    ((∃ key, t = .swi key) ∧ cpu .R0 = 5 ∧ out = .resume ∧
      ∃ entry < 0x100000, (k'.processTable c).context = startContext entry)
  child : ∀ j, sp j = none → sp' j ≠ none → t.Bears cpu (k'.processTable j).context

theorem Runs.saveContext (h : Runs L k a sp) (hc : a.current = some c) (cpu : Context) :
    Runs L (saveContext k cpu) a sp ∧ ((saveContext k cpu).processTable c).context = cpu := by
  have hsave : Arunos.saveContext k cpu =
      k.setEntry c { k.processTable c with context := cpu } := by
    rw [Arunos.saveContext, h.current, hc]
  have hd : ∀ s, sp c = some s →
      Describes { k.processTable c with context := cpu } c s := fun s hs =>
    (h.world.slot c s hs).fields.congr rfl
  rw [hsave]
  refine ⟨⟨(h.world.setEntry hd).1, h.live, fun i => ?_, h.current, h.ttb, h.round⟩, ?_⟩
  · by_cases hi : i = c
    · subst hi
      rw [setEntry_processTable]
      have hv := h.view i
      revert hv
      rcases a.table i with _ | _ | d <;> exact fun hv => hv
    · rw [setEntry_of_ne hi]
      exact h.view i
  · rw [setEntry_processTable]

/-- The machine after a settled handler. -/
theorem Tasks.Settled.inTasks {out : Outcome} (h : Tasks.Settled c a' out) (hr : Runs L k' a' sp')
    (back : Int → Context) : InTasks L a' sp' (leave back out k') := by
  cases h with
  | ret r hc ht => exact .user c hr hc ht
  | resume d hd ht =>
      rw [leave, switchToContext, hr.current, hd]
      exact .user d hr hd ht
  | panic hs => exact .panicked hr hs

/-! ### A store -/

/-- A user program's store reaches a page of the running process. -/
theorem userAddress_some (h : Runs L k a sp) (hc : a.current = some c) {s : Space}
    (hs : sp c = some s) {virtual addr : Nat} (ha : userAddress k virtual = some addr) :
    ∃ p ∈ s.pages, addr = p + virtual % 4096 := by
  have hactive : activeVm k = k.processVm c := by rw [activeVm, h.ttb, hc]
  rw [userAddress, hactive, (h.world.slot c s hs).walk] at ha
  cases hm : spaceMap L s (virtual / 4096) with
  | none =>
      rw [hm] at ha
      cases ha
  | some e =>
      rw [hm] at ha
      dsimp only at ha
      split at ha
      case isFalse => cases ha
      case isTrue hap =>
        obtain ⟨p, hp, ap, rfl⟩ := spaceMap_user hm (by rw [hap]; decide)
        refine ⟨p, hp, ?_⟩
        have hr := h.world.resolve hs hm hp
        rw [(h.world.focus hs).resolve hm] at hr
        exact (Option.some.inj ha).symm.trans hr

theorem Runs.store_writes (h : Runs L k a sp) (hc : a.current = some c)
    (hr : a.table c = some .ready) {virtual addr : Nat} (ha : userAddress k virtual = some addr)
    (b : UInt8) :
    ∃ s, sp c = some s ∧ WritesOnly s.pages k.mem.ram (Function.update k.mem.ram addr b) := by
  obtain ⟨s, hs⟩ := h.space (i := c) (by rw [hr]; simp)
  obtain ⟨p, hp, rfl⟩ := userAddress_some h hc hs ha
  refine ⟨s, hs, fun x hx => ?_⟩
  have := hx p hp
  exact Function.update_of_ne (by omega) _ _

/-- A user program's store keeps the tasks. -/
theorem Runs.store (h : Runs L k a sp) (hc : a.current = some c) (hr : a.table c = some .ready)
    {virtual addr : Nat} (ha : userAddress k virtual = some addr) (b : UInt8) :
    Runs L (k.setRam (Function.update k.mem.ram addr b)) a sp := by
  obtain ⟨s, hs, hw⟩ := h.store_writes hc hr ha b
  exact ⟨(h.world.write hs hw).1, h.live, h.view, h.current, h.ttb, h.round⟩

variable [BlockDevice σ]

theorem wp_handler (h : Runs L k a sp) (hc : a.current = some c) (hr : a.table c = some .ready)
    (hcpu : (k.processTable c).context = cpu) :
    wp (Small (bootArena L)) (t.handler L cpu) k fun out k' =>
      ∃ a' sp', Trapped L a c sp k cpu t out k' a' sp' := by
  cases t with
  | swi key =>
      refine wp_mono (wp_handleSyscall h hc hr) ?_
      rintro out k' ⟨a', sp', hcall⟩
      refine ⟨a', sp', hcall.answers, hcall.runs, hcall.others, fun hlive => ?_, fun j hj hj' => ?_⟩
      · by_cases hcode : cpu .R0 = 2
        · have ht := hcall.answers.table
          rw [hcode] at ht
          refine absurd ((hcall.runs.live c).mpr ?_) hlive
          rw [ht]
          simp [Tasks.moveOf, Move.apply]
        · rcases hcall.caller hcode with hsp | ⟨h₅, hout, hctx⟩
          · exact .inl hsp
          · exact .inr ⟨⟨key, rfl⟩, h₅, hout, hctx⟩
      · exact (hcall.child j hj hj').trans (by rw [hcpu])
  | timer =>
      refine wp_mono (wp_schedule h) ?_
      rintro out k' ⟨rfl, rfl⟩
      exact ⟨_, sp, rfl, h.schedule, fun j _ _ => .runAs j sp k _, fun _ => .inl (.runAs c sp k _),
        fun j hj hj' => absurd hj hj'⟩
  | uart =>
      exact wp_pure ⟨a, sp, ⟨rfl, rfl⟩, h, fun j _ _ => .refl j sp k, fun _ => .inl (.refl c sp k),
        fun j hj hj' => absurd hj hj'⟩
  | execute name =>
      have hlive : sp c ≠ none := fun e => by
        have := (h.live c).mp e
        rw [hr] at this
        cases this
      refine wp_mono (wp_monExecute h) ?_
      rintro out k' (⟨rfl, hruns, hsp⟩ | ⟨i, sp', hi, hnone, rfl, hruns, hsp, hctx⟩)
      · exact ⟨a, sp, .inl ⟨rfl, rfl⟩, hruns, fun j _ hj => hsp j hj, fun _ => .inl (hsp c hlive),
          fun j hj hj' => absurd hj hj'⟩
      · refine ⟨_, sp', .inr ⟨i, hi, rfl⟩, hruns, fun j _ hj => hsp j hj,
          fun _ => .inl (hsp c hlive), fun j hj hj' => ?_⟩
        obtain rfl : j = i := by
          by_contra hne
          refine hj' ((hruns.live j).mpr ?_)
          rw [Tasks.schedule_table]
          simpa [Tasks.move, Move.apply, hne] using (h.live j).mp hj
        exact hctx

/-- **A trap** ends in a machine that is in a state of the tasks after the reaction. -/
theorem step_trap (h : Runs L k a sp) (hc : a.current = some c) (hr : a.table c = some .ready)
    (hs : step L (.user k cpu) (.trap t) = some m') :
    ∃ a' sp' out k', Trapped L a c sp (saveContext k cpu) cpu t out k' a' sp' ∧
      m' = leave (t.back cpu) out k' ∧ InTasks L a' sp' m' := by
  obtain ⟨h₁, hcpu⟩ := h.saveContext hc cpu
  obtain ⟨⟨out, k'⟩, hrun, rfl⟩ := Option.map_eq_some_iff.mp hs
  obtain ⟨a', sp', ht⟩ := (wp_handler h₁ hc hr hcpu).elim hrun
  exact ⟨a', sp', out, k', ht, rfl, (ht.reacts.settled hc hr).inTasks ht.runs _⟩

/-- **No trap faults.** -/
theorem exists_step_trap (h : Runs L k a sp) (hc : a.current = some c)
    (hr : a.table c = some .ready) (cpu : Context) (t : Trap) :
    ∃ m', step L (.user k cpu) (.trap t) = some m' := by
  obtain ⟨h₁, hcpu⟩ := h.saveContext hc cpu
  obtain ⟨out, k', hrun, -⟩ := (wp_handler (t := t) h₁ hc hr hcpu).total
    (bootArena_roomy L)
  exact ⟨leave (t.back cpu) out k', Option.map_eq_some_iff.mpr ⟨(out, k'), hrun, rfl⟩⟩

/-- A timer interrupt saves the registers of the process and resumes the next one. -/
theorem exists_step_timer (h : Runs L k a sp) (hc : a.current = some c)
    (hr : a.table c = some .ready) (cpu : Context) {d : Fin 10} (hd : a.next = some d) :
    ∃ k' sp', step L (.user k cpu) (.trap .timer) = some (.user k' (k'.processTable d).context) ∧
      Runs L k' a.schedule.1 sp' ∧ k'.currentProcess = some d ∧
      (k'.processTable c).context = cpu := by
  obtain ⟨m', hs⟩ := exists_step_trap h hc hr cpu .timer
  obtain ⟨a', sp', out, k', ht, rfl, -⟩ := step_trap h hc hr hs
  have hreact : (a', out) = a.schedule := ht.reacts
  have hsched : a.schedule = ({ a with current := some d, round := d }, .resume) := by
    rw [Tasks.schedule, hd]
  obtain ⟨rfl, rfl⟩ := Prod.mk.inj (hreact.trans hsched)
  have hcur : k'.currentProcess = some d := ht.runs.current
  have hlive : sp' c ≠ none := fun hnone => by
    have : a.table c = none := (ht.runs.live c).mp hnone
    rw [hr] at this
    cases this
  rw [leave, switchToContext, hcur] at hs
  refine ⟨k', sp', hs, hsched ▸ ht.runs, hcur, ?_⟩
  rcases ht.caller hlive with hsp | ⟨⟨key, hkey⟩, -⟩
  · exact (congrArg Process.context hsp.process).trans (h.saveContext hc cpu).2
  · cases hkey

/-! ### Every reachable machine -/

/-- Only a running machine takes a step, and this is what it does. -/
theorem step_cases {e : Event} (hs : step L m e = some m') :
    ∃ k cpu, m = .user k cpu ∧
      ((∃ cpu', e = .work cpu' ∧ cpu' .CPSR % 256 = cpu .CPSR % 256 ∧ m' = .user k cpu') ∨
        (∃ virtual b addr, e = .store virtual b ∧ userAddress k virtual = some addr ∧
          m' = .user (k.setRam (Function.update k.mem.ram addr b)) cpu) ∨
        ∃ t, e = .trap t ∧ step L (.user k cpu) (.trap t) = some m') := by
  cases m with
  | panicked k => cases hs
  | halted k => cases hs
  | user k cpu =>
      refine ⟨k, cpu, rfl, ?_⟩
      cases e with
      | work cpu' =>
          rw [step] at hs
          split at hs
          next hcpsr =>
            cases hs
            exact .inl ⟨cpu', rfl, hcpsr, rfl⟩
          · cases hs
      | store virtual b =>
          obtain ⟨addr, ha, rfl⟩ := Option.map_eq_some_iff.mp hs
          exact .inr (.inl ⟨virtual, b, addr, rfl, ha, rfl⟩)
      | trap t => exact .inr (.inr ⟨t, rfl, hs⟩)

/-- The running process calls `exit` and is the one in `d`. -/
def Exits (m : Machine σ) (e : Event) (d : Fin 10) : Prop :=
  ∃ k cpu key, m = .user k cpu ∧ e = .trap (.swi key) ∧ cpu .R0 = 2 ∧ k.currentProcess = some d

/-- The running process is the one in `c` and calls `wait` with the number of the one in `d`. -/
def Waits (m : Machine σ) (e : Event) (c d : Fin 10) : Prop :=
  ∃ k cpu key, m = .user k cpu ∧ e = .trap (.swi key) ∧ cpu .R0 = 7 ∧ k.currentProcess = some c ∧
    procGet (signed (cpu .R1)) = some d

/-- A move of the tasks that an event makes. -/
structure Event.Makes (a : Tasks) (m : Machine σ) (e : Event) (mv : Move (Fin 10)) : Prop where
  legal : mv.Legal a.table
  exit : ∀ d, mv = .exit d ↔ Exits m e d
  wait : ∀ c d, mv = .wait c d → Waits m e c d

omit [BlockDevice σ] in
/-- What a program does between two traps is no move. -/
theorem Event.Makes.stay (m : Machine σ) {e : Event} (he : ∀ t, e ≠ .trap t) :
    e.Makes a m .stay := by
  refine ⟨trivial, fun d => ⟨by simp, ?_⟩, by simp⟩
  rintro ⟨k, cpu, key, -, rfl, -⟩
  exact absurd rfl (he _)

omit [BlockDevice σ] in
theorem Event.Makes.trap (h : Runs L k a sp) (hc : a.current = some c) {mv : Move (Fin 10)}
    (hm : a.Moves c cpu mv t) (hl : mv.Legal a.table) :
    Event.Makes a (.user k cpu) (.trap t) mv := by
  have hcur : k.currentProcess = some c := h.current.trans hc
  refine ⟨hl, fun d => ⟨?_, ?_⟩, ?_⟩
  · rintro rfl
    cases t with
    | swi key =>
        obtain ⟨h2, rfl⟩ := Tasks.moveOf_eq_exit.mp hm.symm
        exact ⟨k, cpu, key, rfl, rfl, h2, hcur⟩
    | timer => cases hm
    | uart => cases hm
    | execute name => rcases hm with hm | ⟨i, -, hm⟩ <;> cases hm
  · rintro ⟨k, cpu, key, ⟨⟩, ⟨⟩, h2, hd⟩
    obtain rfl : c = d := Option.some.inj (hcur.symm.trans hd)
    exact hm.trans (Tasks.moveOf_eq_exit.mpr ⟨h2, rfl⟩)
  · rintro x d rfl
    cases t with
    | swi key =>
        obtain ⟨h7, rfl, hd⟩ := Tasks.moveOf_eq_wait hm.symm
        exact ⟨k, cpu, key, rfl, rfl, h7, hcur, hd⟩
    | timer => cases hm
    | uart => cases hm
    | execute name => rcases hm with hm | ⟨i, -, hm⟩ <;> cases hm

/-- **A step is a move of the tasks.** -/
theorem step_makes {e : Event} (h : InTasks L a sp m) (hs : step L m e = some m') :
    ∃ a' sp' mv, e.Makes a m mv ∧ InTasks L a' sp' m' ∧ a'.table = mv.apply a.table := by
  obtain ⟨k, cpu, rfl, hcases⟩ := step_cases hs
  cases h with
  | user c hruns hc hr =>
      rcases hcases with ⟨cpu', rfl, -, rfl⟩ | ⟨virtual, b, addr, rfl, ha, rfl⟩ | ⟨t, rfl, ht⟩
      · exact ⟨a, sp, .stay, .stay _ (by simp), .user c hruns hc hr, rfl⟩
      · exact ⟨a, sp, .stay, .stay _ (by simp), .user c (hruns.store hc hr ha b) hc hr, rfl⟩
      · obtain ⟨a', sp', out, k', htrap, -, hin'⟩ := step_trap hruns hc hr ht
        obtain ⟨mv, hm, hl, htab⟩ := htrap.reacts.moves hr
        exact ⟨a', sp', mv, .trap hruns hc hm hl, hin', htab⟩

/-- The kernel has stopped while starting. -/
def Unbooted (L : Layout) (m : Machine σ) : Prop :=
  ∃ k, m = .halted k ∧ Stopped L k

/-- The machine is in a state of sound tasks, or has stopped while starting. -/
def Sane (L : Layout) (m : Machine σ) : Prop :=
  (∃ a sp, InTasks L a sp m ∧ Sound a.table) ∨ Unbooted L m

theorem sound_initial : Sound Tasks.initial.table := by
  intro i d h
  by_cases hi : i = 0 <;> simp [Tasks.initial, hi] at h

/-- The machine starts with the shell, or stops while starting. -/
theorem init_cases (h : (arunos σ L).init m) :
    (∃ sp, InTasks L .initial sp m) ∨ Unbooted L m := by
  obtain ⟨ram, dev, out, k, hrun, rfl⟩ := h
  rcases (wp_cEntry ram dev).elim hrun with ⟨rfl, hstop⟩ | ⟨rfl, s, hs⟩
  · exact .inr ⟨k, rfl, hstop⟩
  · have hset : Tasks.Settled 0 Tasks.initial .resume := .resume 0 rfl rfl
    exact .inl ⟨_, hset.inTasks hs.runs _⟩

theorem sane_init (h : (arunos σ L).init m) : Sane L m := by
  rcases init_cases h with ⟨sp, hin⟩ | hk
  · exact .inl ⟨_, sp, hin, sound_initial⟩
  · exact .inr hk

theorem sane_step {e : Event} (h : Sane L m) (hs : step L m e = some m') : Sane L m' := by
  rcases h with ⟨a, sp, hin, hsound⟩ | ⟨k, rfl, -⟩
  · obtain ⟨a', sp', mv, hm, hin', htab⟩ := step_makes hin hs
    exact .inl ⟨a', sp', hin', htab ▸ hsound.move hm.legal⟩
  · cases hs

/-- **Every reachable machine is sane.** -/
theorem Reachable.sane (h : (arunos σ L).Reachable m) : Sane L m :=
  h.invariant (fun _ => sane_init) fun _ _ _ hi hs => sane_step hi hs

/-- A machine that starts the shell of `shellDisk`. -/
theorem exists_booted : ∃ (k : Kernel shellDisk.Reader) (cpu : Context) (s : Space),
    (arunos shellDisk.Reader smallLayout).init (.user k cpu) ∧ Started smallLayout k s := by
  obtain ⟨k, s, hrun, hs⟩ := exists_started fun _ => 0
  refine ⟨k, (k.processTable 0).context, s, ⟨fun _ => 0, ⟨⟩, .resume, k, hrun, ?_⟩, hs⟩
  rw [leave, switchToContext, hs.runs.current]
  rfl

theorem exists_running : ∃ (k : Kernel shellDisk.Reader) (cpu : Context) (s : Space),
    (arunos shellDisk.Reader smallLayout).Reachable (.user k cpu) ∧ Started smallLayout k s := by
  obtain ⟨k, cpu, s, hi, hs⟩ := exists_booted
  exact ⟨k, cpu, s, .init hi, hs⟩

/-- The shell of `shellDisk` forks. -/
theorem exists_fork : ∃ (k k₁ : Kernel shellDisk.Reader) (cpu : Context) (s : Space)
      (sp₁ : Fin 10 → Option Space),
    (arunos shellDisk.Reader smallLayout).Reachable (.user k cpu) ∧ Started smallLayout k s ∧
      cpu .R0 = 4 ∧
      (handleSyscall smallLayout 0 (cpu .R0) (cpu .R1)).run (saveContext k cpu) =
        some (.ret 2, k₁) ∧
      step smallLayout (.user k cpu) (.trap (.swi 0)) =
        some (.user k₁ (Function.update cpu .R0 2)) ∧
      Runs smallLayout k₁ Tasks.initial.fork.1 sp₁ := by
  obtain ⟨k, cpu₀, s, hreach, hs⟩ := exists_running
  let cpu : Context := Function.update cpu₀ .R0 4
  have hwork : step smallLayout (.user k cpu₀) (.work cpu) = some (.user k cpu) := if_pos rfl
  obtain ⟨hsave, hcpu⟩ := hs.runs.saveContext (c := 0) rfl cpu
  obtain ⟨out, k₁, hrun, a', sp₁, ht⟩ :=
    (wp_handler (t := .swi 0) hsave (c := 0) rfl rfl hcpu).total (bootArena_roomy _)
  have hfork : (a', out) = Tasks.initial.fork := ht.reacts
  obtain ⟨rfl, rfl⟩ : a' = Tasks.initial.fork.1 ∧ out = .ret 2 :=
    ⟨congrArg Prod.fst hfork, (congrArg Prod.snd hfork).trans (by decide +kernel)⟩
  exact ⟨k, k₁, cpu, s, sp₁, hreach.step hwork, hs, Function.update_self _ _ _, hrun,
    Option.map_eq_some_iff.mpr ⟨_, hrun, rfl⟩, ht.runs⟩

/-- A machine with the shell of `shellDisk` and its child. -/
theorem exists_forked : ∃ (k : Kernel shellDisk.Reader) (cpu : Context),
    (arunos shellDisk.Reader smallLayout).Reachable (.user k cpu) ∧
      (k.processTable 0).state = .READY ∧ (k.processTable 1).state = .READY := by
  obtain ⟨_, k₁, cpu, _, sp₁, hreach, -, -, -, hstep, hruns⟩ := exists_fork
  exact ⟨k₁, _, hreach.step hstep, (hruns.view 0).ready_iff.mpr (by decide +kernel),
    (hruns.view 1).ready_iff.mpr (by decide +kernel)⟩

end Arunos
