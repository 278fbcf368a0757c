import Arunos.Console.Kprintf
import Arunos.Machine.Simulation

/-!
# Machine — Board — interrupts and the serial line

`arunos` takes the interrupts and the keys as given.  Here they come from the devices: the interrupt
controller, the timer and the serial port, with `interrupt_handler_vector` and the receive buffer of
`console.c`.  A system call of the console reads and writes them, and an interrupt is
`dispatch_interrupts` on the lines that are raised.

`dispatch_interrupts` takes the lines in order of their numbers, and `handle_timer` does not return:
when the timer and the serial port interrupt together, the port is left for the next interrupt
(`dispatchInterrupts_eq`).  Nothing gets lost by that: every run is one of `arunos`, and two
interrupts serve whatever is raised (`interrupts_served`).
-/

namespace Arunos

variable {σ : Type}

/-! ### The devices -/

def IRQ_COUNT : Nat := 32
def UART_IRQ : Nat := 12
def TIMER_IRQ : Nat := 5

/-- The functions that are registered for a line. -/
inductive InterruptHandler where
  | uartInterruptHandler
  | handleTimer

/-- The devices, with the data of `irq.c` and `console.c`. -/
structure Devices where
  interruptHandlerVector : Nat → Option InterruptHandler
  /-- The lines that the interrupt controller lets through. -/
  intEnable : Nat → Bool
  /-- The timer has run down and was not cleared. -/
  timerInterrupt : Bool
  /-- The receive interrupt of the serial port is enabled. -/
  receiveEnabled : Bool
  /-- What the serial port has received and the kernel has not read. -/
  received : List UInt8
  transmitted : List UInt8
  /-- The lines of the devices that the kernel does not use. -/
  otherLines : Nat → Bool
  console : Console

namespace Devices

/-- `uart_can_receive`: the raw status of the port, whether its interrupt is enabled or not. -/
def uartCanReceive (d : Devices) : Bool := !d.received.isEmpty

/-- The line `i` is raised. -/
def line (d : Devices) (i : Nat) : Bool :=
  if i = UART_IRQ then d.receiveEnabled && d.uartCanReceive
  else if i = TIMER_IRQ then d.timerInterrupt
  else d.otherLines i

/-- `get_pending_irqs`: the bits of `PIC_STATUS`. -/
def getPendingIrqs (d : Devices) (i : Nat) : Bool := d.intEnable i && d.line i

/-- The interrupt controller interrupts the processor. -/
def pending (d : Devices) : Bool := (List.range IRQ_COUNT).any d.getPendingIrqs

/-- `register_interrupt_handler`, with `enable_irq_line`. -/
def registerInterruptHandler (d : Devices) (interruptLine : Nat) (handler : InterruptHandler) :
    Devices :=
  { d with
    interruptHandlerVector := Function.update d.interruptHandlerVector interruptLine (some handler)
    intEnable := Function.update d.intEnable interruptLine true }

/-- `console_init`. -/
def consoleInit (d : Devices) : Devices :=
  { d with console := Arunos.consoleInit d.console
           receiveEnabled := true }.registerInterruptHandler UART_IRQ .uartInterruptHandler

/-- `scheduler_init`; from here on the timer runs. -/
def schedulerInit (d : Devices) : Devices := d.registerInterruptHandler TIMER_IRQ .handleTimer

/-- `uart_interrupt_handler`: it reads while `uart_can_receive`. -/
def handleUart (d : Devices) : Devices :=
  { d with console := Arunos.uartInterruptHandler d.console d.received
           received := [] }

/-- `uart_transmit`, for each of the bytes. -/
def send (d : Devices) (bytes : List UInt8) : Devices :=
  { d with transmitted := d.transmitted ++ bytes }

/-- The devices before the kernel has used them. -/
structure Reset (d : Devices) : Prop where
  vector : d.interruptHandlerVector = fun _ => none
  enable : d.intEnable = fun _ => false
  timer : d.timerInterrupt = false
  received : d.received = []
  transmitted : d.transmitted = []

/-- The devices when `c_entry` calls `schedule`.  While it is at work the serial port may interrupt;
`data` is what that has received. -/
def boot (d : Devices) (data : List UInt8) : Devices :=
  ({ d.consoleInit with received := data }.handleUart).schedulerInit

end Devices

section Code

variable [BlockDevice σ]

/-- A call of a registered handler: how it leaves the kernel, or none if it returns. -/
def InterruptHandler.call (d : Devices) : InterruptHandler → KM σ (Option Outcome × Devices)
  | .uartInterruptHandler => return (none, d.handleUart)
  | .handleTimer => do
      -- `timer_clear_interrupt`
      let d := { d with timerInterrupt := false }
      let out ← schedule
      return (some out, d)

/-- The loop of `dispatch_interrupts` over the lines. -/
def dispatchLoop (pendingIrqs : Nat → Bool) : List Nat → Devices → KM σ (Outcome × Devices)
  | [], d => return (.ret 0, d)
  | i :: lines, d =>
      if pendingIrqs i then
        match d.interruptHandlerVector i with
        | some handler => do
            match ← handler.call d with
            | (none, d) => dispatchLoop pendingIrqs lines d
            | (some out, d) => return (out, d)
        | none => dispatchLoop pendingIrqs lines d
      else dispatchLoop pendingIrqs lines d

/-- `dispatch_interrupts`. -/
def dispatchInterrupts (d : Devices) : KM σ (Outcome × Devices) :=
  dispatchLoop d.getPendingIrqs (List.range IRQ_COUNT) d

/-- `handle_syscall` with the console on the serial line. -/
def syscallOn (L : Layout) (d : Devices) (code arg1 : Nat) : KM σ (Outcome × Devices) :=
  match code with
  | 0 => do
      let sent ← deref (kputch (signed arg1))
      return (.ret 0, d.send sent)
  | 1 => do
      let key ← deref (kgetch d.console).1
      return (.ret key, { d with console := (kgetch d.console).2.console })
  | 8 => do
      let k ← get
      let (sent, r, dev) ← deref (dirSends k.fat 0 k.dev)
      set { k with dev := dev }
      return (.ret r, d.send sent)
  | code => do return (← handleSyscall L 0 code arg1, d)

/-- What happens on the board. -/
inductive BoardEvent where
  | work (cpu : Context)
  | store (virtual : Nat) (b : UInt8)
  | swi
  | irq
  /-- The serial port receives a byte. -/
  | receive (b : UInt8)
  /-- The timer runs down. -/
  | tick
  /-- The line of some other device. -/
  | other (i : Nat) (raised : Bool)

/-- One step of the board.  An interrupt is taken when the controller asks for one, in user mode. -/
def boardStep (L : Layout) (x : Machine σ × Devices) : BoardEvent → Option (Machine σ × Devices)
  | .work cpu => (step L x.1 (.work cpu)).map (·, x.2)
  | .store virtual b => (step L x.1 (.store virtual b)).map (·, x.2)
  | .swi =>
      match x.1 with
      | .user k cpu =>
          ((syscallOn L x.2 (cpu .R0) (cpu .R1)).run (saveContext k cpu)).map fun r =>
            (leave ((Trap.swi 0).back cpu) r.1.1 r.2, r.1.2)
      | _ => none
  | .irq =>
      match x.1 with
      | .user k cpu =>
          if x.2.pending then
            ((dispatchInterrupts x.2).run (saveContext k cpu)).map fun r =>
              (leave (fun _ => cpu) r.1.1 r.2, r.1.2)
          else none
      | _ => none
  | .receive b => some (x.1, { x.2 with received := x.2.received ++ [b] })
  | .tick => some (x.1, { x.2 with timerInterrupt := true })
  | .other i raised =>
      some (x.1, { x.2 with otherLines := Function.update x.2.otherLines i raised })

/-- The machine on its board, from where `c_entry` has started the first program. -/
def board (σ : Type) [BlockDevice σ] (L : Layout) : System (Machine σ × Devices) BoardEvent where
  init x := (arunos σ L).init x.1 ∧ (∀ k, x.1 ≠ .halted k) ∧ ∃ (d : Devices) (data : List UInt8),
    d.Reset ∧ x.2 = d.boot data
  step x e y := boardStep L x e = some y

end Code

/-! ### Interrupts -/

variable {L : Layout} {m m' : Machine σ} {d d' : Devices} {k : Kernel σ} {cpu : Context}

/-- The devices as `c_entry` leaves them. -/
structure Devices.Wired (d : Devices) : Prop where
  timer : d.interruptHandlerVector TIMER_IRQ = some .handleTimer
  uart : d.interruptHandlerVector UART_IRQ = some .uartInterruptHandler
  enable : ∀ i, d.intEnable i = true ↔ i = TIMER_IRQ ∨ i = UART_IRQ
  receive : d.receiveEnabled = true
  console : d.console.Valid

namespace Devices.Wired

theorem getPendingIrqs_iff (h : d.Wired) {i : Nat} : d.getPendingIrqs i = true ↔
    (i = TIMER_IRQ ∧ d.timerInterrupt = true) ∨ (i = UART_IRQ ∧ d.received ≠ []) := by
  have hne : TIMER_IRQ ≠ UART_IRQ := by decide
  rw [getPendingIrqs, Bool.and_eq_true, h.enable]
  constructor
  · rintro ⟨rfl | rfl, hline⟩
    · rw [line, if_neg hne, if_pos rfl] at hline
      exact .inl ⟨rfl, hline⟩
    · rw [line, if_pos rfl, uartCanReceive, h.receive] at hline
      exact .inr ⟨rfl, by simpa using hline⟩
  · rintro (⟨rfl, ht⟩ | ⟨rfl, hr⟩)
    · exact ⟨.inl rfl, by rw [line, if_neg hne, if_pos rfl, ht]⟩
    · exact ⟨.inr rfl, by rw [line, if_pos rfl, uartCanReceive, h.receive]; simpa using hr⟩

/-- The controller asks for an interrupt for the timer and for the serial port. -/
theorem pending_iff (h : d.Wired) :
    d.pending = true ↔ d.timerInterrupt = true ∨ d.received ≠ [] := by
  simp only [Devices.pending, List.any_eq_true, List.mem_range, h.getPendingIrqs_iff]
  constructor
  · rintro ⟨i, -, ⟨-, ht⟩ | ⟨-, hr⟩⟩
    · exact .inl ht
    · exact .inr hr
  · rintro (ht | hr)
    · exact ⟨TIMER_IRQ, by decide, .inl ⟨rfl, ht⟩⟩
    · exact ⟨UART_IRQ, by decide, .inr ⟨rfl, hr⟩⟩

theorem receive_byte (h : d.Wired) (b : UInt8) :
    Wired { d with received := d.received ++ [b] } :=
  ⟨h.timer, h.uart, h.enable, h.receive, h.console⟩

theorem tick (h : d.Wired) : Wired { d with timerInterrupt := true } :=
  ⟨h.timer, h.uart, h.enable, h.receive, h.console⟩

theorem other (h : d.Wired) (i : Nat) (raised : Bool) :
    Wired { d with otherLines := Function.update d.otherLines i raised } :=
  ⟨h.timer, h.uart, h.enable, h.receive, h.console⟩

theorem handleUart (h : d.Wired) : d.handleUart.Wired :=
  ⟨h.timer, h.uart, h.enable, h.receive, h.console.handler _⟩

end Devices.Wired

theorem Devices.handleUart_nil (hr : d.received = []) : d.handleUart = d := by
  obtain ⟨⟩ := d
  cases hr
  rfl

/-- What `dispatch_interrupts` does is the trap of the timer if that interrupts, and otherwise of
the serial port. -/
def Devices.irqTrap (d : Devices) : Trap := if d.timerInterrupt then .timer else .uart

/-- The devices after `dispatch_interrupts`. -/
def Devices.served (d : Devices) : Devices :=
  if d.timerInterrupt then { d with timerInterrupt := false } else d.handleUart

theorem Devices.served_transmitted (d : Devices) : d.served.transmitted = d.transmitted := by
  unfold Devices.served
  split <;> rfl

variable [BlockDevice σ]

omit [BlockDevice σ] in
theorem dispatchLoop_skip {pendingIrqs : Nat → Bool} {lines : List Nat}
    (h : ∀ i ∈ lines, pendingIrqs i = false) (rest : List Nat) (d : Devices) :
    (dispatchLoop pendingIrqs (lines ++ rest) d : KM σ (Outcome × Devices)) =
      dispatchLoop pendingIrqs rest d := by
  induction lines with
  | nil => rfl
  | cons i lines ih =>
      have hi := h i List.mem_cons_self
      rw [List.cons_append, dispatchLoop, if_neg (by simp [hi])]
      exact ih fun j hj => h j (List.mem_cons_of_mem _ hj)

omit [BlockDevice σ] in
/-- **The timer comes first and keeps the processor**; without it the serial port is served. -/
theorem dispatchInterrupts_eq (h : d.Wired) :
    (dispatchInterrupts d : KM σ (Outcome × Devices)) =
      if d.timerInterrupt then do return (← schedule, d.served) else pure (.ret 0, d.served) := by
  have hlines : List.range IRQ_COUNT = List.range' 0 5 ++ TIMER_IRQ :: (List.range' 6 6 ++
      UART_IRQ :: (List.range' 13 19 ++ [])) := by decide
  have hquiet : ∀ i, i ≠ TIMER_IRQ → i ≠ UART_IRQ → d.getPendingIrqs i = false := by
    intro i h₁ h₂
    refine Bool.eq_false_iff.mpr fun hi => ?_
    rcases h.getPendingIrqs_iff.mp hi with ⟨rfl, -⟩ | ⟨rfl, -⟩
    · exact h₁ rfl
    · exact h₂ rfl
  have hskip : ∀ lines : List Nat, (∀ i ∈ lines, i ≠ TIMER_IRQ ∧ i ≠ UART_IRQ) →
      ∀ i ∈ lines, d.getPendingIrqs i = false :=
    fun lines hl i hi => hquiet i (hl i hi).1 (hl i hi).2
  rw [dispatchInterrupts, hlines, dispatchLoop_skip (hskip _ (by decide)), dispatchLoop,
    Devices.served]
  cases ht : d.timerInterrupt with
  | true =>
      rw [if_pos (h.getPendingIrqs_iff.mpr (.inl ⟨rfl, ht⟩)), h.timer]
      simp only [InterruptHandler.call, bind_assoc, pure_bind, if_true]
  | false =>
      have hno : d.getPendingIrqs TIMER_IRQ = false := by
        refine Bool.eq_false_iff.mpr fun hi => ?_
        rcases h.getPendingIrqs_iff.mp hi with ⟨-, htrue⟩ | ⟨hbad, -⟩
        · rw [ht] at htrue
          cases htrue
        · exact absurd hbad (by decide)
      rw [if_neg (by simp [hno]), dispatchLoop_skip (hskip _ (by decide)), dispatchLoop]
      by_cases hr : d.received = []
      · have hidle : d.getPendingIrqs UART_IRQ = false := by
          refine Bool.eq_false_iff.mpr fun hi => ?_
          rcases h.getPendingIrqs_iff.mp hi with ⟨hbad, -⟩ | ⟨-, hne⟩
          · exact absurd hbad (by decide)
          · exact hne hr
        rw [if_neg (by simp [hidle]), dispatchLoop_skip (hskip _ (by decide)), dispatchLoop,
          Devices.handleUart_nil hr]
        rfl
      · rw [if_pos (h.getPendingIrqs_iff.mpr (.inr ⟨rfl, hr⟩)), h.uart]
        simp only [InterruptHandler.call, pure_bind]
        rw [dispatchLoop_skip (hskip _ (by decide)), dispatchLoop]
        rfl

/-- **An interrupt on the board is a trap of the machine**, taken when the controller asks. -/
theorem boardStep_irq (h : d.Wired) (m : Machine σ) : boardStep L (m, d) .irq =
    if d.pending then (step L m (.trap d.irqTrap)).map (·, d.served) else none := by
  cases m with
  | panicked k =>
      rw [show step L (.panicked k) (.trap d.irqTrap) = none from rfl]
      split <;> rfl
  | halted k =>
      rw [show step L (.halted k) (.trap d.irqTrap) = none from rfl]
      split <;> rfl
  | user k cpu =>
      simp only [boardStep]
      refine if_congr Iff.rfl ?_ rfl
      rw [dispatchInterrupts_eq h, step, Devices.irqTrap]
      cases d.timerInterrupt with
      | true =>
          simp only [if_true, Trap.handler, StateT.run_bind, StateT.run_pure]
          cases (schedule (σ := σ)).run (saveContext k cpu) <;> rfl
      | false => rfl

/-! ### System calls -/

omit [BlockDevice σ] in
theorem deref_run {α : Type} {p : Option α} {x : α} (h : p = some x) (k : Kernel σ) :
    (deref p : KM σ α).run k = some (x, k) := by
  rw [h]
  rfl

/-- The key that `getch` returns. -/
def Devices.key (d : Devices) : Int := (kgetch d.console).1.getD 0

/-- The devices after a system call on the volume `v`. -/
def Devices.afterSyscall (d : Devices) (v : Volume) (dev : σ) (code arg1 : Nat) : Devices :=
  match code with
  | 0 => d.send (lineText (signed arg1))
  | 1 => { d with console := (kgetch d.console).2.console }
  | 8 => d.send ((listing v 0 dev).1.dropLast.flatMap (nameLine ·.2))
  | _ => d

/-- The other calls leave the devices alone. -/
theorem Devices.afterSyscall_other (d : Devices) (v : Volume) (dev : σ) {code : Nat} (arg1 : Nat)
    (h₀ : code ≠ 0) (h₁ : code ≠ 1) (h₈ : code ≠ 8) : d.afterSyscall v dev code arg1 = d := by
  unfold Devices.afterSyscall
  split
  · exact absurd rfl h₀
  · exact absurd rfl h₁
  · exact absurd rfl h₈
  · rfl

/-- The devices after a system call of a machine. -/
def Devices.afterSwi (d : Devices) : Machine σ → Devices
  | .user k cpu => d.afterSyscall k.fat k.dev (cpu .R0) (cpu .R1)
  | _ => d

/-- The program asks for a key, and `kgetch` leaves its buffer. -/
def Faults (m : Machine σ) (d : Devices) : Prop :=
  ∃ k cpu, m = .user k cpu ∧ cpu .R0 = 1 ∧ (kgetch d.console).1 = none

/-- The key goes to the caller of `getch` only. -/
theorem handleSyscall_key {code arg1 : Nat} (h : code ≠ 1) (key key' : Int) :
    (handleSyscall L key code arg1 : KM σ Outcome) = handleSyscall L key' code arg1 := by
  unfold handleSyscall
  split
  · rfl
  · exact absurd rfl h
  all_goals rfl

/-- **A system call on the board is one of the machine**, with the key from the console. -/
theorem syscallOn_eq {code arg1 : Nat} (h : code = 1 → (kgetch d.console).1 ≠ none)
    (k : Kernel σ) : (syscallOn L d code arg1).run k =
      ((handleSyscall L d.key code arg1).run k).map fun r =>
        ((r.1, d.afterSyscall k.fat k.dev code arg1), r.2) := by
  unfold syscallOn
  split
  · rw [StateT.run_bind, deref_run (kputch_eq (signed arg1))]
    rfl
  · obtain ⟨key, hkey⟩ := Option.ne_none_iff_exists'.mp (h rfl)
    rw [StateT.run_bind, deref_run hkey, Devices.key, hkey]
    rfl
  · have hsends := dirSends_eq k.fat 0 k.dev
    rw [StateT.run_bind, StateT.run_get, pure_bind, StateT.run_bind, deref_run hsends]
    rfl
  next h₀ h₁ h₈ =>
    rw [handleSyscall_key h₁ 0 d.key, StateT.run_bind]
    rw [d.afterSyscall_other k.fat k.dev arg1 h₀ h₁ h₈]
    cases (handleSyscall L d.key code arg1).run k <;> rfl

theorem boardStep_swi (h : ¬ Faults m d) : boardStep L (m, d) .swi =
    (step L m (.trap (.swi d.key))).map (·, d.afterSwi m) := by
  cases m with
  | panicked k => rfl
  | halted k => rfl
  | user k cpu =>
      have hkey : cpu .R0 = 1 → (kgetch d.console).1 ≠ none :=
        fun h₁ hn => h ⟨k, cpu, rfl, h₁, hn⟩
      have hfat := saveContext_fat k cpu
      have hdev : (saveContext k cpu).dev = k.dev := by
        unfold saveContext
        split <;> rfl
      simp only [boardStep, step, Trap.handler, syscallOn_eq hkey, Option.map_map, hfat, hdev]
      rfl

theorem boardStep_faults (h : Faults m d) : boardStep L (m, d) .swi = none := by
  obtain ⟨k, cpu, rfl, h₁, hn⟩ := h
  simp only [boardStep, syscallOn, h₁, hn]
  rfl

/-! ### Runs of the board -/

omit [BlockDevice σ] in
theorem Devices.Wired.served (h : d.Wired) : d.served.Wired := by
  unfold Devices.served
  split
  · exact ⟨h.timer, h.uart, h.enable, h.receive, h.console⟩
  · exact h.handleUart

theorem Devices.Wired.afterSyscall (h : d.Wired) (v : Volume) (dev : σ) (code arg1 : Nat) :
    (d.afterSyscall v dev code arg1).Wired := by
  unfold Devices.afterSyscall
  split
  · exact ⟨h.timer, h.uart, h.enable, h.receive, h.console⟩
  · exact ⟨h.timer, h.uart, h.enable, h.receive, ((kgetch_loops d.console).taken h.console).1⟩
  · exact ⟨h.timer, h.uart, h.enable, h.receive, h.console⟩
  · exact h

theorem Devices.Wired.afterSwi (h : d.Wired) (m : Machine σ) : (d.afterSwi m).Wired := by
  cases m with
  | user k cpu => exact h.afterSyscall _ _ _ _
  | panicked k => exact h
  | halted k => exact h

/-- A step of the board that was taken is a step of the machine, or one of the devices alone. -/
theorem boardStep_machine {e : BoardEvent} (h : d.Wired)
    (hs : boardStep L (m, d) e = some (m', d')) :
    d'.Wired ∧ (m' = m ∨ ∃ ev, step L m ev = some m') := by
  cases e with
  | work cpu =>
      obtain ⟨m₁, hm, he⟩ := Option.map_eq_some_iff.mp hs
      cases he
      exact ⟨h, .inr ⟨_, hm⟩⟩
  | store virtual b =>
      obtain ⟨m₁, hm, he⟩ := Option.map_eq_some_iff.mp hs
      cases he
      exact ⟨h, .inr ⟨_, hm⟩⟩
  | swi =>
      by_cases hf : Faults m d
      · rw [boardStep_faults hf] at hs
        cases hs
      · rw [boardStep_swi hf] at hs
        obtain ⟨m₁, hm, he⟩ := Option.map_eq_some_iff.mp hs
        cases he
        exact ⟨h.afterSwi m, .inr ⟨_, hm⟩⟩
  | irq =>
      rw [boardStep_irq h] at hs
      split at hs
      · obtain ⟨m₁, hm, he⟩ := Option.map_eq_some_iff.mp hs
        cases he
        exact ⟨h.served, .inr ⟨_, hm⟩⟩
      · cases hs
  | receive b =>
      cases hs
      exact ⟨h.receive_byte b, .inl rfl⟩
  | tick =>
      cases hs
      exact ⟨h.tick, .inl rfl⟩
  | other i raised =>
      cases hs
      exact ⟨h.other i raised, .inl rfl⟩

omit [BlockDevice σ] in
/-- `c_entry` wires the timer and the serial port. -/
theorem Devices.Reset.wired (h : d.Reset) (data : List UInt8) : (d.boot data).Wired where
  timer := by simp [Devices.boot, Devices.schedulerInit, Devices.registerInterruptHandler]
  uart := by
    have hne : UART_IRQ ≠ TIMER_IRQ := by decide
    simp [Devices.boot, Devices.schedulerInit, Devices.registerInterruptHandler, hne,
      Devices.handleUart, Devices.consoleInit]
  enable i := by
    show Function.update (Function.update d.intEnable UART_IRQ true) TIMER_IRQ true i = true ↔ _
    rw [h.enable, Function.update_apply, Function.update_apply]
    by_cases h₁ : i = TIMER_IRQ <;> by_cases h₂ : i = UART_IRQ <;> simp [h₁, h₂]
  receive := rfl
  console := (consoleInit_valid _).handler data

/-- **Every run of the board is a run of the machine.** -/
theorem board_reachable {x : Machine σ × Devices} (h : (board σ L).Reachable x) :
    (arunos σ L).Reachable x.1 ∧ x.2.Wired := by
  induction h with
  | init hi =>
      obtain ⟨hm, -, d, data, hd, hx⟩ := hi
      exact ⟨.init hm, hx ▸ hd.wired data⟩
  | @step x y e _ hs ih =>
      obtain ⟨hw, hy | ⟨ev, hev⟩⟩ := boardStep_machine ih.2 hs
      · exact ⟨hy ▸ ih.1, hw⟩
      · exact ⟨ih.1.step hev, hw⟩

omit [BlockDevice σ] in
/-- After two interrupts nothing is left to serve. -/
theorem Devices.Wired.served_served (h : d.Wired) : d.served.served.pending = false := by
  have hboth : d.served.served.timerInterrupt = false ∧ d.served.served.received = [] := by
    cases ht : d.timerInterrupt <;> simp [Devices.served, Devices.handleUart, ht]
  refine Bool.eq_false_iff.mpr fun hp => ?_
  rcases h.served.served.pending_iff.mp hp with ht | hr
  · rw [hboth.1] at ht
    cases ht
  · exact hr hboth.2

/-- **Every interrupt is served.**  In every reachable state of the board the machine is in a state
that `arunos` reaches.  The processor is interrupted exactly if the timer has run down or the serial
port has received something.  Then `dispatch_interrupts` ends: with the timer raised it clears it
and changes to the next process, and leaves the serial port alone; otherwise it moves what was
received to the console and returns.  When it is entered once more nothing is raised after it. -/
theorem interrupts_served {x : Machine σ × Devices} (h : (board σ L).Reachable x) :
    (arunos σ L).Reachable x.1 ∧
    (x.2.pending = true ↔ x.2.timerInterrupt = true ∨ x.2.received ≠ []) ∧
    ∀ k cpu, x.1 = .user k cpu → x.2.pending = true →
      ∃ y, boardStep L x .irq = some y ∧
        (x.2.timerInterrupt = true → step L x.1 (.trap .timer) = some y.1 ∧
          y.2 = { x.2 with timerInterrupt := false }) ∧
        (x.2.timerInterrupt = false → step L x.1 (.trap .uart) = some y.1 ∧
          y.2 = { x.2 with console := uartInterruptHandler x.2.console x.2.received
                           received := [] }) ∧
        ∀ z, boardStep L y .irq = some z → z.2.pending = false := by
  obtain ⟨hm, hw⟩ := board_reachable h
  refine ⟨hm, hw.pending_iff, ?_⟩
  obtain ⟨m, d⟩ := x
  rintro k cpu rfl hp
  rcases Reachable.sane hm with ⟨a, sp, hin, -⟩ | ⟨k', hbad, -⟩
  swap
  · cases hbad
  cases hin with
  | user c hruns hc hr =>
      obtain ⟨m', hm'⟩ := exists_step_trap hruns hc hr cpu d.irqTrap
      have hirq : boardStep L (.user k cpu, d) .irq = some (m', d.served) := by
        rw [boardStep_irq hw, if_pos hp, hm']
        rfl
      refine ⟨(m', d.served), hirq, fun ht => ?_, fun ht => ?_, fun z hz => ?_⟩
      · rw [Devices.irqTrap, if_pos ht] at hm'
        exact ⟨hm', if_pos ht⟩
      · rw [Devices.irqTrap, if_neg (by simp [show d.timerInterrupt = false from ht])] at hm'
        refine ⟨hm', ?_⟩
        rw [Devices.served, if_neg (by simp [show d.timerInterrupt = false from ht])]
        rfl
      · rw [boardStep_irq hw.served] at hz
        split at hz
        · obtain ⟨m₂, -, he⟩ := Option.map_eq_some_iff.mp hz
          cases he
          exact hw.served_served
        · cases hz

/-- Devices after power-on. -/
def idleDevices : Devices :=
  ⟨fun _ => none, fun _ => false, false, false, [], [], fun _ => false, ⟨fun _ => 0, 0, 0⟩⟩

omit [BlockDevice σ] in
theorem idleDevices_reset : idleDevices.Reset := ⟨rfl, rfl, rfl, rfl, rfl⟩

/-- A board with the shell at work. -/
theorem exists_board : ∃ (k : Kernel shellDisk.Reader) (cpu : Context) (s : Space),
    (board shellDisk.Reader smallLayout).init (.user k cpu, idleDevices.boot []) ∧
      Started smallLayout k s := by
  obtain ⟨k, cpu, s, hi, hs⟩ := exists_booted
  exact ⟨k, cpu, s, ⟨hi, nofun, idleDevices, [], idleDevices_reset, rfl⟩, hs⟩

/-- A byte arrives and the timer runs down: the byte stays in the port while the timer is served. -/
theorem interrupts_served_together : ∃ x y : Machine shellDisk.Reader × Devices,
    (board shellDisk.Reader smallLayout).Reachable x ∧ x.2.received = [0x61] ∧
      boardStep smallLayout x .irq = some y ∧ y.2.timerInterrupt = false ∧
      y.2.received = [0x61] ∧ ∀ z, boardStep smallLayout y .irq = some z → z.2.pending = false := by
  obtain ⟨k, cpu, s, hi, -⟩ := exists_board
  have h₁ : (board shellDisk.Reader smallLayout).Reachable
      (.user k cpu, { idleDevices.boot [] with received := [0x61] }) :=
    (System.Reachable.init hi).step (e := .receive 0x61) rfl
  have h₂ : (board shellDisk.Reader smallLayout).Reachable
      (.user k cpu, { idleDevices.boot [] with received := [0x61], timerInterrupt := true }) :=
    h₁.step (e := .tick) rfl
  obtain ⟨-, hpend, hserve⟩ := interrupts_served h₂
  obtain ⟨y, hy, htimer, -, hz⟩ := hserve k cpu rfl (hpend.mpr (.inl rfl))
  obtain ⟨-, hy₂⟩ := htimer rfl
  exact ⟨_, y, h₂, rfl, hy, by rw [hy₂], by rw [hy₂], hz⟩

end Arunos
