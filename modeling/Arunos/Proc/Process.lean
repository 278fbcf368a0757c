import Arunos.Fs.Fat
import Arunos.Memory.Space
import Mathlib.Data.List.FinRange

/-!
# Proc — Process — the process table of `kernel/proc/proc.c` and the scheduler

`Kernel σ` is the kernel's state: memory, the static variables of `vm.c`, `proc.c` and
`scheduler.c`, the mounted volume and the disk driver.  A pointer to a process is its index in
`process_table`, and the pointer `vm` is an index in `process_vm`; a null pointer is `none`, and
using one is a fault.

`schedule` does not return: it ends in the chosen process or in the panic loop.  A handler's
`Outcome` says how it ends.
-/

namespace Arunos

/-- `enum ProcessState`. -/
inductive ProcessState where
  | UNUSED
  | CREATED
  | SLEEPING
  | READY
  | RUNNING
  | TERMINATED
deriving DecidableEq

/-- `enum ContextItem`. -/
inductive ContextItem where
  | CPSR | RESTART_ADDR
  | R0 | R1 | R2 | R3 | R4 | R5 | R6 | R7 | R8 | R9 | R10 | R11 | R12
  | SP | LR
deriving DecidableEq

/-- The saved registers. -/
abbrev Context := ContextItem → Nat

/-- Slots of the process table are named by literals of `Fin 10`. -/
instance neZeroSlots : NeZero 10 := ⟨by decide⟩

/-- `struct Process`. -/
structure Process where
  state : ProcessState
  pid : Int
  entry : Nat
  vm : Option (Fin 10)
  heapSize : Nat
  userStack : Nat
  kernelStack : Nat
  context : Context
  waitPid : Int

/-- An entry of the process table before the kernel runs. -/
def Process.zero : Process := ⟨.UNUSED, 0, 0, none, 0, NULL, NULL, fun _ => 0, 0⟩

/-- The state of the kernel.  `ttb` is the process whose table the hardware walks, or none for
`kernel_vm`. -/
structure Kernel (σ : Type) where
  mem : Mem
  kernelVm : SectionTable
  processTable : Fin 10 → Process
  processVm : Fin 10 → SectionTable
  currentProcess : Option (Fin 10)
  ttb : Option (Fin 10)
  roundRobinIndex : Nat
  fat : Volume
  dev : σ

/-- Kernel code. -/
abbrev KM (σ : Type) := StateT (Kernel σ) Option

section Code

variable {σ α : Type}

/-- The kernel with another memory. -/
def Kernel.setMem (k : Kernel σ) (m : Mem) : Kernel σ := { k with mem := m }

/-- Code that works on memory alone. -/
def onMem (x : MemM α) : KM σ α := fun k => (x.run k.mem).map fun r => (r.1, k.setMem r.2)

theorem wp_onMem {F : Prop} {x : MemM α} {k : Kernel σ} {Q : α → Kernel σ → Prop}
    (h : wp F x k.mem fun a m => Q a (k.setMem m)) : wp F (onMem x) k Q := by
  have hrun : (onMem x : KM σ α).run k = (x.run k.mem).map fun r => (r.1, k.setMem r.2) := rfl
  unfold wp at h ⊢
  rw [hrun]
  cases hx : x.run k.mem with
  | none => rw [hx] at h; exact h
  | some r => rw [hx] at h; exact h

/-- The kernel with another process in a slot. -/
def Kernel.setEntry (k : Kernel σ) (i : Fin 10) (p : Process) : Kernel σ :=
  { k with processTable := Function.update k.processTable i p }

/-- The kernel with another section table for a slot. -/
def Kernel.setVm (k : Kernel σ) (i : Fin 10) (vm : SectionTable) : Kernel σ :=
  { k with processVm := Function.update k.processVm i vm }

/-- Assignments to fields of a process. -/
def setProcess (proc : Fin 10) (f : Process → Process) : KM σ Unit :=
  modify fun k => k.setEntry proc (f (k.processTable proc))

/-- A pointer that is used. -/
def deref (p : Option α) : KM σ α :=
  match p with
  | some a => pure a
  | none => failure

/-! ### `proc.c` -/

/-- `proc_init`. -/
def procInit : KM σ Unit := do
  loop 10 (fun i _ => setProcess (Fin.ofNat 10 i) fun p => { p with state := .UNUSED }) ()
  modify fun k => { k with currentProcess := none }

/-- The first slot that is not in use. -/
def firstUnused (k : Kernel σ) : Option (Fin 10) :=
  (List.finRange 10).find? fun i => (k.processTable i).state = .UNUSED

/-- `proc_create`. -/
def procCreate (L : Layout) : KM σ (Option (Fin 10)) := do
  match firstUnused (← get) with
  | none => return none
  | some i =>
      let (vm, kernelStack, userStack) ← onMem (newSpace L)
      modify fun k => k.setVm i vm
      setProcess i fun p => { p with
        pid := i.val + 1, state := .CREATED, vm := some i, heapSize := 0,
        kernelStack := kernelStack, userStack := userStack, waitPid := -1 }
      return some i

/-- `proc_expand_memory`. -/
def procExpandMemory (proc : Fin 10) (pageCount : Nat) : KM σ Unit :=
  loop pageCount (fun _ _ => do
    let p := (← get).processTable proc
    let v ← deref p.vm
    let vm ← onMem (growSpace ((← get).processVm v) p.heapSize)
    modify fun k => k.setVm v vm
    setProcess proc fun p => { p with heapSize := u32 (p.heapSize + 4096) }) ()

/-- `proc_shrink_memory`. -/
def procShrinkMemory (proc : Fin 10) : Nat → KM σ Unit
  | 0 => pure ()
  | n + 1 => do
      let p := (← get).processTable proc
      let v ← deref p.vm
      onMem (shrinkSpace ((← get).processVm v) p.heapSize)
      let heapSize := u32 (p.heapSize + 2 ^ 32 - 4096)
      setProcess proc fun p => { p with heapSize := heapSize }
      if heapSize = 0 then return () else procShrinkMemory proc n

/-- `proc_free`. -/
def procFree (proc : Fin 10) : KM σ Unit := do
  let p := (← get).processTable proc
  onMem (kfree p.kernelStack)
  onMem (kfree p.userStack)
  procShrinkMemory proc (p.heapSize / 4096)
  let v ← deref p.vm
  onMem (freeVmPageTables ((← get).processVm v))
  setProcess proc fun p => { p with state := .UNUSED }

/-- `proc_start`, up to the jump into the process. -/
def procStart (proc : Fin 10) : KM σ Unit := do
  modify fun k => { k with currentProcess := some proc }
  let v ← deref ((← get).processTable proc).vm
  modify fun k => { k with ttb := some v }

/-- `proc_get`. -/
def procGet (pid : Int) : Option (Fin 10) :=
  if pid > 0 ∧ pid ≤ 10 then some (Fin.ofNat 10 (pid.toNat - 1)) else none

/-! ### `scheduler.c` -/

/-- How a handler ends: it returns, it resumes the current process from its saved context, or it
stays for ever in the loop of `schedule` or in one of `c_entry`. -/
inductive Outcome where
  | ret (r : Int)
  | resume
  | panic
  | halt
deriving DecidableEq

/-- The loop of `schedule`, with `n` slots left to try. -/
def scheduleLoop : Nat → KM σ Outcome
  | 0 => return .panic
  | n + 1 => do
      modify fun k => { k with
        roundRobinIndex := if k.roundRobinIndex + 1 = 10 then 0 else k.roundRobinIndex + 1 }
      let k ← get
      let proc ← deref (if h : k.roundRobinIndex < 10 then some ⟨k.roundRobinIndex, h⟩ else none)
      if (k.processTable proc).state = .READY then
        modify fun k => { k with currentProcess := some proc }
        procStart proc
        return .resume
      else scheduleLoop n

/-- `schedule`. -/
def schedule : KM σ Outcome := scheduleLoop 10

end Code

end Arunos
