import Arunos.Fs.Open
import Arunos.Proc.Exec

/-!
# Proc — Syscall — the system calls, the monitor's `execute` and the start of the kernel

The remaining handlers of `kernel/proc`, the dispatcher of `kernel/ksyscall.c`, `mon_execute` and
`c_entry`.  `console.c` shares no data with the process subsystem: what `kgetch` returns is an
argument here, and what is printed is left out.
-/

namespace Arunos

variable {σ : Type} [BlockDevice σ]

/-! ### `fork` -/

/-- The section table the hardware walks. -/
def activeVm (k : Kernel σ) : SectionTable :=
  match k.ttb with
  | some v => k.processVm v
  | none => k.kernelVm

/-- A load from a virtual address: an abort when the page is not mapped. -/
def loadByte (k : Kernel σ) (virtual : Nat) : Option UInt8 :=
  (descriptor k.mem.ram (activeVm k) (virtual / 4096)).map fun e =>
    k.mem.ram (p2v (e.baseAddress * 4096 + virtual % 4096))

/-- The loop of `syscall_fork` over the parent's memory. -/
def copyMemory (child : Fin 10) (heapSize : Nat) : KM σ Unit :=
  loop heapSize (fun i _ => do
    let v ← deref ((← get).processTable child).vm
    let k ← get
    let childPtr := p2v (resolvePhysicalAddress k.mem.ram (k.processVm v) i)
    let c ← deref (loadByte k i)
    onMem (onRam (Function.update · childPtr c))) ()

/-- `syscall_fork`. -/
def syscallFork (L : Layout) : KM σ Outcome := do
  let parent ← deref (← get).currentProcess
  match ← procCreate L with
  | none => return .ret (-1)
  | some child =>
      let heapSize := ((← get).processTable parent).heapSize
      procExpandMemory child (heapSize / 4096)
      copyMemory child heapSize
      let c := (← get).processTable child
      let p := (← get).processTable parent
      onMem (onRam (memcpyWithin · c.kernelStack p.kernelStack 4096))
      onMem (onRam (memcpyWithin · c.userStack p.userStack 4096))
      setProcess child fun c => { c with
        context := Function.update p.context .R0 0, state := .READY }
      return .ret ((← get).processTable child).pid

/-! ### `exit`, `wait` and the rest -/

/-- The loop of `syscall_exit` over the process table. -/
def wakeWaiters (pid : Int) : KM σ Unit :=
  modify fun k => { k with
    processTable := fun i =>
      let p := k.processTable i
      if p.state = .SLEEPING ∧ p.waitPid = pid then { p with waitPid := -1, state := .READY }
      else p }

/-- `syscall_exit`. -/
def syscallExit : KM σ Outcome := do
  match (← get).currentProcess with
  | none => return .ret (-1)
  | some current =>
      modify fun k => { k with ttb := none }
      wakeWaiters ((← get).processTable current).pid
      procFree current
      modify fun k => { k with currentProcess := none }
      schedule

/-- `syscall_wait`. -/
def syscallWait (arg1 : Int) : KM σ Outcome := do
  match procGet arg1 with
  | none => return .ret 0
  | some proc =>
      if ((← get).processTable proc).state ≠ .UNUSED then
        let current ← deref (← get).currentProcess
        setProcess current fun p => { p with waitPid := arg1, state := .SLEEPING }
        schedule
      else return .ret 0

/-- `syscall_yield`. -/
def syscallYield : KM σ Outcome := schedule

/-- `syscall_getpid`. -/
def syscallGetpid : KM σ Outcome := do
  let current ← deref (← get).currentProcess
  return .ret ((← get).processTable current).pid

/-- `syscall_dir`: the last result of `fat_next`, which ends the loop. -/
def dirLoop (v : Volume) (cursor : Nat) (s : σ) : Int × σ :=
  match _h : rootEntry v cursor s with
  | (.slot next _, s') => dirLoop v next s'
  | (.error, s') => (-1, s')
  | (.eof, s') => (0, s')
termination_by v.rootEntries - cursor
decreasing_by
  have := rootEntry_slot (congrArg Prod.fst _h)
  omega

def syscallDir : KM σ Outcome := do
  let k ← get
  let (r, dev) := dirLoop k.fat 0 k.dev
  set { k with dev := dev }
  return .ret r

/-! ### Dispatch -/

/-- A register as a signed number. -/
def signed (n : Nat) : Int := if n < 2 ^ 31 then n else n - 2 ^ 32

/-- `handle_syscall(code, arg1, …)`, where `kgetch` would return `key`. -/
def handleSyscall (L : Layout) (key : Int) (code arg1 : Nat) : KM σ Outcome :=
  match code with
  | 0 => return .ret 0
  | 1 => return .ret key
  | 2 => syscallExit
  | 3 => syscallGetpid
  | 4 => syscallFork L
  | 5 => syscallExec L arg1
  | 6 => syscallYield
  | 7 => syscallWait (signed arg1)
  | 8 => syscallDir
  | _ => return .ret (-1)

/-- `mon_execute` with a file name. -/
def monExecute (L : Layout) (name : List UInt8) : KM σ Outcome := do
  let proc ← procCreate L
  let loaded ← procLoadProgram L proc name
  if loaded then schedule
  else
    match proc with
    | some proc => procFree proc
    | none => pure ()
    return .ret 0

/-! ### The start -/

/-- `vm_init`. -/
def vmInit (L : Layout) : KM σ Unit := do
  let vm ← onMem (setupKernelVm L)
  modify fun k => { k with kernelVm := vm, ttb := none }

/-- `block_init() && fat_init()`. -/
def mountDisk : KM σ Bool := do
  let k ← get
  let (ready, dev) := blockInit k.dev
  if !ready then
    set { k with dev := dev }
    return false
  else
    let (ok, fat, dev) := fatInit k.fat dev
    set { k with fat := fat, dev := dev }
    return ok

/-- `c_entry`, until memory and the process table are set up. -/
def memoryInit (L : Layout) : KM σ Unit := do
  -- up to `KERNEL_BASE + INITIAL_MEMORY_SIZE`
  onMem (kallocInit L.allocatableStart 0x82000000)
  vmInit L
  procInit
  -- up to `KERNEL_BASE + TOTAL_MEMORY_SIZE`
  onMem (kallocInit 0x82000000 0x90000000)

/-- The block of `c_entry` that starts the first program, up to the call of `schedule`.  False if it
stays in the loop there. -/
def startShell (L : Layout) : KM σ Bool := do
  let proc ← procCreate L
  if !(← procLoadProgram L proc shellName) then return false
  else
    modify fun k => { k with roundRobinIndex := 0 }
    return true

/-- `c_entry` up to the call of `schedule`.  False if it stays in one of its loops. -/
def prepare (L : Layout) : KM σ Bool := do
  memoryInit L
  if !(← mountDisk) then return false
  else startShell L

/-- `c_entry`. -/
def cEntry (L : Layout) : KM σ Outcome := do
  if !(← prepare L) then return .halt
  else schedule

end Arunos
