import Arunos.Machine.Step
import Arunos.Proc.Program

/-!
# Machine — Os — what the running system is for

The machine as its programs know it.  A process is a memory — a byte at each address it may use —
and its saved registers; the system is the tasks of `Proc.Tasks` with such a process in each used
slot.  There is no allocator, no page table, no kernel memory and no disk: a parameter `progs` says
what program a name stands for.

`Os.step` is one step of this machine and `Os.boot` its start.  `Machine.Simulation` proves that the
kernel implements it.
-/

namespace Arunos

/-! ### Processes -/

/-- A process as its program knows it. -/
structure Body where
  memory : UserMemory
  context : Context

/-- The process that starts a program. -/
def Program.start (prog : Program) : Body := ⟨prog.memory, startContext prog.entry⟩

/-- The child of a process. -/
def Body.child (b : Body) : Body := { b with context := childContext b.context }

/-- The process with a byte stored, if it has memory there. -/
def Body.store (b : Body) (virtual : Nat) (x : UInt8) : Option Body :=
  if b.memory virtual = none then none
  else some { b with memory := Function.update b.memory virtual (some x) }

/-- The string at an address, if it ends within `n` bytes. -/
def nameIn (memory : UserMemory) : Nat → Nat → Option (List UInt8)
  | 0, _ => none
  | n + 1, addr =>
      match memory addr with
      | none => none
      | some x => if x = 0 then some [] else (nameIn memory n (addr + 1)).map (x :: ·)

/-! ### The system -/

/-- The tasks, and the process in each used slot. -/
@[ext]
structure Os where
  tasks : Tasks
  body : Fin 10 → Option Body

/-- The system at work for a process, or stopped. -/
inductive OsMachine where
  | user (os : Os) (cpu : Context)
  | panicked (os : Os)
  | halted

namespace Os

/-- The system with another process in a slot. -/
def setBody (os : Os) (i : Fin 10) (b : Option Body) : Os :=
  { os with body := Function.update os.body i b }

/-- The system after an operation of the tasks. -/
def after (os : Os) (r : Tasks × Outcome) : Os × Outcome := ({ os with tasks := r.1 }, r.2)

/-- The registers of a process are saved. -/
def save (os : Os) (c : Fin 10) (cpu : Context) : Os :=
  os.setBody c ((os.body c).map ({ · with context := cpu }))

def schedule (os : Os) : Os × Outcome := os.after os.tasks.schedule

/-- The child has the caller's memory, and its registers with the result 0. -/
def fork (os : Os) (c : Fin 10) : Os × Outcome :=
  match os.tasks.firstFree with
  | some i => (os.setBody i ((os.body c).map Body.child)).after os.tasks.fork
  | none => os.after os.tasks.fork

def exit (os : Os) (c : Fin 10) : Os × Outcome := (os.setBody c none).after (os.tasks.exit c)

def wait (os : Os) (c : Fin 10) (pid : Int) : Os × Outcome := os.after (os.tasks.wait c pid)

section Programs

variable (progs : List UInt8 → Option Program)

/-- The caller starts the program, if there is one and a slot is free. -/
def load (os : Os) (c : Fin 10) (name : List UInt8) : Os × Outcome :=
  match progs name, os.tasks.firstFree with
  | some prog, some _ => (os.setBody c (some prog.start), .resume)
  | _, _ => (os, .ret (-1))

/-- The caller starts the program whose name it has at an address. -/
def exec (os : Os) (c : Fin 10) (userName : Nat) : Os × Outcome :=
  match (if userName = 0 then none
    else (os.body c).bind fun b => nameIn b.memory 13 userName) with
  | none => (os, .ret (-1))
  | some name => os.load progs c name

/-- A new process starts a program, if there is one and two slots are free. -/
def execute (os : Os) (name : List UInt8) : Os × Outcome :=
  match os.tasks.firstFree with
  | none => (os, .ret 0)
  | some i =>
      match progs name, (os.tasks.move (.create i)).firstFree with
      | some prog, some _ =>
          (os.setBody i (some prog.start)).after (os.tasks.move (.create i)).schedule
      | _, _ => (os, .ret 0)

/-- A system call of the process in `c`. -/
def syscall (os : Os) (c : Fin 10) (key : Int) (code arg1 : Nat) : Os × Outcome :=
  match code with
  | 0 => (os, .ret 0)
  | 1 => (os, .ret key)
  | 2 => os.exit c
  | 3 => (os, .ret (c.val + 1))
  | 4 => os.fork c
  | 5 => os.exec progs c arg1
  | 6 => os.schedule
  | 7 => os.wait c (signed arg1)
  | 8 => (os, .ret 0)
  | _ => (os, .ret (-1))

/-- A trap of the process in `c`. -/
def trap (os : Os) (c : Fin 10) (cpu : Context) : Trap → Os × Outcome
  | .swi key => os.syscall progs c key (cpu .R0) (cpu .R1)
  | .timer => os.schedule
  | .uart => (os, .ret 0)
  | .execute name => os.execute progs name

/-- What a trap that uses the disk does when the disk fails. -/
def failed (os : Os) (cpu : Context) : Trap → Option (Os × Outcome)
  | .swi _ => if cpu .R0 = 5 ∨ cpu .R0 = 8 then some (os, .ret (-1)) else none
  | .execute _ => some (os, .ret 0)
  | _ => none

/-- The end of a trap. -/
def leave (back : Int → Context) : Os × Outcome → OsMachine
  | (os, .ret r) => .user os (back r)
  | (os, .resume) =>
      match os.tasks.current.bind os.body with
      | some b => .user os b.context
      | none => .halted
  | (os, .panic) => .panicked os
  | (_, .halt) => .halted

/-- A store of the running program. -/
def store (os : Os) (virtual : Nat) (x : UInt8) : Option Os :=
  os.tasks.current.bind fun c =>
    ((os.body c).bind (·.store virtual x)).map fun b => os.setBody c (some b)

/-- One step. -/
def step : OsMachine → Event → Option OsMachine
  | .user os cpu, .work cpu' =>
      if cpu' .CPSR % 256 = cpu .CPSR % 256 then some (.user os cpu') else none
  | .user os cpu, .store virtual x => (os.store virtual x).map (.user · cpu)
  | .user os cpu, .trap t =>
      os.tasks.current.map fun c => leave (t.back cpu) ((os.save c cpu).trap progs c cpu t)
  | _, _ => none

/-- One step in which the disk fails. -/
def stepFailed : OsMachine → Event → Option OsMachine
  | .user os cpu, .trap t =>
      os.tasks.current.bind fun c => ((os.save c cpu).failed cpu t).map (leave (t.back cpu))
  | _, _ => none

/-- The start: the shell is the one process, or there is no shell. -/
def boot : OsMachine :=
  match progs shellName with
  | some prog =>
      .user ⟨.initial, Function.update (fun _ => none) 0 (some prog.start)⟩ prog.start.context
  | none => .halted

end Programs

end Os

end Arunos
