import Arunos.Lib.Gets
import Arunos.Lib.Printf
import Arunos.Support.Interactive

/-!
# User — Programs — the programs of `user/`

A program is known to the kernel by its system calls.  `Request` is a system call as the C source
makes it, a program is an `Interactive Request Int`, and the answers are what the calls return.

`printf` and `gets` are those of `lib/stdio`, with `putch` and `getch` as the calls of these names
in `lib/syscall.c`.  Reading past the end of an array is a fault; from there on the program makes no
system call.  What a local array holds before it is first written is a parameter.
-/

namespace Arunos

/-! ### System calls -/

/-- A system call: its number, and its argument.  The name that `exec` has the address of is in the
request. -/
inductive Request
  | putch (c : Int)
  | getch
  | exit (code : Int)
  | getpid
  | fork
  | exec (name : List UInt8)
  | yield
  | wait (id : Int)
  | dir
  deriving DecidableEq

/-- `enum SystemCallCode`. -/
def Request.code : Request → Nat
  | putch _ => 0
  | getch => 1
  | exit _ => 2
  | getpid => 3
  | fork => 4
  | exec _ => 5
  | yield => 6
  | wait _ => 7
  | dir => 8

/-- The requests that are for the console. -/
def Request.console : Request → Bool
  | putch _ | getch => true
  | _ => false

/-- A C program in user mode. -/
abbrev User (α : Type) := Interactive Request Int α

namespace User

/-- `putch(c)`. -/
def putch (c : Int) : User Unit := do
  let _ ← Interactive.ask (.putch c)

/-- `getch()`. -/
def getch : User Int := Interactive.ask .getch

/-- `exit(code)`. -/
def exit (code : Int) : User Unit := do
  let _ ← Interactive.ask (.exit code)

/-- `getpid()`. -/
def getpid : User Int := Interactive.ask .getpid

/-- `fork()`. -/
def fork : User Int := Interactive.ask .fork

/-- `exec(name)`. -/
def exec (name : List UInt8) : User Int := Interactive.ask (.exec (cstring name))

/-- `wait(id)`. -/
def wait (id : Int) : User Unit := do
  let _ ← Interactive.ask (.wait id)

/-- `dir()`. -/
def dir : User Int := Interactive.ask .dir

/-! ### `printf` and `gets` -/

/-- What the library computes, or a fault. -/
def orFault {α : Type} : Option α → User α
  | some a => pure a
  | none => .spin

/-- `putch` of each code. -/
def putchAll : List Int → User Unit
  | [] => pure ()
  | c :: codes => do
      putch c
      putchAll codes

/-- `printf(format, ...)`: `putch` is called with what `vprintf_base` emits. -/
def printf (format : List UInt8) (ap : List Argument) : User Int32 := do
  let (length, codes) ← orFault (vprintfBase (fun ch codes => some (codes ++ [ch])) [] format ap)
  putchAll codes
  return length

/-- A round of the loop of `gets_base`. -/
def getsRound (size : Nat) (g : Gets) : User (Gets ⊕ Gets) := do
  let nextChar ← getch
  if nextChar = 0 then return .inl g
  else if nextChar = 13 ∨ nextChar = 10 then return .inr g
  else do
    let g' ← orFault (g.take size nextChar)
    putchAll (g'.output.drop g.output.length)
    return .inl g'

/-- `gets(buffer, size)`, and the array it leaves. -/
def gets (buffer : List UInt8) (size : Nat) : User (List UInt8) :=
  if size = 0 then return buffer
  else do
    let g ← Interactive.loop (getsRound size) ⟨buffer, 0, []⟩
    putch 10
    orFault (if g.bufferIndex < g.buffer.length then some (g.buffer.set g.bufferIndex 0) else none)

/-! ### The programs -/

/-- The characters of a string literal. -/
def bytes (s : String) : List UInt8 := s.toUTF8.data.toList

/-- The array of a string literal. -/
def literal (s : String) : List UInt8 := bytes s ++ [0]

/-- An `int` as an argument of `printf`. -/
def int (v : Int) : Argument := .word (UInt32.ofInt v)

/-- `!strcmp(command, "ls") || !strcmp(command, "dir")`. -/
def isListing (command : List UInt8) : Option Bool := do
  if (← strcmp command (literal "ls")) = 0 then return true
  return (← strcmp command (literal "dir")) = 0

/-- `if (dir() < 0) printf(...)` of `user/shell.c`. -/
def listDirectory : User Unit := do
  if (← dir) < 0 then
    let _ ← printf (literal "Cannot list directory\n") []

/-- The child of the shell. -/
def runProgram (command : List UInt8) : User Unit := do
  (if (← exec command) < 0 then do
    let _ ← printf (literal "Command not found\n") []
  else pure () : User Unit)
  exit 1

/-- From `fork()` on in the loop of `user/shell.c`. -/
def forkAndWait (command : List UInt8) : User Unit := do
  let childPid ← fork
  if childPid = 0 then runProgram command
  else if childPid < 0 then
    let _ ← printf (literal "Cannot create process\n") []
  else wait childPid

/-- The body of the loop of `user/shell.c`, with the array `command`. -/
def shellRound (command : List UInt8) : User (List UInt8 ⊕ Unit) := do
  let _ ← printf (literal "$ ") []
  let command ← gets command 128
  if command.head? = some 0 then return .inl command
  else do
    let listing ← orFault (isListing command)
    (if listing then listDirectory else forkAndWait command : User Unit)
    return .inl command

/-- What `user/shell.c` prints first. -/
def shellBanner : String :=
  "\nArunOS shell\n" ++
    "  ls / dir  - list files in the root directory\n" ++
    "  hi_test   - enter a line and echo it back\n" ++
    "  fk_test   - see fork create a child process\n" ++
    "Run programs by typing their filename, then Enter.\n" ++
    "To exit QEMU, press Ctrl-A, then X.\n\n"

/-- `user/shell.c`.  The `exit` after the loop is not reached. -/
def shell (command : Vector UInt8 128) : User Unit := do
  let _ ← printf (literal shellBanner) []
  Interactive.loop shellRound command.toList

/-- `user/ex_test.c`. -/
def exTest : User Unit := do
  let childPid ← fork
  (if childPid = 0 then do
    let _ ← printf (literal "starting hi_test ...\n") []
    let _ ← exec (literal "hi_test")
  else do
    let _ ← printf (literal "message from parent.\n") []
    wait childPid : User Unit)
  exit 0

/-- `n` rounds of the loop of `user/co_test.c`, from `i` on. -/
def coRounds : Nat → Int → User Unit
  | 0, _ => pure ()
  | n + 1, i => do
      let pid ← getpid
      let _ ← printf (literal "step %d at pid %d\n") [int i, int pid]
      coRounds n (i + 1)

/-- `user/co_test.c`. -/
def coTest : User Unit := do
  let _ ← fork
  coRounds 50000 0
  exit 0

/-- `user/fk_test.c`. -/
def fkTest : User Unit := do
  let forkResult ← fork
  let pid ← getpid
  let _ ← printf (literal "hello from pid: %d, fork returned: %d\n") [int pid, int forkResult]
  exit 0

/-- `user/hi_test.c`. -/
def hiTest (s : Vector UInt8 128) : User Unit := do
  let _ ← printf (literal "%s %s %d\n")
    [.string (literal "hello"), .string (literal "world"), int 1]
  let _ ← printf (literal "Please enter a string: ") []
  let s ← gets s.toList 128
  let _ ← printf (literal "%s\n") [.string s]
  exit 0

end User

end Arunos
