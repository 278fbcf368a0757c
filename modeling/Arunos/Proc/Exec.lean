import Arunos.Proc.Process

/-!
# Proc — Exec — the program loader of `kernel/proc/syscall_exec.c`

`load_elf` fills the heap of a process from a file; `proc_load_program` does so in a slot of its
own and then exchanges the two processes' memory, so that a failure leaves the caller alone.
Local variables that `fat_read` fills are buffers of their own.
-/

namespace Arunos

variable {σ : Type} [BlockDevice σ]

/-! ### The file format -/

/-- The fields of `struct ElfHeader` that are read. -/
structure ElfHeader where
  magic : Nat
  elf : Nat → UInt8
  type : Nat
  machine : Nat
  version : Nat
  entry : Nat
  phoff : Nat
  ehsize : Nat
  phentsize : Nat
  phnum : Nat

def ElfHeader.ofBytes (b : Bytes) : ElfHeader where
  magic := le32 b 0
  elf i := b (4 + i)
  type := le16 b 16
  machine := le16 b 18
  version := le32 b 20
  entry := le32 b 24
  phoff := le32 b 28
  ehsize := le16 b 40
  phentsize := le16 b 42
  phnum := le16 b 44

/-- The checks of `load_elf` on the header. -/
def ElfHeader.accepted (e : ElfHeader) : Bool :=
  !(e.magic ≠ 0x464C457F || e.elf 0 ≠ 1 || e.elf 1 ≠ 1 || e.elf 2 ≠ 1 || e.type ≠ 2 ||
    e.machine ≠ 40 || e.version ≠ 1 || e.ehsize ≠ 52 || e.phentsize ≠ 32 || e.phnum = 0 ||
    e.phnum > 16 || e.entry &&& 3 ≠ 0)

/-- The fields of `struct ElfProgramHeader` that are read. -/
structure ElfProgramHeader where
  type : Nat
  off : Nat
  vaddr : Nat
  filesz : Nat
  memsz : Nat
  flags : Nat

/-- The `i`-th program header. -/
def ElfProgramHeader.ofBytes (b : Bytes) (i : Nat) : ElfProgramHeader where
  type := le32 b (32 * i)
  off := le32 b (32 * i + 4)
  vaddr := le32 b (32 * i + 8)
  filesz := le32 b (32 * i + 16)
  memsz := le32 b (32 * i + 20)
  flags := le32 b (32 * i + 24)

/-- The first loop of `load_elf`: the end of the image, and whether the entry point lies in an
executable segment; none when a header is refused. -/
def scanHeaders (entry size : Nat) : List ElfProgramHeader → Nat → Bool → Option (Nat × Bool)
  | [], last, entryFound => some (last, entryFound)
  | ph :: rest, last, entryFound =>
      if ph.type = 2 ∨ ph.type = 3 then none
      else if ph.type ≠ 1 then scanHeaders entry size rest last entryFound
      else if ph.filesz > ph.memsz ∨ ph.vaddr > 0x100000 ∨ ph.memsz > 0x100000 - ph.vaddr ∨
          ph.off > size ∨ ph.filesz > size - ph.off then none
      else
        let last := if ph.vaddr + ph.memsz > last then ph.vaddr + ph.memsz else last
        let entryFound :=
          if ph.flags &&& 1 ≠ 0 ∧ entry ≥ ph.vaddr ∧ entry - ph.vaddr < ph.filesz then true
          else entryFound
        scanHeaders entry size rest last entryFound

/-! ### Reading from the file -/

/-- `fat_read` into a local variable. -/
def readLocal (file : FatFile) (offset length : Nat) : KM σ (Option Bytes) := do
  let k ← get
  let (ok, buffer, dev) := fatRead k.fat file offset 0 length (fun _ => 0) k.dev
  set { k with dev := dev }
  return if ok then some buffer else none

/-- `fat_read` to an address. -/
def readTo (file : FatFile) (offset buffer length : Nat) : KM σ Bool := do
  let k ← get
  let (ok, ram, dev) := fatRead k.fat file offset buffer length k.mem.ram k.dev
  set { k with mem := { k.mem with ram := ram }, dev := dev }
  return ok

/-! ### Copying the segments -/

/-- The bytes the copying loop handles at once: up to the end of the page, of the segment and, in
the part that comes from the file, of that part. -/
def chunkSize (ph : ElfProgramHeader) (offset : Nat) : Nat :=
  let n := min (4096 - u32 (ph.vaddr + offset) % 4096) (ph.memsz - offset)
  if offset < ph.filesz then min n (ph.filesz - offset) else n

theorem chunkSize_pos {ph : ElfProgramHeader} {offset : Nat} (h : offset < ph.memsz) :
    0 < chunkSize ph offset := by
  simp only [chunkSize]
  split <;> omega

/-- The loop `while (offset < ph[i].memsz)`. -/
def copySegment (proc : Fin 10) (file : FatFile) (ph : ElfProgramHeader) (offset : Nat) :
    KM σ Bool :=
  if _h : offset < ph.memsz then do
    let n := chunkSize ph offset
    let v ← deref ((← get).processTable proc).vm
    let k ← get
    let dst := p2v (resolvePhysicalAddress k.mem.ram (k.processVm v) (u32 (ph.vaddr + offset)))
    if offset < ph.filesz then
      let ok ← readTo file (u32 (ph.off + offset)) dst n
      if ok then copySegment proc file ph (offset + chunkSize ph offset) else return false
    else
      onMem (onRam (memset · dst 0 n))
      copySegment proc file ph (offset + chunkSize ph offset)
  else return true
termination_by ph.memsz - offset
decreasing_by all_goals have := chunkSize_pos _h; omega

/-- The second loop of `load_elf`. -/
def copySegments (proc : Fin 10) (file : FatFile) : List ElfProgramHeader → KM σ Bool
  | [] => return true
  | ph :: rest => do
      if ph.type ≠ 1 then copySegments proc file rest
      else
        let ok ← copySegment proc file ph 0
        if ok then copySegments proc file rest else return false

/-- The context a program starts with. -/
def startContext (entry : Nat) : Context
  | .CPSR => 0x10
  | .RESTART_ADDR => entry
  | .SP => 0x7fffe000
  | _ => 0

/-- `load_elf`, from the accepted headers on. -/
def loadImage (proc : Fin 10) (file : FatFile) (entry : Nat) (ph : List ElfProgramHeader) :
    KM σ Bool := do
  match scanHeaders entry file.size ph 0 false with
  | some (last, true) =>
      procExpandMemory proc (roundUp last 4096 / 4096)
      let ok ← copySegments proc file ph
      if ok then
        setProcess proc fun p => { p with entry := entry, context := startContext entry }
        return true
      else return false
  | _ => return false

/-- `load_elf`. -/
def loadElf (proc : Fin 10) (file : FatFile) : KM σ Bool := do
  match ← readLocal file 0 52 with
  | none => return false
  | some b =>
      let elf := ElfHeader.ofBytes b
      if !elf.accepted then return false
      else
        match ← readLocal file elf.phoff (elf.phnum * 32) with
        | none => return false
        | some b =>
            loadImage proc file elf.entry ((List.range elf.phnum).map (ElfProgramHeader.ofBytes b))

/-! ### Replacing a process's program -/

/-- `fat_open`. -/
def openFile (name : List UInt8) : KM σ (Option FatFile) := do
  let k ← get
  let (file, dev) := fatOpen k.fat (some name) k.dev
  set { k with dev := dev }
  return file

/-- The exchange at the end of `proc_load_program`: section tables, heap sizes and stacks; the
process takes the image's entry point and context. -/
def adoptImage (proc image : Fin 10) : KM σ Unit := do
  let k ← get
  let p := k.processTable proc
  let q := k.processTable image
  let v ← deref p.vm
  let w ← deref q.vm
  modify fun k => { k with
    processVm := Function.update (Function.update k.processVm v (k.processVm w)) w
      (k.processVm v) }
  setProcess proc fun p => { p with
    heapSize := q.heapSize, kernelStack := q.kernelStack, userStack := q.userStack,
    entry := q.entry, context := q.context, state := .READY }
  setProcess image fun q => { q with
    heapSize := p.heapSize, kernelStack := p.kernelStack, userStack := p.userStack }

/-- `proc_load_program`. -/
def procLoadProgram (L : Layout) (proc : Option (Fin 10)) (name : List UInt8) : KM σ Bool := do
  match proc with
  | none => return false
  | some proc =>
      match ← openFile name with
      | none => return false
      | some file =>
          match ← procCreate L with
          | none => return false
          | some image =>
              let ok ← loadElf image file
              if ok then
                adoptImage proc image
                procFree image
                return true
              else
                procFree image
                return false

/-- The loop of `syscall_exec` over the name, with `n` bytes of the buffer left. -/
def readName (current : Fin 10) : Nat → Nat → KM σ (Option (List UInt8))
  | 0, _ => return none
  | n + 1, addr => do
      let k ← get
      let p := k.processTable current
      if addr ≥ p.heapSize ∧ (addr < 0x7fffd000 ∨ addr ≥ 0x7fffe000) then return none
      else
        let v ← deref p.vm
        let c := k.mem.ram (p2v (resolvePhysicalAddress k.mem.ram (k.processVm v) addr))
        if c = 0 then return some []
        else
          let rest ← readName current n (u32 (addr + 1))
          return rest.map (c :: ·)

/-- `syscall_exec`. -/
def syscallExec (L : Layout) (userName : Nat) : KM σ Outcome := do
  if userName = 0 then return .ret (-1)
  else
    let current ← deref (← get).currentProcess
    match ← readName current 13 userName with
    | none => return .ret (-1)
    | some name =>
        let loaded ← procLoadProgram L (some current) name
        if loaded then
          procStart current
          return .resume
        else return .ret (-1)

end Arunos
