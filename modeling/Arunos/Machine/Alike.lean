import Arunos.Fs.Alike
import Arunos.Machine.Step

/-!
# Machine — Alike — the machine knows a disk by its answers

Two kernels are twins when they differ in their drivers alone, and these are in related states.  If
related drivers answer alike, every function of the kernel does the same on twins and leaves twins.
So the machine does the same on both disks: it starts alike (`Alike.cEntry`), and the same events
are possible and lead to twins again (`Alike.step`, `Alike.run`).
-/

namespace Arunos

variable {σ τ α : Type} {S : σ → τ → Prop} {L : Layout}

/-- The kernel with another driver. -/
def Kernel.withDev (k : Kernel σ) (d : τ) : Kernel τ where
  mem := k.mem
  kernelVm := k.kernelVm
  processTable := k.processTable
  processVm := k.processVm
  currentProcess := k.currentProcess
  ttb := k.ttb
  roundRobinIndex := k.roundRobinIndex
  fat := k.fat
  dev := d

/-- Two kernels that differ in their drivers alone, which are in related states. -/
inductive Twins (S : σ → τ → Prop) : Kernel σ → Kernel τ → Prop where
  | intro {k : Kernel σ} {d : τ} (h : S k.dev d) : Twins S k (k.withDev d)

/-- What a program reads of one twin it reads of the other. -/
theorem twins_get_bind {f : Kernel σ → KM σ α} {g : Kernel τ → KM τ α}
    (hf : ∀ k d, Mirrors (Twins S) (f k) (g (k.withDev d))) :
    Mirrors (Twins S) (get >>= f) (get >>= g) := by
  refine mirrors_get_bind ?_
  rintro k _ ⟨h⟩
  exact hf k _

/-- An assignment that the driver has nothing to do with. -/
theorem twins_modify {f : Kernel σ → Kernel σ} {g : Kernel τ → Kernel τ}
    (hf : ∀ k d, g (k.withDev d) = (f k).withDev d) (hdev : ∀ k, (f k).dev = k.dev) :
    Mirrors (Twins S) (modify f) (modify g) := by
  refine mirrors_modify ?_
  rintro k _ ⟨h⟩
  rw [hf]
  exact .intro ((hdev k).symm ▸ h)

/-- Reading the kernel changes nothing. -/
theorem run_get_bind (f : Kernel σ → KM σ α) (k : Kernel σ) : (get >>= f).run k = (f k).run k := rfl

/-- Twins have the same memory. -/
theorem twins_onMem (x : MemM α) : Mirrors (Twins S) (onMem x) (onMem x) := by
  rintro k _ ⟨h⟩
  change Option.Rel _ ((x.run k.mem).map _) ((x.run k.mem).map _)
  cases x.run k.mem with
  | none => exact .none
  | some r => exact .some (.intro _ (Twins.intro (k := k.setMem r.2) h))

/-- A null pointer is used on both or on neither. -/
theorem twins_deref (p : Option α) : Mirrors (Twins S) (deref p) (deref p) := by
  cases p with
  | none => exact mirrors_fault
  | some a => exact mirrors_pure a

theorem twins_setProcess (i : Fin 10) (f : Process → Process) :
    Mirrors (Twins S) (setProcess i f) (setProcess i f) :=
  twins_modify (fun _ _ => rfl) fun _ => rfl

/-! ### The functions of `proc.c` and `scheduler.c` -/

theorem twins_procInit : Mirrors (Twins S) procInit procInit :=
  mirrors_bind (mirrors_loop (fun _ _ => twins_setProcess _ _) ()) fun _ =>
    twins_modify (fun _ _ => rfl) fun _ => rfl

/-- Twins have the same first free slot. -/
theorem twins_procCreate : Mirrors (Twins S) (procCreate L) (procCreate L) := by
  refine twins_get_bind fun k d => ?_
  have hfree : firstUnused (k.withDev d) = firstUnused k := rfl
  rw [hfree]
  cases firstUnused k with
  | none => exact mirrors_pure _
  | some i =>
      refine mirrors_bind (twins_onMem _) fun _ => ?_
      refine mirrors_bind (twins_modify (fun _ _ => rfl) fun _ => rfl) fun _ => ?_
      exact mirrors_bind (twins_setProcess _ _) fun _ => mirrors_pure _

/-- The rounds of `proc_expand_memory`. -/
theorem twins_procExpandMemory (i : Fin 10) (n : Nat) :
    Mirrors (Twins S) (procExpandMemory i n) (procExpandMemory i n) := by
  refine mirrors_loop (fun _ _ => ?_) ()
  refine twins_get_bind fun k _ => mirrors_bind (twins_deref _) fun v => ?_
  refine twins_get_bind fun k' _ => mirrors_bind (twins_onMem _) fun vm => ?_
  exact mirrors_bind (twins_modify (fun _ _ => rfl) fun _ => rfl) fun _ => twins_setProcess _ _

/-- The rounds of `proc_shrink_memory`, by induction on their number. -/
theorem twins_procShrinkMemory (i : Fin 10) (n : Nat) :
    Mirrors (Twins S) (procShrinkMemory i n) (procShrinkMemory i n) := by
  induction n with
  | zero => exact mirrors_pure _
  | succ n ih =>
      refine twins_get_bind fun k _ => mirrors_bind (twins_deref _) fun v => ?_
      refine twins_get_bind fun k' _ => mirrors_bind (twins_onMem _) fun _ => ?_
      exact mirrors_bind (twins_setProcess _ _) fun _ => mirrors_ite (mirrors_pure _) ih

theorem twins_procFree (i : Fin 10) : Mirrors (Twins S) (procFree i) (procFree i) := by
  refine twins_get_bind fun k _ => mirrors_bind (twins_onMem _) fun _ => ?_
  refine mirrors_bind (twins_onMem _) fun _ => ?_
  refine mirrors_bind (twins_procShrinkMemory i _) fun _ => mirrors_bind (twins_deref _) fun v => ?_
  refine twins_get_bind fun k' _ => mirrors_bind (twins_onMem _) fun _ => ?_
  exact twins_setProcess _ _

theorem twins_procStart (i : Fin 10) : Mirrors (Twins S) (procStart i) (procStart i) := by
  refine mirrors_bind (twins_modify (fun _ _ => rfl) fun _ => rfl) fun _ => ?_
  refine twins_get_bind fun k _ => mirrors_bind (twins_deref _) fun v => ?_
  exact twins_modify (fun _ _ => rfl) fun _ => rfl

/-- Twins choose the same process, by induction on the slots left. -/
theorem twins_scheduleLoop (n : Nat) :
    Mirrors (Twins S) (scheduleLoop n) (scheduleLoop n) := by
  induction n with
  | zero => exact mirrors_pure _
  | succ n ih =>
      refine mirrors_bind (twins_modify (fun _ _ => rfl) fun _ => rfl) fun _ => ?_
      refine twins_get_bind fun k _ => mirrors_bind (twins_deref _) fun i => mirrors_ite ?_ ih
      refine mirrors_bind (twins_modify (fun _ _ => rfl) fun _ => rfl) fun _ => ?_
      exact mirrors_bind (twins_procStart i) fun _ => mirrors_pure _

variable [BlockDevice σ] [BlockDevice τ] (hS : Alike S)
include hS

/-! ### The functions that read the disk -/

/-- The loop of `syscall_dir`, by induction on the slots left. -/
theorem Alike.dirLoop (v : Volume) (cursor : Nat) {s : σ} {t : τ} (hs : S s t) :
    Agree S (dirLoop v cursor s) (dirLoop v cursor t) := by
  induction hn : v.rootEntries - cursor using Nat.strong_induction_on generalizing cursor s t with
  | _ n ih =>
      rw [Arunos.dirLoop, Arunos.dirLoop]
      have hentry := hS.rootEntry v cursor hs
      have hnext : ∀ next entry, (Arunos.rootEntry v cursor s).1 = .slot next entry →
          v.rootEntries - next < n := by
        intro next entry he
        have := rootEntry_slot he
        omega
      revert hentry hnext
      generalize Arunos.rootEntry v cursor s = p, Arunos.rootEntry v cursor t = q
      rintro ⟨_ | _ | ⟨next, entry⟩, hs⟩ hnext
      · exact .intro _ hs
      · exact .intro _ hs
      · exact ih _ (hnext next entry rfl) next hs rfl

/-- A read gives both the same bytes. -/
theorem Alike.readLocal (file : FatFile) (offset length : Nat) :
    Mirrors (Twins S) (readLocal file offset length) (readLocal file offset length) := by
  rintro k _ @⟨d, h⟩
  have hread := hS.fatRead k.fat file offset 0 length (fun _ => 0) h
  simp only [Arunos.readLocal, run_get_bind, Kernel.withDev]
  revert hread
  generalize Arunos.fatRead k.fat file offset 0 length _ k.dev = p
  generalize Arunos.fatRead k.fat file offset 0 length _ d = q
  rintro ⟨ok, ⟨buffer, h⟩⟩
  exact .some (.intro _ (.intro h))

/-- A read writes the same bytes into both memories. -/
theorem Alike.readTo (file : FatFile) (offset buffer length : Nat) :
    Mirrors (Twins S) (readTo file offset buffer length) (readTo file offset buffer length) := by
  rintro k _ @⟨d, h⟩
  have hread := hS.fatRead k.fat file offset buffer length k.mem.ram h
  simp only [Arunos.readTo, run_get_bind, Kernel.withDev]
  revert hread
  generalize Arunos.fatRead k.fat file offset buffer length _ k.dev = p
  generalize Arunos.fatRead k.fat file offset buffer length _ d = q
  rintro ⟨ok, ⟨ram, h⟩⟩
  exact .some (.intro _ (.intro h))

theorem Alike.openFile (name : List UInt8) :
    Mirrors (Twins S) (openFile name) (openFile name) := by
  rintro k _ @⟨d, h⟩
  have hopen := hS.fatOpen k.fat (some name) h
  simp only [Arunos.openFile, run_get_bind, Kernel.withDev]
  revert hopen
  generalize Arunos.fatOpen k.fat (some name) k.dev = p
  generalize Arunos.fatOpen k.fat (some name) d = q
  rintro ⟨file, h⟩
  exact .some (.intro _ (.intro h))

theorem Alike.syscallDir : Mirrors (Twins S) syscallDir syscallDir := by
  rintro k _ @⟨d, h⟩
  have hdir := hS.dirLoop k.fat 0 h
  simp only [Arunos.syscallDir, run_get_bind, Kernel.withDev]
  revert hdir
  generalize Arunos.dirLoop k.fat 0 k.dev = p
  generalize Arunos.dirLoop k.fat 0 d = q
  rintro ⟨r, h⟩
  exact .some (.intro _ (.intro h))

/-- The rounds of the copying, by induction on what is left of the segment. -/
theorem Alike.copySegment (i : Fin 10) (file : FatFile) (ph : ElfProgramHeader) (offset : Nat) :
    Mirrors (Twins S) (copySegment i file ph offset) (copySegment i file ph offset) := by
  induction hn : ph.memsz - offset using Nat.strong_induction_on generalizing offset with
  | _ n ih =>
      unfold Arunos.copySegment
      split
      · next hlt =>
        have hpos := chunkSize_pos hlt
        have hrest := ih _ (by omega) (offset + chunkSize ph offset) rfl
        refine twins_get_bind fun k _ => mirrors_bind (twins_deref _) fun v => ?_
        refine twins_get_bind fun k' _ => mirrors_ite ?_ ?_
        · exact mirrors_bind (hS.readTo file _ _ _) fun ok => mirrors_ite hrest (mirrors_pure _)
        · exact mirrors_bind (twins_onMem _) fun _ => hrest
      · exact mirrors_pure _

theorem Alike.copySegments (i : Fin 10) (file : FatFile) (phs : List ElfProgramHeader) :
    Mirrors (Twins S) (copySegments i file phs) (copySegments i file phs) := by
  induction phs with
  | nil => exact mirrors_pure _
  | cons ph phs ih =>
      exact mirrors_ite ih (mirrors_bind (hS.copySegment i file ph 0) fun ok =>
        mirrors_ite ih (mirrors_pure _))

theorem Alike.loadImage (i : Fin 10) (file : FatFile) (entry : Nat) (phs : List ElfProgramHeader) :
    Mirrors (Twins S) (loadImage i file entry phs) (loadImage i file entry phs) := by
  unfold Arunos.loadImage
  split
  · refine mirrors_bind (twins_procExpandMemory i _) fun _ => ?_
    refine mirrors_bind (hS.copySegments i file phs) fun ok => mirrors_ite ?_ (mirrors_pure _)
    exact mirrors_bind (twins_setProcess _ _) fun _ => mirrors_pure _
  · exact mirrors_pure _

/-- Both load the same program or none. -/
theorem Alike.loadElf (i : Fin 10) (file : FatFile) :
    Mirrors (Twins S) (loadElf i file) (loadElf i file) := by
  refine mirrors_bind (hS.readLocal file 0 52) fun b => ?_
  cases b with
  | none => exact mirrors_pure _
  | some b =>
      refine mirrors_ite (mirrors_pure _) (mirrors_bind (hS.readLocal file _ _) fun b' => ?_)
      cases b' with
      | none => exact mirrors_pure _
      | some b' => exact hS.loadImage i file _ _

omit [BlockDevice σ] [BlockDevice τ] hS in
theorem twins_adoptImage (p i : Fin 10) :
    Mirrors (Twins S) (adoptImage p i) (adoptImage p i) := by
  refine twins_get_bind fun k _ => mirrors_bind (twins_deref _) fun v => ?_
  refine mirrors_bind (twins_deref _) fun w => ?_
  refine mirrors_bind (twins_modify (fun _ _ => rfl) fun _ => rfl) fun _ => ?_
  exact mirrors_bind (twins_setProcess _ _) fun _ => twins_setProcess _ _

/-- `proc_load_program` on twins. -/
theorem Alike.procLoadProgram (p : Option (Fin 10)) (name : List UInt8) :
    Mirrors (Twins S) (procLoadProgram L p name) (procLoadProgram L p name) := by
  cases p with
  | none => exact mirrors_pure _
  | some p =>
  refine mirrors_bind (hS.openFile name) fun file => ?_
  cases file with
  | none => exact mirrors_pure _
  | some file =>
  refine mirrors_bind twins_procCreate fun i => ?_
  cases i with
  | none => exact mirrors_pure _
  | some i =>
  refine mirrors_bind (hS.loadElf i file) fun ok => mirrors_ite ?_ ?_
  · refine mirrors_bind (twins_adoptImage p i) fun _ => ?_
    exact mirrors_bind (twins_procFree i) fun _ => mirrors_pure _
  · exact mirrors_bind (twins_procFree i) fun _ => mirrors_pure _

/-! ### The system calls -/

omit [BlockDevice σ] [BlockDevice τ] hS in
/-- Both find the same name in memory, by induction on the bytes left. -/
theorem twins_readName (c : Fin 10) (n addr : Nat) :
    Mirrors (Twins S) (readName c n addr) (readName c n addr) := by
  induction n generalizing addr with
  | zero => exact mirrors_pure _
  | succ n ih =>
      refine twins_get_bind fun k _ => mirrors_ite (mirrors_pure _) ?_
      refine mirrors_bind (twins_deref _) fun v => mirrors_ite (mirrors_pure _) ?_
      exact mirrors_bind (ih _) fun rest => mirrors_pure _

theorem Alike.syscallExec (name : Nat) :
    Mirrors (Twins S) (syscallExec L name) (syscallExec L name) := by
  refine mirrors_ite (mirrors_pure _) (twins_get_bind fun k _ => ?_)
  refine mirrors_bind (twins_deref _) fun c => ?_
  refine mirrors_bind (twins_readName c 13 name) fun text => ?_
  cases text with
  | none => exact mirrors_pure _
  | some text =>
      refine mirrors_bind (hS.procLoadProgram _ text) fun ok => mirrors_ite ?_ (mirrors_pure _)
      exact mirrors_bind (twins_procStart c) fun _ => mirrors_pure _

omit [BlockDevice σ] [BlockDevice τ] hS in
theorem twins_copyMemory (i : Fin 10) (n : Nat) :
    Mirrors (Twins S) (copyMemory i n) (copyMemory i n) := by
  refine mirrors_loop (fun _ _ => twins_get_bind fun k _ => ?_) ()
  refine mirrors_bind (twins_deref _) fun v => twins_get_bind fun k' _ => ?_
  exact mirrors_bind (twins_deref _) fun b => twins_onMem _

omit [BlockDevice σ] [BlockDevice τ] hS in
theorem twins_syscallFork : Mirrors (Twins S) (syscallFork L) (syscallFork L) := by
  refine twins_get_bind fun k _ => mirrors_bind (twins_deref _) fun p => ?_
  refine mirrors_bind twins_procCreate fun i => ?_
  cases i with
  | none => exact mirrors_pure _
  | some i =>
      refine twins_get_bind fun k₁ _ => mirrors_bind (twins_procExpandMemory i _) fun _ => ?_
      refine mirrors_bind (twins_copyMemory i _) fun _ => ?_
      refine twins_get_bind fun k₂ _ => twins_get_bind fun k₃ _ => ?_
      refine mirrors_bind (twins_onMem _) fun _ => mirrors_bind (twins_onMem _) fun _ => ?_
      exact mirrors_bind (twins_setProcess _ _) fun _ => twins_get_bind fun k₄ _ => mirrors_pure _

omit [BlockDevice σ] [BlockDevice τ] hS in
theorem twins_syscallExit : Mirrors (Twins S) syscallExit syscallExit := by
  refine twins_get_bind fun k d => ?_
  have hcurrent : (k.withDev d).currentProcess = k.currentProcess := rfl
  rw [hcurrent]
  cases k.currentProcess with
  | none => exact mirrors_pure _
  | some c =>
      refine mirrors_bind (twins_modify (fun _ _ => rfl) fun _ => rfl) fun _ => ?_
      refine twins_get_bind fun k' _ =>
        mirrors_bind (twins_modify (fun _ _ => rfl) fun _ => rfl) fun _ => ?_
      refine mirrors_bind (twins_procFree c) fun _ => ?_
      exact mirrors_bind (twins_modify (fun _ _ => rfl) fun _ => rfl) fun _ => twins_scheduleLoop 10

omit [BlockDevice σ] [BlockDevice τ] hS in
theorem twins_syscallWait (arg1 : Int) :
    Mirrors (Twins S) (syscallWait arg1) (syscallWait arg1) := by
  unfold syscallWait
  split
  · exact mirrors_pure _
  · refine twins_get_bind fun k _ => mirrors_ite ?_ (mirrors_pure _)
    refine twins_get_bind fun k' _ => mirrors_bind (twins_deref _) fun c => ?_
    exact mirrors_bind (twins_setProcess _ _) fun _ => twins_scheduleLoop 10

/-- Every system call does the same on both. -/
theorem Alike.handleSyscall (key : Int) (code arg1 : Nat) :
    Mirrors (Twins S) (handleSyscall L key code arg1) (handleSyscall L key code arg1) := by
  unfold Arunos.handleSyscall
  split
  · exact mirrors_pure _
  · exact mirrors_pure _
  · exact twins_syscallExit
  · exact twins_get_bind fun k _ => mirrors_bind (twins_deref _) fun c =>
      twins_get_bind fun k' _ => mirrors_pure _
  · exact twins_syscallFork
  · exact hS.syscallExec arg1
  · exact twins_scheduleLoop 10
  · exact twins_syscallWait _
  · exact hS.syscallDir
  · exact mirrors_pure _

theorem Alike.monExecute (name : List UInt8) :
    Mirrors (Twins S) (monExecute L name) (monExecute L name) := by
  refine mirrors_bind twins_procCreate fun p => ?_
  refine mirrors_bind (hS.procLoadProgram p name) fun ok => mirrors_ite (twins_scheduleLoop 10) ?_
  cases p with
  | none => exact mirrors_bind (mirrors_pure _) fun _ => mirrors_pure _
  | some p => exact mirrors_bind (twins_procFree p) fun _ => mirrors_pure _

/-- Every trap does the same on both. -/
theorem Alike.handler (cpu : Context) (t : Trap) :
    Mirrors (Twins S) (t.handler L cpu) (t.handler L cpu) := by
  cases t with
  | swi key => exact hS.handleSyscall key _ _
  | timer => exact twins_scheduleLoop 10
  | uart => exact mirrors_pure _
  | execute name => exact hS.monExecute name

/-! ### The machine -/

omit [BlockDevice σ] [BlockDevice τ] hS in
theorem twins_memoryInit : Mirrors (Twins S) (memoryInit L) (memoryInit L) := by
  refine mirrors_bind (twins_onMem _) fun _ => ?_
  refine mirrors_bind (mirrors_bind (twins_onMem _) fun vm =>
    twins_modify (fun _ _ => rfl) fun _ => rfl) fun _ => ?_
  exact mirrors_bind twins_procInit fun _ => twins_onMem _

/-- Disks that are made ready alike are mounted alike. -/
theorem Alike.mountDisk {k : Kernel σ} {d : τ} (h : Agree S (blockInit k.dev) (blockInit d)) :
    Option.Rel (Agree (Twins S)) (mountDisk.run k) (mountDisk.run (k.withDev d)) := by
  simp only [Arunos.mountDisk, run_get_bind, Kernel.withDev]
  revert h
  generalize blockInit k.dev = p
  generalize blockInit d = q
  rintro @⟨ready, s, t, h⟩
  cases ready with
  | false => exact .some (.intro _ (.intro h))
  | true =>
      have hmount := hS.fatInit k.fat h
      dsimp only [Bool.not_true]
      rw [if_neg (by decide), if_neg (by decide)]
      revert hmount
      generalize Arunos.fatInit k.fat s = p
      generalize Arunos.fatInit k.fat t = q
      rintro ⟨ok, ⟨v, h⟩⟩
      exact .some (.intro _ (.intro h))

theorem Alike.startShell : Mirrors (Twins S) (startShell L) (startShell L) := by
  refine mirrors_bind twins_procCreate fun p => ?_
  refine mirrors_bind (hS.procLoadProgram p shellName) fun ok => mirrors_ite (mirrors_pure _) ?_
  exact mirrors_bind (twins_modify (fun _ _ => rfl) fun _ => rfl) fun _ => mirrors_pure _

/-- **The machine starts alike** on disks that answer alike once they are ready. -/
theorem Alike.cEntry {d : σ} {d' : τ} (h : Agree S (blockInit d) (blockInit d')) (ram : Bytes) :
    Option.Rel (Agree (Twins S)) ((cEntry L).run (.initial ram d))
      ((cEntry L).run (.initial ram d')) := by
  have hprepare : Option.Rel (Agree (Twins S)) ((prepare L).run (.initial ram d))
      ((prepare L).run (.initial ram d')) := by
    -- until the disk is made ready nothing uses it
    have hmemory : Twins (fun s t => s = d ∧ t = d') (Kernel.initial ram d) (.initial ram d') :=
      Twins.intro (k := .initial ram d) ⟨rfl, rfl⟩
    refine agree_bind (twins_memoryInit _ _ hmemory) ?_
    rintro - k _ ⟨rfl, rfl⟩
    refine agree_bind (hS.mountDisk h) fun ok k₁ k₂ hk => ?_
    exact mirrors_ite (mirrors_pure _) hS.startShell k₁ k₂ hk
  refine agree_bind hprepare fun ok k₁ k₂ hk => ?_
  exact mirrors_ite (mirrors_pure _) (twins_scheduleLoop 10) k₁ k₂ hk

omit hS [BlockDevice σ] [BlockDevice τ] in
/-- Two machines in the same state, with kernels that are twins. -/
inductive TwinMachines (S : σ → τ → Prop) : Machine σ → Machine τ → Prop where
  | user {k : Kernel σ} {k' : Kernel τ} (cpu : Context) (h : Twins S k k') :
      TwinMachines S (.user k cpu) (.user k' cpu)
  | panicked {k : Kernel σ} {k' : Kernel τ} (h : Twins S k k') :
      TwinMachines S (.panicked k) (.panicked k')
  | halted {k : Kernel σ} {k' : Kernel τ} (h : Twins S k k') :
      TwinMachines S (.halted k) (.halted k')

omit hS [BlockDevice σ] [BlockDevice τ] in
/-- Twins leave the kernel alike. -/
theorem Twins.leave {k : Kernel σ} {k' : Kernel τ} (h : Twins S k k') (back : Int → Context)
    (out : Outcome) : TwinMachines S (leave back out k) (leave back out k') := by
  cases out with
  | ret r => exact .user _ h
  | panic => exact .panicked h
  | halt => exact .halted h
  | resume =>
      obtain ⟨h⟩ := h
      simp only [Arunos.leave, switchToContext, Kernel.withDev]
      split
      · exact .user _ (.intro h)
      · exact .halted (.intro h)

omit hS [BlockDevice σ] [BlockDevice τ] in
theorem Twins.saveContext {k : Kernel σ} {k' : Kernel τ} (h : Twins S k k') (cpu : Context) :
    Twins S (saveContext k cpu) (saveContext k' cpu) := by
  obtain ⟨h⟩ := h
  simp only [Arunos.saveContext, Kernel.withDev]
  split
  · exact Twins.intro (k := Kernel.setEntry _ _ _) h
  · exact .intro h

/-- **Every event is possible on both machines or on neither**, and leads to machines alike. -/
theorem Alike.step {m : Machine σ} {m' : Machine τ} (h : TwinMachines S m m') (e : Event) :
    Option.Rel (TwinMachines S) (step L m e) (step L m' e) := by
  cases h with
  | panicked h => exact .none
  | halted h => exact .none
  | @user k k' cpu h =>
      cases e with
      | work cpu' =>
          simp only [Arunos.step]
          split
          · exact .some (.user cpu' h)
          · exact .none
      | store virtual b =>
          obtain @⟨d, h⟩ := h
          have haddr : userAddress (k.withDev d) virtual = userAddress k virtual := rfl
          simp only [Arunos.step, haddr]
          cases userAddress k virtual with
          | none => exact .none
          | some a => exact .some (.user cpu (Twins.intro (k := k.setRam _) h))
      | trap t =>
          have htrap := hS.handler (L := L) cpu t _ _ (h.saveContext cpu)
          simp only [Arunos.step]
          revert htrap
          generalize StateT.run (t.handler L cpu) (Arunos.saveContext k cpu) = p
          generalize StateT.run (t.handler L cpu) (Arunos.saveContext k' cpu) = q
          rintro (⟨⟨out, h⟩⟩ | _)
          · exact .some (h.leave _ out)
          · exact .none

/-- What is true of one step is true of a run. -/
theorem Alike.run {m : Machine σ} {m' : Machine τ} (h : TwinMachines S m m') (es : List Event) :
    Option.Rel (TwinMachines S) (es.foldlM (Arunos.step L) m) (es.foldlM (Arunos.step L) m') := by
  induction es generalizing m m' with
  | nil => exact .some h
  | cons e es ih =>
      rw [List.foldlM_cons, List.foldlM_cons]
      have hstep := hS.step (L := L) h e
      revert hstep
      generalize Arunos.step L m e = p, Arunos.step L m' e = q
      rintro (⟨h⟩ | _)
      · exact ih h
      · exact .none

end Arunos
