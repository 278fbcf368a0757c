import Arunos.Proc.Exec
import Arunos.Proc.Heap
import Arunos.Proc.Lifecycle

/-!
# Proc — Name — the name that `syscall_exec` reads through a user pointer

`syscall_exec` walks a string of the caller byte by byte.  Before each byte it tests the address
against the heap and the user stack, and it asks `resolve_physical_address` where the byte is.
`scanUserName` is the function up to its call of `proc_load_program`, with the bytes it read;
`syscallExec_eq` says that what follows is the rest of the function.

`NameAt` is what the walk looks for: the string at an address, with its NUL in a buffer and in the
readable memory of the process.  The walk finds it exactly when it is there (`wp_readNameLog`).
-/

namespace Arunos

variable {σ : Type} {L : Layout} {k : Kernel σ} {sp : Fin 10 → Option Space} {c i : Fin 10}
  {s : Space} {F : Prop} {n addr userName : Nat} {name : List UInt8}

/-! ### The memory of the caller -/

/-- The addresses a process may read: its heap, and the page of its user stack. -/
def UserReadable (k : Kernel σ) (i : Fin 10) (addr : Nat) : Prop :=
  addr < (k.processTable i).heapSize ∨ (0x7fffd000 ≤ addr ∧ addr < 0x7fffe000)

/-- The bytes of a process from `addr` up to and including the first NUL are `name` and the NUL;
there are at most `n` of them, and all of them may be read. -/
structure NameAt (k : Kernel σ) (i : Fin 10) (n addr : Nat) (name : List UInt8) : Prop where
  bytes : ∀ x < name.length, name[x]? = some (byteAt k i (addr + x))
  nonzero : 0 ∉ name
  terminator : byteAt k i (addr + name.length) = 0
  fits : name.length + 1 ≤ n
  readable : ∀ x ≤ name.length, UserReadable k i (addr + x)

theorem NameAt.start (h : NameAt k i n addr name) : UserReadable k i addr :=
  h.readable 0 (Nat.zero_le _)

/-- At a NUL there is the empty name. -/
theorem nameAt_of_nul (hr : UserReadable k i addr) (h₀ : byteAt k i addr = 0) :
    NameAt k i (n + 1) addr name ↔ name = [] := by
  constructor
  · intro h
    cases name with
    | nil => rfl
    | cons b rest =>
        have hb := h.bytes 0 (by simp)
        rw [Nat.add_zero, h₀, List.getElem?_cons_zero] at hb
        exact absurd (Option.some.inj hb ▸ List.mem_cons_self) h.nonzero
  · rintro rfl
    refine ⟨nofun, List.not_mem_nil, h₀, by simp, fun x hx => ?_⟩
    obtain rfl : x = 0 := Nat.le_zero.mp hx
    exact hr

/-- At another byte there is that byte and the name after it. -/
theorem nameAt_of_byte (hr : UserReadable k i addr) (h₀ : byteAt k i addr ≠ 0) :
    NameAt k i (n + 1) addr name ↔
      ∃ rest, NameAt k i n (addr + 1) rest ∧ name = byteAt k i addr :: rest := by
  constructor
  · intro h
    cases name with
    | nil => exact absurd h.terminator h₀
    | cons b rest =>
        have hb := h.bytes 0 (by simp)
        rw [Nat.add_zero, List.getElem?_cons_zero] at hb
        have hshift : ∀ x, addr + 1 + x = addr + (x + 1) := fun x => by omega
        refine ⟨rest, ⟨fun x hx => ?_, fun hz => h.nonzero (List.mem_cons_of_mem _ hz), ?_, ?_,
          fun x hx => ?_⟩, by rw [Option.some.inj hb]⟩
        · rw [hshift, ← h.bytes (x + 1) (by simpa using hx), List.getElem?_cons_succ]
        · rw [hshift]
          exact h.terminator
        · have := h.fits
          rw [List.length_cons] at this
          omega
        · rw [hshift]
          exact h.readable (x + 1) (by simpa using hx)
  · rintro ⟨rest, h, rfl⟩
    have hshift : ∀ x, addr + (x + 1) = addr + 1 + x := fun x => by omega
    refine ⟨fun x hx => ?_, ?_, ?_, ?_, fun x hx => ?_⟩
    · cases x with
      | zero => rfl
      | succ x =>
          rw [List.getElem?_cons_succ, hshift]
          exact h.bytes x (by simpa using hx)
    · rw [List.mem_cons, not_or]
      exact ⟨h₀.symm, h.nonzero⟩
    · rw [List.length_cons, hshift]
      exact h.terminator
    · have := h.fits
      rw [List.length_cons]
      omega
    · cases x with
      | zero => exact hr
      | succ x =>
          rw [hshift]
          exact h.readable x (by simpa using hx)

/-! ### The walk -/

/-- A byte that is read: its address in the process, and the kernel's. -/
structure NameByte where
  addr : Nat
  source : Nat

/-- `readName` with the bytes it reads. -/
def readNameLog (current : Fin 10) : Nat → Nat → KM σ (Option (List UInt8) × List NameByte)
  | 0, _ => return (none, [])
  | n + 1, addr => do
      let k ← get
      let p := k.processTable current
      if addr ≥ p.heapSize ∧ (addr < 0x7fffd000 ∨ addr ≥ 0x7fffe000) then return (none, [])
      else
        let v ← deref p.vm
        let source := p2v (resolvePhysicalAddress k.mem.ram (k.processVm v) addr)
        let c := k.mem.ram source
        if c = 0 then return (some [], [⟨addr, source⟩])
        else
          let (rest, reads) ← readNameLog current n (u32 (addr + 1))
          return (rest.map (c :: ·), ⟨addr, source⟩ :: reads)

theorem readName_eq (current : Fin 10) (n addr : Nat) :
    (readName current n addr : KM σ (Option (List UInt8))) =
      Prod.fst <$> readNameLog current n addr := by
  induction n generalizing addr with
  | zero => rw [readName, readNameLog, map_pure]
  | succ n ih =>
      rw [readName, readNameLog, map_bind]
      refine congrArg _ (funext fun k => ?_)
      dsimp only
      split
      · rw [map_pure]
      rw [map_bind]
      refine congrArg _ (funext fun v => ?_)
      split
      · rw [map_pure]
      · rw [ih, map_bind, bind_map_left]
        exact congrArg _ (funext fun r => (map_pure _ _).symm)

/-- The bytes read from `addr` on, at most `n`: one after the other, each in readable memory and
where the page tables of the process have it. -/
structure Reads (k : Kernel σ) (i : Fin 10) (n addr : Nat) (reads : List NameByte) : Prop where
  few : reads.length ≤ n
  addrs : reads.map NameByte.addr = List.range' addr reads.length
  readable : ∀ b ∈ reads, UserReadable k i b.addr
  source : ∀ b ∈ reads, b.source = p2v (resolvePhysicalAddress k.mem.ram (vmOf k i) b.addr)

theorem Reads.nil : Reads k i n addr [] := ⟨Nat.zero_le n, rfl, nofun, nofun⟩

theorem Reads.cons {reads : List NameByte} (h : Reads k i n (addr + 1) reads)
    (hr : UserReadable k i addr) :
    Reads k i (n + 1) addr
      (⟨addr, p2v (resolvePhysicalAddress k.mem.ram (vmOf k i) addr)⟩ :: reads) := by
  refine ⟨Nat.succ_le_succ h.few, ?_, ?_, ?_⟩
  · rw [List.map_cons, h.addrs, List.length_cons, List.range'_succ]
  · exact List.forall_mem_cons.mpr ⟨hr, h.readable⟩
  · exact List.forall_mem_cons.mpr ⟨rfl, h.source⟩

/-- What the walk from `addr` with `n` bytes of the buffer left reads and finds. -/
structure Scanned (k : Kernel σ) (i : Fin 10) (n addr : Nat)
    (r : Option (List UInt8) × List NameByte) : Prop where
  reads : Reads k i n addr r.2
  found : ∀ name, r.1 = some name ↔ NameAt k i n addr name

/-- The walk stops where no name can start. -/
theorem Scanned.none (h : ∀ name, ¬NameAt k i n addr name) : Scanned k i n addr (none, []) :=
  ⟨.nil, fun name => ⟨nofun, fun hn => absurd hn (h name)⟩⟩

/-- **The walk reads readable memory and finds the name there is**, and it changes nothing. -/
theorem wp_readNameLog (h : World L k sp) (hs : sp c = some s) :
    wp F (readNameLog c n addr) k fun r k' => k' = k ∧ Scanned k c n addr r := by
  have hslot := h.slot c s hs
  induction n generalizing addr with
  | zero => exact wp_pure ⟨rfl, .none fun name hn => absurd hn.fits (by omega)⟩
  | succ n ih =>
      refine wp_get_bind (wp_ite (fun hout => ?_) fun hin => ?_)
      · refine wp_pure ⟨rfl, .none fun name hn => ?_⟩
        rcases hn.start with hn | hn <;> omega
      have hr : UserReadable k c addr := by
        unfold UserReadable
        omega
      refine wp_bind (wp_deref hslot.fields.vm ?_)
      have hbyte : k.mem.ram (p2v (resolvePhysicalAddress k.mem.ram (k.processVm c) addr)) =
          byteAt k c addr := by rw [byteAt, hslot.vmOf]
      dsimp only
      rw [hbyte, ← hslot.vmOf]
      refine wp_ite (fun h₀ => ?_) fun h₀ => ?_
      · refine wp_pure ⟨rfl, Reads.nil.cons hr, fun name => ?_⟩
        rw [nameAt_of_nul hr h₀, Option.some.injEq, eq_comm]
      -- the heap ends below 1 MiB, so the next address does not wrap
      have hnext : u32 (addr + 1) = addr + 1 := by
        have hheap := hslot.fields.heapSize
        have hframes := hslot.fields.frames
        refine u32_of_lt ?_
        rcases hr with hr | hr <;> omega
      rw [hnext]
      refine wp_seq ih ?_
      rintro ⟨rest, reads⟩ _ ⟨rfl, hrest⟩
      refine wp_pure ⟨rfl, hrest.reads.cons hr, fun name => ?_⟩
      rw [nameAt_of_byte hr h₀, Option.map_eq_some_iff]
      simp only [hrest.found, eq_comm]

/-! ### The call -/

/-- What `syscall_exec` has done by the time it calls `proc_load_program` or gives up: the bytes it
read, and the process and the name of the call. -/
structure NameScan where
  reads : List NameByte
  load : Option (Fin 10 × List UInt8)

/-- `syscall_exec` up to the call of `proc_load_program`. -/
def scanUserName (userName : Nat) : KM σ NameScan := do
  if userName = 0 then return ⟨[], none⟩
  else
    let current ← deref (← get).currentProcess
    let (name, reads) ← readNameLog current 13 userName
    return ⟨reads, name.map (current, ·)⟩

/-- The scan of the process in `c` reads its memory, and calls for the name there is. -/
structure NameScan.Of (k : Kernel σ) (c : Fin 10) (userName : Nat) (scan : NameScan) : Prop where
  reads : Reads k c 13 userName scan.reads
  loads : ∀ p name, scan.load = some (p, name) ↔
    p = c ∧ userName ≠ 0 ∧ NameAt k c 13 userName name

/-- **The scan of `syscall_exec`.** -/
theorem wp_scanUserName (h : World L k sp) (hc : k.currentProcess = some c) (hs : sp c = some s) :
    wp F (scanUserName userName) k fun scan k' => k' = k ∧ scan.Of k c userName := by
  refine wp_ite (fun hnull => ?_) fun hnull => ?_
  · exact wp_pure ⟨rfl, .nil, fun p name => ⟨nofun, fun hn => absurd hnull hn.2.1⟩⟩
  refine wp_get_bind (wp_bind (wp_deref hc (wp_seq (wp_readNameLog h hs) ?_)))
  rintro ⟨found, reads⟩ _ ⟨rfl, hscan⟩
  refine wp_pure ⟨rfl, hscan.reads, fun p name => ?_⟩
  rw [← hscan.found, Option.map_eq_some_iff]
  constructor
  · rintro ⟨text, hfound, ⟨⟩⟩
    exact ⟨rfl, hnull, hfound⟩
  · rintro ⟨rfl, -, hfound⟩
    exact ⟨name, hfound, rfl⟩

variable [BlockDevice σ]

/-- `syscall_exec` from the call of `proc_load_program` on. -/
def execProgram (L : Layout) (current : Fin 10) (name : List UInt8) : KM σ Outcome := do
  let loaded ← procLoadProgram L (some current) name
  if loaded then
    procStart current
    return .resume
  else return .ret (-1)

/-- `syscall_exec` with its scan. -/
def syscallExecLog (L : Layout) (userName : Nat) : KM σ (Outcome × NameScan) := do
  let scan ← scanUserName userName
  match scan.load with
  | none => return (.ret (-1), scan)
  | some (current, name) => (·, scan) <$> execProgram L current name

/-- **`syscall_exec` is the run that also tells its scan.** -/
theorem syscallExec_eq (L : Layout) (userName : Nat) :
    (syscallExec L userName : KM σ Outcome) = Prod.fst <$> syscallExecLog L userName := by
  rw [syscallExec, syscallExecLog, scanUserName]
  split
  · rfl
  simp only [bind_assoc, pure_bind, map_bind, readName_eq, bind_map_left]
  refine congrArg _ (funext fun k => congrArg _ (funext fun current =>
    congrArg _ (funext fun r => ?_)))
  obtain ⟨_ | name, reads⟩ := r
  · rfl
  · simp [execProgram]

end Arunos
