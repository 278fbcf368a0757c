import Arunos.Memory.Space
import Arunos.Support.Fetch

/-!
# Machine — Startup — from reset to `c_entry`

`entry` of `startup.S` with the routines it calls, instruction by instruction, and the table of
`startup_pagedir.c`.  The code is linked above `KERNEL_BASE` and lies in memory `KERNEL_BASE` below
that.  It starts there with the MMU off, so every branch is relative and every other address is that
of the link.  The startup table has the first 32 MiB twice, at 0 and at `KERNEL_BASE`: the code goes
on where it is when the MMU is turned on, and `jump_to_high_mem` takes it up.  Interrupts are
enabled on the way, but no line has been enabled at the controller yet, and none is taken.

`startup_reaches_c_entry` says what comes of it, up to the tables that `vm_init` makes.
-/

namespace Arunos

/-! ### The code -/

/-- Where the linker puts the code and the data of the start, `KERNEL_BASE` less. -/
structure Symbols where
  entry : Nat
  enablePaging : Nat
  copyInterruptTable : Nat
  interruptTableStart : Nat
  useHighInterrupts : Nat
  enableInterrupts : Nat
  jumpToHighMem : Nat
  setDomainAccessControl : Nat
  setTranslationTableBase : Nat
  readControlRegister : Nat
  setControlRegister : Nat
  cEntry : Nat
  startupSectiontable : Nat
  kernelStackStart : Nat
  /-- The image lies between `start_address` and the stack, so that the code is not written to. -/
  text : ∀ a ∈ [entry, enablePaging, copyInterruptTable, useHighInterrupts, enableInterrupts,
    jumpToHighMem, setDomainAccessControl, setTranslationTableBase, readControlRegister,
    setControlRegister], 0x10000 ≤ a ∧ a + 40 + 4096 ≤ kernelStackStart
  table_low : 0x10000 ≤ startupSectiontable
  vectors_low : 0x10000 ≤ interruptTableStart
  table_end : startupSectiontable + 16384 + 4096 ≤ kernelStackStart
  vectors_end : interruptTableStart + 36 + 4096 ≤ kernelStackStart
  stack_end : kernelStackStart ≤ 0x2000000

/-- A branch at `here` to `there`. -/
def branch (there here : Nat) : Int := there - here

namespace Symbols

variable (y : Symbols)

/-- The routines with which the start is made. -/
def routines : List Nat :=
  [y.entry, y.enablePaging, y.copyInterruptTable, y.useHighInterrupts, y.enableInterrupts,
    y.jumpToHighMem, y.setDomainAccessControl, y.setTranslationTableBase, y.readControlRegister,
    y.setControlRegister]

theorem routine_end {a : Nat} (ha : a ∈ y.routines) : a + 40 ≤ 0x2000000 := by
  have := (y.text a ha).2
  have := y.stack_end
  omega

/-- `entry`. -/
def entryCode : List Instr :=
  [.loadConst 13 (0x80000000 + y.kernelStackStart),
   .bl (branch y.enablePaging (y.entry + 4)),
   .bl (branch y.copyInterruptTable (y.entry + 8)),
   .bl (branch y.useHighInterrupts (y.entry + 12)),
   .bl (branch y.enableInterrupts (y.entry + 16)),
   .bl (branch y.jumpToHighMem (y.entry + 20)),
   .bl (branch y.cEntry (y.entry + 24))]

/-- `enable_paging`. -/
def enablePagingCode : List Instr :=
  [.mov 2 14,
   .loadConst 0 1,
   .bl (branch y.setDomainAccessControl (y.enablePaging + 8)),
   .loadConst 0 (0x80000000 + y.startupSectiontable),
   .sub 0 0x80000000,
   .bl (branch y.setTranslationTableBase (y.enablePaging + 20)),
   .bl (branch y.readControlRegister (y.enablePaging + 24)),
   .orr 0 1,
   .bl (branch y.setControlRegister (y.enablePaging + 32)),
   .movPc 2]

/-- `copy_interrupt_table`, with `copy_loop_start` at the fourth instruction. -/
def copyInterruptTableCode : List Instr :=
  [.loadConst 0 0,
   .loadConst 1 (0x80000000 + y.interruptTableStart),
   .loadConst 3 (0x80000000 + y.interruptTableStart + 36),
   .ldr 2 1,
   .str 2 0,
   .add 0 4,
   .add 1 4,
   .cmp 1 3,
   .bne (branch (y.copyInterruptTable + 12) (y.copyInterruptTable + 32)),
   .movPc 14]

/-- `use_high_interrupts`. -/
def useHighInterruptsCode : List Instr :=
  [.push 14,
   .bl (branch y.readControlRegister (y.useHighInterrupts + 4)),
   .orr 0 0x2000,
   .bl (branch y.setControlRegister (y.useHighInterrupts + 12)),
   .pop 14,
   .movPc 14]

end Symbols

/-- `enable_interrupts`. -/
def enableInterruptsCode : List Instr := [.mrs 1, .bic 1 0x80, .msr 1, .movPc 14]

/-- `jump_to_high_mem`. -/
def jumpToHighMemCode : List Instr := [.add 14 0x80000000, .movPc 14]

/-- The image with its code in memory. -/
structure StartupImage extends Symbols where
  code : Nat → Option Instr
  entry_code : Resident code entry toSymbols.entryCode
  enablePaging_code : Resident code enablePaging toSymbols.enablePagingCode
  copyInterruptTable_code : Resident code copyInterruptTable toSymbols.copyInterruptTableCode
  useHighInterrupts_code : Resident code useHighInterrupts toSymbols.useHighInterruptsCode
  enableInterrupts_code : Resident code enableInterrupts enableInterruptsCode
  jumpToHighMem_code : Resident code jumpToHighMem jumpToHighMemCode
  setDomains_code : Resident code setDomainAccessControl [.setDomains 0, .movPc 14]
  setTableBase_code : Resident code setTranslationTableBase [.setTableBase 0, .movPc 14]
  readControl_code : Resident code readControlRegister [.readControl 0, .movPc 14]
  setControl_code : Resident code setControlRegister [.setControl 0, .movPc 14]

/-- `startup_sectiontable`. -/
def startupSectiontable (i : Nat) : Nat :=
  if i < 32 then 2 ||| (2 <<< 10) ||| (i <<< 20)
  else if 2048 ≤ i ∧ i < 2080 then 2 ||| (2 <<< 10) ||| ((i - 2048) <<< 20)
  else 0

/-! ### The startup table -/

/-- The table is in memory. -/
def HoldsTable (y : Symbols) (mem : Nat → Nat) : Prop :=
  ∀ i < 4096, mem (y.startupSectiontable + 4 * i) = startupSectiontable i

/-- The MMU is on with the startup table. -/
structure Paged (y : Symbols) (s : Core) : Prop where
  on : s.control % 2 = 1
  base : s.tableBase = y.startupSectiontable
  domains : s.domains = 1
  table : HoldsTable y s.mem

variable {y : Symbols} {s : Core}

theorem section_entry : ∀ i < 32, 2 ||| (2 <<< 10) ||| (i <<< 20) = 2050 + i * 2 ^ 20 := by decide

theorem Paged.translate_section (h : Paged y s) {j i : Nat} (hj : j < 4096) (hi : i < 32)
    (he : startupSectiontable j = 2 ||| (2 <<< 10) ||| (i <<< 20)) {o : Nat} (ho : o < 2 ^ 20) :
    s.translate (j * 2 ^ 20 + o) = some (i * 2 ^ 20 + o) := by
  have hdiv : (j * 2 ^ 20 + o) / 2 ^ 20 = j := by omega
  have hmod : (j * 2 ^ 20 + o) % 2 ^ 20 = o := by omega
  have hentry : s.mem (s.tableBase + 4 * ((j * 2 ^ 20 + o) / 2 ^ 20)) = 2050 + i * 2 ^ 20 := by
    rw [hdiv, h.base, h.table j hj, he, section_entry i hi]
  have hpermits : s.permits (2050 + i * 2 ^ 20) = true := by
    have h₁ : (2050 + i * 2 ^ 20) / 2 ^ 5 % 16 = 0 := by omega
    have h₂ : (2050 + i * 2 ^ 20) / 2 ^ 10 % 4 = 2 := by omega
    rw [Core.permits, h.domains, h₁, h₂]
    rfl
  rw [Core.translate, if_neg (by rw [h.on]; decide)]
  simp only [hentry, hpermits, hmod]
  rw [if_pos ⟨by omega, trivial⟩]
  exact congrArg some (by omega)

/-- Low addresses mean themselves. -/
theorem Paged.sees (h : Paged y s) : s.Sees 0x2000000 := by
  intro a ha
  have hi : a / 2 ^ 20 < 32 := by omega
  have := h.translate_section (j := a / 2 ^ 20) (by omega) hi (if_pos hi)
    (Nat.mod_lt a (Nat.two_pow_pos 20))
  rwa [show a / 2 ^ 20 * 2 ^ 20 + a % 2 ^ 20 = a by omega] at this

/-- High addresses mean the low ones. -/
theorem Paged.high (h : Paged y s) {a : Nat} (ha : a < 0x2000000) :
    s.translate (0x80000000 + a) = some a := by
  have hi : a / 2 ^ 20 < 32 := by omega
  have he : startupSectiontable (2048 + a / 2 ^ 20) =
      2 ||| (2 <<< 10) ||| ((a / 2 ^ 20) <<< 20) := by
    rw [startupSectiontable, if_neg (by omega), if_pos ⟨by omega, by omega⟩,
      Nat.add_sub_cancel_left]
  have := h.translate_section (j := 2048 + a / 2 ^ 20) (by omega) hi he
    (Nat.mod_lt a (Nat.two_pow_pos 20))
  rwa [show (2048 + a / 2 ^ 20) * 2 ^ 20 + a % 2 ^ 20 = 0x80000000 + a by omega,
    show a / 2 ^ 20 * 2 ^ 20 + a % 2 ^ 20 = a by omega] at this

/-- With the MMU off every address means itself. -/
theorem Core.sees_off (h : s.control % 2 = 0) (n : Nat) : s.Sees n := fun _ _ => if_pos h

/-! ### The routines -/

section Routines

variable (I : StartupImage)

theorem branch_eq (there here : Nat) : ((here : Int) + branch there here).toNat = there := by
  rw [branch]
  omega

/-- A call of one of the routines that set or read a control register. -/
theorem StartupImage.call {op : Instr} {p q : Nat} (hop : op.System = true) (hs : s.Sees 0x2000000)
    (ht : ((s.set 14 (p + 4)).effect op).Sees 0x2000000) (hpc : s.pc = p)
    (hcall : I.code p = some (.bl (branch q p))) (hplaced : Resident I.code q [op, .movPc 14])
    (hlink : ((s.set 14 (p + 4)).effect op).reg 14 = p + 4) (hp : p < 0x2000000)
    (hq : q + 40 ≤ 0x2000000) :
    Reaches I.code s { (s.set 14 (p + 4)).effect op with pc := p + 4 } :=
  .call hop hs ht hpc hcall (branch_eq q p) hplaced hlink hp (by omega)

/-- `enable_paging` turns the MMU on and returns. -/
theorem StartupImage.enablePaging_reaches (hoff : s.control % 2 = 0) (hpc : s.pc = I.enablePaging)
    (htable : HoldsTable I.toSymbols s.mem) :
    ∃ t, Reaches I.code s t ∧ t.pc = s.reg 14 ∧ t.reg 13 = s.reg 13 ∧
      t.control = s.control ||| 1 ∧ t.cpsr = s.cpsr ∧ t.mem = s.mem ∧ Paged I.toSymbols t := by
  have hep := I.routine_end (a := I.enablePaging) (by simp [Symbols.routines])
  have hend := I.table_end
  have htop := I.stack_end
  have hcode := I.enablePaging_code
  let s₁ : Core := ((s.effect (.mov 2 14)).next.effect (.loadConst 0 1)).next
  let s₂ : Core := { (s₁.set 14 (I.enablePaging + 12)).effect (.setDomains 0) with
    pc := I.enablePaging + 12 }
  let s₃ : Core := { s₂ with
    reg := Function.update s₂.reg 0 I.startupSectiontable
    pc := I.enablePaging + 20 }
  let s₄ : Core := { (s₃.set 14 (I.enablePaging + 24)).effect (.setTableBase 0) with
    pc := I.enablePaging + 24 }
  let s₅ : Core := { (s₄.set 14 (I.enablePaging + 28)).effect (.readControl 0) with
    pc := I.enablePaging + 28 }
  let s₆ : Core := (s₅.effect (.orr 0 1)).next
  let s₇ : Core := { (s₆.set 14 (I.enablePaging + 36)).effect (.setControl 0) with
    pc := I.enablePaging + 36 }
  -- up to the last call the MMU is off, and every address means itself
  have hs : ∀ t : Core, t.control = s.control → t.Sees 0x2000000 := fun t ht =>
    Core.sees_off (ht ▸ hoff) _
  have h₁ : Reaches I.code s s₁ := .block [.mov 2 14, .loadConst 0 1] (hs s rfl) hcode.left hpc
    (show I.enablePaging + 4 * 2 ≤ 0x2000000 by omega) (by decide)
  have hcode₂ := hcode.tail.tail
  have h₂ : Reaches I.code s₁ s₂ :=
    I.call (p := I.enablePaging + 8) rfl (hs s₁ rfl) (hs _ rfl) (congrArg (· + 4 + 4) hpc)
      hcode₂.head I.setDomains_code rfl (by omega) (I.routine_end (by simp [Symbols.routines]))
  have hcode₃ := hcode₂.tail
  have h₃ : Reaches I.code s₂ s₃ := by
    have hword : 0x80000000 + I.startupSectiontable < 2 ^ 32 := by omega
    have hblock : Reaches I.code s₂ _ :=
      .block [.loadConst 0 (0x80000000 + I.startupSectiontable), .sub 0 0x80000000] (hs s₂ rfl)
        hcode₃.left rfl (show I.enablePaging + 12 + 4 * 2 ≤ 0x2000000 by omega)
        (by simp [Instr.Straight])
    rwa [List.foldl_cons, List.foldl_cons, List.foldl_nil, Core.effect_load_sub 0 hword] at hblock
  have hcode₄ := hcode₃.tail.tail
  have h₄ : Reaches I.code s₃ s₄ :=
    I.call (p := I.enablePaging + 20) rfl (hs s₃ rfl) (hs _ rfl) rfl hcode₄.head
      I.setTableBase_code rfl (by omega) (I.routine_end (by simp [Symbols.routines]))
  have h₅ : Reaches I.code s₄ s₅ :=
    I.call (p := I.enablePaging + 24) rfl (hs s₄ rfl) (hs _ rfl) rfl hcode₄.tail.head
      I.readControl_code rfl (by omega) (I.routine_end (by simp [Symbols.routines]))
  have hcode₆ := hcode₄.tail.tail
  have h₆ : Reaches I.code s₅ s₆ := .block [.orr 0 1] (hs s₅ rfl) hcode₆.left rfl
    (show I.enablePaging + 28 + 4 * 1 ≤ 0x2000000 by omega) (by decide)
  have hpaged : Paged I.toSymbols s₇ := by
    have hon : (s.control ||| 1) % 2 = 1 := Nat.or_mod_two_eq_one.mpr (.inr rfl)
    exact ⟨hon, rfl, rfl, htable⟩
  have h₇ : Reaches I.code s₆ s₇ :=
    I.call (p := I.enablePaging + 32) rfl (hs s₆ rfl) hpaged.sees rfl hcode₆.tail.head
      I.setControl_code rfl (by omega) (I.routine_end (by simp [Symbols.routines]))
  have h₈ : Reaches I.code s₇ { s₇ with pc := s.reg 14 } :=
    .one (hpaged.sees _ (show I.enablePaging + 36 < 0x2000000 by omega)) hcode₆.tail.tail.head rfl
  have hall := h₁.trans (h₂.trans (h₃.trans (h₄.trans (h₅.trans (h₆.trans (h₇.trans h₈))))))
  exact ⟨_, hall, rfl, rfl, rfl, rfl, rfl, hpaged.on, hpaged.base, hpaged.domains, hpaged.table⟩

/-- The memory after `j` words of the interrupt table have been copied. -/
def copied (y : Symbols) (mem : Nat → Nat) (j : Nat) : Nat → Nat := fun a =>
  if a % 4 = 0 ∧ a < 4 * j then mem (y.interruptTableStart + a) else mem a

theorem copied_succ (y : Symbols) (mem : Nat → Nat) (j : Nat) :
    Function.update (copied y mem j) (4 * j) (mem (y.interruptTableStart + 4 * j)) =
      copied y mem (j + 1) := by
  funext a
  rw [Function.update_apply]
  unfold copied
  split
  next h => rw [h, if_pos (by omega)]
  next h => exact if_congr (by omega) rfl rfl

theorem HoldsTable.congr {mem mem' : Nat → Nat} (h : HoldsTable y mem)
    (heq : ∀ a, y.startupSectiontable ≤ a → a < y.startupSectiontable + 16384 → mem' a = mem a) :
    HoldsTable y mem' := fun i hi => (heq _ (by omega) (by omega)).trans (h i hi)

theorem HoldsTable.copied {mem : Nat → Nat} (h : HoldsTable y mem) {j : Nat} (hj : j ≤ 9) :
    HoldsTable y (copied y mem j) := by
  refine h.congr fun a ha _ => if_neg ?_
  have := y.table_low
  omega

/-- At `copy_loop_start`, with `j` words copied. -/
structure Copying (y : Symbols) (s t : Core) (j : Nat) : Prop where
  pc : t.pc = y.copyInterruptTable + 12
  target : t.reg 0 = 4 * j
  source : t.reg 1 = 0x80000000 + y.interruptTableStart + 4 * j
  stop : t.reg 3 = 0x80000000 + y.interruptTableStart + 36
  sp : t.reg 13 = s.reg 13
  link : t.reg 14 = s.reg 14
  system : (t.control, t.tableBase, t.domains, t.cpsr) =
    (s.control, s.tableBase, s.domains, s.cpsr)
  mem : t.mem = copied y s.mem j

theorem Paged.of_system (h : Paged y s) {t : Core}
    (he : (t.control, t.tableBase, t.domains, t.cpsr) =
      (s.control, s.tableBase, s.domains, s.cpsr)) (hm : HoldsTable y t.mem) : Paged y t := by
  simp only [Prod.mk.injEq] at he
  exact ⟨he.1 ▸ h.on, he.2.1.trans h.base, he.2.2.1.trans h.domains, hm⟩

/-- The table is not touched by the copy. -/
theorem Copying.paged {t : Core} {a j : Nat} (h : Copying y s { t with pc := a } j)
    (hs : Paged y s) (hj : j ≤ 9) : Paged y t :=
  hs.of_system h.system (h.mem ▸ hs.table.copied hj)

/-- One round of the loop, up to the branch. -/
theorem StartupImage.copy_round {t : Core} {j : Nat} (hs : Paged I.toSymbols s)
    (h : Copying I.toSymbols s t j) (hj : j < 9) :
    ∃ u, Reaches I.code t u ∧ u.pc = I.copyInterruptTable + 32 ∧ u.zero = decide (j + 1 = 9) ∧
      Copying I.toSymbols s { u with pc := I.copyInterruptTable + 12 } (j + 1) := by
  have hcp := I.routine_end (a := I.copyInterruptTable) (by simp [Symbols.routines])
  have hlow := I.vectors_low
  have hend := I.vectors_end
  have htop := I.stack_end
  have hcode := I.copyInterruptTable_code.tail.tail.tail
  have hpaged : Paged I.toSymbols t := Copying.paged (a := t.pc) h hs (by omega)
  -- the word is read at its high address and written at a low one
  have hread : t.translate (t.reg 1) = some (I.interruptTableStart + 4 * j) := by
    rw [h.source, Nat.add_assoc]
    exact hpaged.high (by omega)
  have hword : t.mem (I.interruptTableStart + 4 * j) = s.mem (I.interruptTableStart + 4 * j) := by
    rw [h.mem]
    exact if_neg (by omega)
  let t₁ : Core := (t.set 2 (s.mem (I.interruptTableStart + 4 * j))).next
  let t₂ : Core := { t₁ with mem := Function.update t.mem (4 * j) (t₁.reg 2) }.next
  let t₃ : Core := (((t₂.effect (.add 0 4)).next.effect (.add 1 4)).next.effect (.cmp 1 3)).next
  have h₁ : Reaches I.code t t₁ := by
    refine .one (hpaged.sees.fetch h.pc (by omega)) hcode.head ?_
    rw [Core.exec, hread, Option.bind_eq_bind, Option.bind_some, hword]
    rfl
  have hwrite : t₁.translate (t₁.reg 0) = some (4 * j) := by
    show t.translate (t.reg 0) = _
    rw [h.target]
    exact hpaged.sees _ (by omega)
  have h₂ : Reaches I.code t₁ t₂ := by
    have hpc : t₁.pc = I.copyInterruptTable + 12 + 4 := congrArg (· + 4) h.pc
    refine .one (hpaged.sees.fetch (s := t₁) hpc (by omega)) hcode.tail.head ?_
    rw [Core.exec, hwrite]
    rfl
  have hmem : t₂.mem = copied I.toSymbols s.mem (j + 1) := by
    show Function.update t.mem (4 * j) (s.mem (I.interruptTableStart + 4 * j)) = _
    rw [h.mem, copied_succ]
  have hpaged₂ : Paged I.toSymbols t₂ :=
    hs.of_system h.system (hmem ▸ hs.table.copied (by omega))
  have h₃ : Reaches I.code t₂ t₃ := .block [.add 0 4, .add 1 4, .cmp 1 3] hpaged₂.sees
    hcode.tail.tail.left
    (show t.pc + 4 + 4 = I.copyInterruptTable + 12 + 4 + 4 from congrArg (· + 4 + 4) h.pc)
    (show I.copyInterruptTable + 12 + 4 + 4 + 4 * 3 ≤ 0x2000000 by omega)
    (by decide)
  refine ⟨t₃, h₁.trans (h₂.trans h₃), ?_, ?_, ?_⟩
  · show t.pc + 4 + 4 + 4 + 4 + 4 = _
    rw [h.pc]
  · show decide (u32 (t.reg 1 + 4) = t.reg 3) = _
    rw [h.source, h.stop, u32_of_lt (by omega)]
    exact decide_eq_decide.mpr (by omega)
  · refine ⟨rfl, ?_, ?_, h.stop, h.sp, h.link, h.system, hmem⟩
    · show u32 (t.reg 0 + 4) = _
      rw [h.target, u32_of_lt (by omega)]
      omega
    · show u32 (t.reg 1 + 4) = _
      rw [h.source, u32_of_lt (by omega)]
      omega

/-- The rounds that are left. -/
theorem StartupImage.copy_loop {t : Core} {j : Nat} (hs : Paged I.toSymbols s)
    (h : Copying I.toSymbols s t j) (hj : j < 9) :
    ∃ u, Reaches I.code t u ∧ u.pc = I.copyInterruptTable + 36 ∧
      Copying I.toSymbols s { u with pc := I.copyInterruptTable + 12 } 9 := by
  have hcp := I.routine_end (a := I.copyInterruptTable) (by simp [Symbols.routines])
  have hbne := I.copyInterruptTable_code 8 (show 8 < 10 by decide)
  -- by induction on the number of words left after this one; the branch is taken back to the start
  -- of the loop as long as there are any
  induction hk : 8 - j generalizing t j with
  | zero =>
      obtain ⟨u, hu, hpc, hzero, hcopy⟩ := I.copy_round hs h hj
      obtain rfl : j = 8 := by omega
      have hpaged : Paged I.toSymbols u := hcopy.paged hs (by omega)
      refine ⟨u.next, hu.trans (.one (hpaged.sees.fetch hpc (by omega)) hbne ?_), ?_, hcopy⟩
      · show some (if u.zero = true then u.next else _) = _
        rw [hzero]
        rfl
      · exact congrArg (· + 4) hpc
  | succ k ih =>
      obtain ⟨u, hu, hpc, hzero, hcopy⟩ := I.copy_round hs h hj
      have hpaged : Paged I.toSymbols u := hcopy.paged hs (by omega)
      obtain ⟨v, hv, hdone⟩ := ih hcopy (by omega) (by omega)
      refine ⟨v, (hu.trans (.one (hpaged.sees.fetch hpc (by omega)) hbne ?_)).trans hv, hdone⟩
      have hback : ¬ u.zero = true := by
        rw [hzero, decide_eq_true_iff]
        omega
      show some (if u.zero = true then _ else u.jump _) = _
      rw [if_neg hback, Core.jump, hpc]
      exact congrArg (fun a => some { u with pc := a }) (branch_eq _ _)

/-- `copy_interrupt_table` copies the table to 0 and returns. -/
theorem StartupImage.copyInterruptTable_reaches (hs : Paged I.toSymbols s)
    (hpc : s.pc = I.copyInterruptTable) :
    ∃ t, Reaches I.code s t ∧ t.pc = s.reg 14 ∧ t.reg 13 = s.reg 13 ∧
      t.control = s.control ∧ t.cpsr = s.cpsr ∧ t.mem = copied I.toSymbols s.mem 9 ∧
      Paged I.toSymbols t := by
  have hcp := I.routine_end (a := I.copyInterruptTable) (by simp [Symbols.routines])
  let s₁ : Core := ([.loadConst 0 0, .loadConst 1 (0x80000000 + I.interruptTableStart),
    .loadConst 3 (0x80000000 + I.interruptTableStart + 36)] : List Instr).foldl
      (fun s i => (s.effect i).next) s
  have h₁ : Reaches I.code s s₁ := .block _ hs.sees I.copyInterruptTable_code.left hpc
    (show I.copyInterruptTable + 4 * 3 ≤ 0x2000000 by omega) (by simp [Instr.Straight])
  have hstart : Copying I.toSymbols s s₁ 0 :=
    ⟨congrArg (· + 4 + 4 + 4) hpc, rfl, rfl, rfl, rfl, rfl, rfl, by
      funext a
      exact (if_neg (by omega)).symm⟩
  obtain ⟨u, hu, hupc, hcopy⟩ := I.copy_loop hs hstart (by omega)
  have hpaged : Paged I.toSymbols u := hcopy.paged hs (by omega)
  have h₂ : Reaches I.code u { u with pc := u.reg 14 } :=
    .one (hpaged.sees.fetch hupc (by omega))
      (I.copyInterruptTable_code 9 (show 9 < 10 by decide)) rfl
  have hsystem := hcopy.system
  simp only [Prod.mk.injEq] at hsystem
  exact ⟨_, h₁.trans (hu.trans h₂), hcopy.link, hcopy.sp, hsystem.1, hsystem.2.2.2, hcopy.mem,
    hpaged.on, hpaged.base, hpaged.domains, hpaged.table⟩

/-- Where `use_high_interrupts` keeps its return address. -/
theorem HoldsTable.push {mem : Nat → Nat} (h : HoldsTable y mem) (v : Nat) :
    HoldsTable y (Function.update mem (y.kernelStackStart - 4) v) := by
  refine h.congr fun a _ ha => Function.update_of_ne ?_ _ _
  have := y.table_end
  omega

/-- `use_high_interrupts` sets the bit and returns; its return address is on the stack. -/
theorem StartupImage.useHighInterrupts_reaches (hs : Paged I.toSymbols s)
    (hpc : s.pc = I.useHighInterrupts) (hsp : s.reg 13 = 0x80000000 + I.kernelStackStart) :
    ∃ t, Reaches I.code s t ∧ t.pc = s.reg 14 ∧ t.reg 13 = s.reg 13 ∧
      t.control = s.control ||| 0x2000 ∧ t.cpsr = s.cpsr ∧
      t.mem = Function.update s.mem (I.kernelStackStart - 4) (s.reg 14) ∧
      Paged I.toSymbols t := by
  have huh := I.routine_end (a := I.useHighInterrupts) (by simp [Symbols.routines])
  have hend := I.vectors_end
  have htop := I.stack_end
  have hcode := I.useHighInterrupts_code
  let s₁ : Core := { s.set 13 (s.reg 13 - 4) with
    mem := Function.update s.mem (I.kernelStackStart - 4) (s.reg 14) }.next
  let s₂ : Core := { (s₁.set 14 (I.useHighInterrupts + 8)).effect (.readControl 0) with
    pc := I.useHighInterrupts + 8 }
  let s₃ : Core := (s₂.effect (.orr 0 0x2000)).next
  let s₄ : Core := { (s₃.set 14 (I.useHighInterrupts + 16)).effect (.setControl 0) with
    pc := I.useHighInterrupts + 16 }
  let s₅ : Core := ((s₄.set 13 (s.reg 13)).set 14 (s.reg 14)).next
  have hpush : sub32 (s.reg 13) 4 = s.reg 13 - 4 := sub32_of_le (by omega) (by omega)
  have hpop : u32 (s.reg 13 - 4 + 4) = s.reg 13 := by
    rw [Nat.sub_add_cancel (by omega), u32_of_lt (by omega)]
  -- the slot below the top of the stack, at its high address
  have hslot : ∀ {t : Core}, Paged I.toSymbols t →
      t.translate (s.reg 13 - 4) = some (I.kernelStackStart - 4) := by
    intro t ht
    rw [hsp, Nat.add_sub_assoc (by omega)]
    exact ht.high (by omega)
  have hpaged₁ : Paged I.toSymbols s₁ := ⟨hs.on, hs.base, hs.domains, hs.table.push _⟩
  have hpaged₂ : Paged I.toSymbols s₂ := ⟨hs.on, hs.base, hs.domains, hs.table.push _⟩
  have hpaged₃ : Paged I.toSymbols s₃ := ⟨hs.on, hs.base, hs.domains, hs.table.push _⟩
  have hpaged₄ : Paged I.toSymbols s₄ := by
    have hon : (s.control ||| 0x2000) % 2 = 1 := Nat.or_mod_two_eq_one.mpr (.inl hs.on)
    exact ⟨hon, hs.base, hs.domains, hs.table.push _⟩
  have hpaged₅ : Paged I.toSymbols s₅ :=
    ⟨hpaged₄.on, hpaged₄.base, hpaged₄.domains, hpaged₄.table⟩
  have h₁ : Reaches I.code s s₁ := by
    refine .one (hs.sees.fetch hpc (by omega)) hcode.head ?_
    rw [Core.exec, hpush, hslot hs]
    rfl
  have h₂ : Reaches I.code s₁ s₂ :=
    I.call (p := I.useHighInterrupts + 4) rfl hpaged₁.sees hpaged₂.sees (congrArg (· + 4) hpc)
      hcode.tail.head I.readControl_code rfl (by omega)
      (I.routine_end (by simp [Symbols.routines]))
  have h₃ : Reaches I.code s₂ s₃ := .block [.orr 0 0x2000] hpaged₂.sees hcode.tail.tail.left rfl
    (show I.useHighInterrupts + 8 + 4 * 1 ≤ 0x2000000 by omega) (by decide)
  have hcode₄ := hcode.tail.tail.tail
  have h₄ : Reaches I.code s₃ s₄ :=
    I.call (p := I.useHighInterrupts + 12) rfl hpaged₃.sees hpaged₄.sees rfl hcode₄.head
      I.setControl_code rfl (by omega) (I.routine_end (by simp [Symbols.routines]))
  have h₅ : Reaches I.code s₄ s₅ := by
    refine .one (hpaged₄.sees.fetch rfl (show I.useHighInterrupts + 16 < 0x2000000 by omega))
      hcode₄.tail.head ?_
    have hread : s₄.translate (s₄.reg 13) = some (I.kernelStackStart - 4) := hslot hpaged₄
    have hword : s₄.mem (I.kernelStackStart - 4) = s.reg 14 := Function.update_self ..
    have hsp₄ : s₄.reg 13 = s.reg 13 - 4 := rfl
    rw [Core.exec, hread, Option.bind_eq_bind, Option.bind_some, hword, hsp₄, hpop]
    rfl
  have h₆ : Reaches I.code s₅ { s₅ with pc := s.reg 14 } :=
    .one (hpaged₅.sees.fetch rfl (show I.useHighInterrupts + 20 < 0x2000000 by omega))
      hcode₄.tail.tail.head rfl
  exact ⟨_, h₁.trans (h₂.trans (h₃.trans (h₄.trans (h₅.trans h₆)))), rfl, rfl, rfl, rfl, rfl,
    hpaged₅.on, hpaged₅.base, hpaged₅.domains, hpaged₅.table⟩

/-- Bit 7 is taken off. -/
theorem clear_irq (n : Nat) :
    n / 256 * 256 + (n - (n &&& 0x80)) % 256 = n - n / 128 % 2 * 128 := by
  have hbit : n &&& 0x80 = n / 128 % 2 * 128 := by
    rw [show 0x80 = 2 ^ 7 from rfl, Nat.and_two_pow, Nat.toNat_testBit]
  rw [hbit]
  omega

/-- `enable_interrupts` clears the IRQ bit and returns. -/
theorem StartupImage.enableInterrupts_reaches (hs : Paged I.toSymbols s)
    (hpc : s.pc = I.enableInterrupts) :
    ∃ t, Reaches I.code s t ∧ t.pc = s.reg 14 ∧ t.reg 13 = s.reg 13 ∧
      t.control = s.control ∧ t.cpsr = s.cpsr - s.cpsr / 128 % 2 * 128 ∧ t.mem = s.mem ∧
      Paged I.toSymbols t := by
  have hei := I.routine_end (a := I.enableInterrupts) (by simp [Symbols.routines])
  let s₁ : Core := (((s.effect (.mrs 1)).next.effect (.bic 1 0x80)).next.effect (.msr 1)).next
  have h₁ : Reaches I.code s s₁ := .block [.mrs 1, .bic 1 0x80, .msr 1] hs.sees
    I.enableInterrupts_code.left hpc (show I.enableInterrupts + 4 * 3 ≤ 0x2000000 by omega)
    (by decide)
  have hpaged : Paged I.toSymbols s₁ := ⟨hs.on, hs.base, hs.domains, hs.table⟩
  have hpc₁ : s₁.pc = I.enableInterrupts + 12 := congrArg (· + 4 + 4 + 4) hpc
  have h₂ : Reaches I.code s₁ { s₁ with pc := s.reg 14 } :=
    .one (hpaged.sees.fetch hpc₁ (by omega)) I.enableInterrupts_code.tail.tail.tail.head rfl
  exact ⟨_, h₁.trans h₂, rfl, rfl, rfl, clear_irq s.cpsr, rfl, hs.on, hs.base, hs.domains,
    hs.table⟩

/-- `jump_to_high_mem` returns `KERNEL_BASE` higher. -/
theorem StartupImage.jumpToHighMem_reaches (hs : Paged I.toSymbols s)
    (hpc : s.pc = I.jumpToHighMem) :
    ∃ t, Reaches I.code s t ∧ t.pc = u32 (s.reg 14 + 0x80000000) ∧ t.reg 13 = s.reg 13 ∧
      t.control = s.control ∧ t.cpsr = s.cpsr ∧ t.mem = s.mem ∧ Paged I.toSymbols t := by
  have hjh := I.routine_end (a := I.jumpToHighMem) (by simp [Symbols.routines])
  let s₁ : Core := (s.effect (.add 14 0x80000000)).next
  have h₁ : Reaches I.code s s₁ := .block [.add 14 0x80000000] hs.sees I.jumpToHighMem_code.left
    hpc (show I.jumpToHighMem + 4 * 1 ≤ 0x2000000 by omega) (by decide)
  have hpaged : Paged I.toSymbols s₁ := ⟨hs.on, hs.base, hs.domains, hs.table⟩
  have h₂ : Reaches I.code s₁ { s₁ with pc := s₁.reg 14 } :=
    .one (hpaged.sees.fetch (congrArg (· + 4) hpc) (by omega)) I.jumpToHighMem_code.tail.head rfl
  have hlink : s₁.reg 14 = u32 (s.reg 14 + 0x80000000) := by
    simp only [s₁, Core.effect, Core.set, Core.next, Function.update_self]
  exact ⟨_, h₁.trans h₂, hlink, rfl, rfl, rfl, rfl, hs.on, hs.base, hs.domains, hs.table⟩

end Routines

/-! ### The table of `vm_init` -/

/-- What one of the mappings maps, the list maps. -/
theorem foldl_extend_covered {mappings : List MemoryMapping} {D : Nat → Option PageTableEntry}
    {page : Nat} (h : D page ≠ none ∨ ∃ mapping ∈ mappings, mapping.virtualAddress / 4096 ≤ page ∧
      page < mapping.virtualAddress / 4096 + mapping.count) :
    mappings.foldl (fun D mapping => mapping.extend D) D page ≠ none := by
  induction mappings generalizing D with
  | nil =>
      rcases h with h | ⟨mapping, hm, -⟩
      · exact h
      · cases hm
  | cons mapping mappings ih =>
      refine ih ?_
      rcases h with h | ⟨mp, hmp, hcov⟩
      · refine .inl ?_
        simp only [MemoryMapping.extend, mapped]
        split
        next => exact Option.some_ne_none _
        next => exact h
      · rcases List.mem_cons.mp hmp with rfl | hmp
        · refine .inl ?_
          simp only [MemoryMapping.extend, mapped]
          rw [if_pos hcov]
          exact Option.some_ne_none _
        · exact .inr ⟨mp, hmp, hcov⟩

/-- A page to which all the mappings that have it give one frame. -/
theorem kernelMap_frame {L : Layout} {page frame : Nat}
    (hcov : ∃ mapping ∈ kernelMappings L, mapping.virtualAddress / 4096 ≤ page ∧
      page < mapping.virtualAddress / 4096 + mapping.count)
    (hframe : ∀ mapping ∈ kernelMappings L, mapping.virtualAddress / 4096 ≤ page →
      page < mapping.virtualAddress / 4096 + mapping.count →
      mapping.physicalStart / 4096 + (page - mapping.virtualAddress / 4096) = frame) :
    ∃ e, kernelMap L page = some e ∧ e.baseAddress = frame := by
  obtain ⟨e, he⟩ := Option.ne_none_iff_exists'.mp (foldl_extend_covered (D := fun _ => none)
    (.inr hcov))
  refine ⟨e, he, ?_⟩
  rcases foldl_extend_some he with h | ⟨mapping, hm, hlo, hhi, rfl⟩
  · cases h
  · exact hframe mapping hm hlo hhi

/-- The pages of the image are the first ones of memory. -/
theorem kernelMap_image (L : Layout) {a : Nat} (hlo : 0x80000000 ≤ a) (hhi : a < L.kernelEnd) :
    ∃ e, kernelMap L (a / 4096) = some e ∧ e.baseAddress = (a - 0x80000000) / 4096 := by
  have h₁ := L.base_le
  have h₂ := L.fits
  have hend : v2p L.kernelEnd = L.kernelEnd - 0x80000000 := v2p_eq h₁ (by omega)
  have hstart : v2p (L.kernelEnd + 0x200000) = L.kernelEnd + 0x200000 - 0x80000000 :=
    v2p_eq (by omega) (by omega)
  refine kernelMap_frame ⟨_, List.mem_cons_self, ?_⟩ ?_
  · simp only [MemoryMapping.count]
    omega
  · refine forall_kernelMappings ?_ ?_ ?_ ?_ ?_ ?_
    all_goals simp only [MemoryMapping.count, Layout.allocatableStart]
    all_goals intro hl hh
    all_goals omega

/-- The page of the high vectors is the first one of memory. -/
theorem kernelMap_vectors (L : Layout) :
    ∃ e, kernelMap L 0xffff0 = some e ∧ e.baseAddress = 0 := by
  have h₁ := L.base_le
  have h₂ := L.fits
  have hend : v2p L.kernelEnd = L.kernelEnd - 0x80000000 := v2p_eq h₁ (by omega)
  have hstart : v2p (L.kernelEnd + 0x200000) = L.kernelEnd + 0x200000 - 0x80000000 :=
    v2p_eq (by omega) (by omega)
  refine kernelMap_frame ⟨⟨0xffff0000, 0, 0x1000, AP_RW_D⟩, by simp [kernelMappings], ?_⟩ ?_
  · simp only [MemoryMapping.count]
    omega
  · refine forall_kernelMappings ?_ ?_ ?_ ?_ ?_ ?_
    all_goals simp only [MemoryMapping.count, Layout.allocatableStart]
    all_goals intro hl hh
    all_goals first | omega | exact trivial

/-! ### From reset to `c_entry` -/

/-- The processor at `c_entry`, started from `s`. -/
structure AtCEntry (I : StartupImage) (s t : Core) : Prop where
  pc : t.pc = 0x80000000 + I.cEntry
  sp : t.reg 13 = 0x80000000 + I.kernelStackStart
  control : t.control = s.control ||| 1 ||| 0x2000
  interrupts : t.cpsr = s.cpsr - s.cpsr / 128 % 2 * 128
  vectors : ∀ i < 9, t.mem (4 * i) = s.mem (I.interruptTableStart + 4 * i)
  /-- Nothing else is written but the stack. -/
  others : ∀ a, 36 ≤ a → a ≠ I.kernelStackStart - 4 → t.mem a = s.mem a
  paged : Paged I.toSymbols t

variable (I : StartupImage)

/-- A call of a routine. -/
theorem StartupImage.enter {p q : Nat} (hs : s.Sees 0x2000000) (hpc : s.pc = p)
    (hcall : I.code p = some (.bl (branch q p))) (hp : p < 0x2000000) :
    Reaches I.code s { s.set 14 (p + 4) with pc := q } := by
  have hq : (s.pc + branch q p).toNat = q := by
    rw [hpc]
    exact branch_eq q p
  have := Reaches.bl (hs.fetch hpc hp) hcall hq
  rwa [hpc] at this

theorem Paged.enter (h : Paged y s) (a q : Nat) : Paged y { s.set 14 a with pc := q } :=
  ⟨h.on, h.base, h.domains, h.table⟩

/-- `entry` gets to `c_entry`. -/
theorem StartupImage.entry_reaches (hoff : s.control % 2 = 0) (hpc : s.pc = I.entry)
    (htable : HoldsTable I.toSymbols s.mem) : ∃ t, Reaches I.code s t ∧ AtCEntry I s t := by
  have hen := I.routine_end (a := I.entry) (by simp [Symbols.routines])
  have hcode := I.entry_code
  let s₁ : Core := (s.effect (.loadConst 13 (0x80000000 + I.kernelStackStart))).next
  have h₁ : Reaches I.code s s₁ := .block [.loadConst 13 (0x80000000 + I.kernelStackStart)]
    (Core.sees_off hoff _) hcode.left hpc (show I.entry + 4 * 1 ≤ 0x2000000 by omega)
    (by simp [Instr.Straight])
  have c₁ := I.enter (s := s₁) (p := I.entry + 4) (Core.sees_off hoff _) (congrArg (· + 4) hpc)
    hcode.tail.head (by omega)
  obtain ⟨t₁, r₁, hpc₁, hsp₁, hcontrol₁, hcpsr₁, hmem₁, hp₁⟩ :=
    I.enablePaging_reaches (s := { s₁.set 14 (I.entry + 8) with pc := I.enablePaging })
      hoff rfl htable
  have hcode₂ := hcode.tail.tail
  have c₂ := I.enter (p := I.entry + 8) hp₁.sees hpc₁ hcode₂.head (by omega)
  obtain ⟨t₂, r₂, hpc₂, hsp₂, hcontrol₂, hcpsr₂, hmem₂, hp₂⟩ :=
    I.copyInterruptTable_reaches (hp₁.enter (I.entry + 12) I.copyInterruptTable) rfl
  have c₃ := I.enter (p := I.entry + 12) hp₂.sees hpc₂ hcode₂.tail.head (by omega)
  obtain ⟨t₃, r₃, hpc₃, hsp₃, hcontrol₃, hcpsr₃, hmem₃, hp₃⟩ :=
    I.useHighInterrupts_reaches (hp₂.enter (I.entry + 16) I.useHighInterrupts) rfl
      (hsp₂.trans hsp₁)
  have c₄ := I.enter (p := I.entry + 16) hp₃.sees hpc₃ hcode₂.tail.tail.head (by omega)
  obtain ⟨t₄, r₄, hpc₄, hsp₄, hcontrol₄, hcpsr₄, hmem₄, hp₄⟩ :=
    I.enableInterrupts_reaches (hp₃.enter (I.entry + 20) I.enableInterrupts) rfl
  have hcode₅ := hcode₂.tail.tail.tail
  have c₅ := I.enter (p := I.entry + 20) hp₄.sees hpc₄ hcode₅.head (by omega)
  obtain ⟨t₅, r₅, hpc₅, hsp₅, hcontrol₅, hcpsr₅, hmem₅, hp₅⟩ :=
    I.jumpToHighMem_reaches (hp₄.enter (I.entry + 24) I.jumpToHighMem) rfl
  -- the last call is fetched above `KERNEL_BASE`, and its relative branch stays there
  have hword : u32 (I.entry + 24 + 0x80000000) = 0x80000000 + (I.entry + 24) := by
    rw [u32_of_lt (by omega), Nat.add_comm]
  have hhigh : t₅.pc = 0x80000000 + (I.entry + 24) := hpc₅.trans hword
  have c₆ : Reaches I.code t₅ { t₅.set 14 (t₅.pc + 4) with pc := 0x80000000 + I.cEntry } := by
    refine Reaches.bl ?_ hcode₅.tail.head ?_
    · rw [hhigh]
      exact hp₅.high (by omega)
    · rw [hhigh, branch]
      omega
  have hall := h₁.trans (c₁.trans (r₁.trans (c₂.trans (r₂.trans (c₃.trans (r₃.trans
    (c₄.trans (r₄.trans (c₅.trans (r₅.trans c₆))))))))))
  have hmem : t₅.mem = Function.update (copied I.toSymbols s.mem 9) (I.kernelStackStart - 4)
      (I.entry + 16) := by
    have hcopy : t₂.mem = copied I.toSymbols s.mem 9 :=
      hmem₂.trans (congrArg (copied I.toSymbols · 9) hmem₁)
    exact hmem₅.trans (hmem₄.trans (hmem₃.trans (congrArg (Function.update · _ _) hcopy)))
  have hvectors := I.vectors_end
  have hlow := I.vectors_low
  refine ⟨_, hall, rfl, ?_, ?_, ?_, ?_, ?_, ⟨hp₅.on, hp₅.base, hp₅.domains, hp₅.table⟩⟩
  · exact hsp₅.trans (hsp₄.trans (hsp₃.trans (hsp₂.trans hsp₁)))
  · exact hcontrol₅.trans (hcontrol₄.trans (hcontrol₃.trans
      (congrArg (· ||| 0x2000) (hcontrol₂.trans hcontrol₁))))
  · have hcpsr : t₃.cpsr = s.cpsr := hcpsr₃.trans (hcpsr₂.trans hcpsr₁)
    exact hcpsr₅.trans (hcpsr₄.trans (congrArg (fun n => n - n / 128 % 2 * 128) hcpsr))
  · intro i hi
    show t₅.mem (4 * i) = _
    rw [hmem, Function.update_of_ne (by omega), copied, if_pos (by omega)]
  · intro a ha hne
    show t₅.mem a = _
    rw [hmem, Function.update_of_ne hne, copied, if_neg (by omega)]

/-- **The start.**  From reset, with the MMU off and the image loaded at `start_address`, the code
of `startup.S` takes no fault and gets to `c_entry`, now above `KERNEL_BASE`: on the kernel's
stack, with the MMU and the high vectors on and interrupts enabled.  The interrupt table is at 0,
where the table of `vm_init` has the page of the high vectors; other memory is as it was.  The
address of every byte of the kernel means the same under the table of `vm_init` as it does now, so
that `vm_init` goes on when it changes to its table. -/
theorem startup_reaches_c_entry (hoff : s.control % 2 = 0) (hpc : s.pc = I.entry)
    (htable : HoldsTable I.toSymbols s.mem) :
    ∃ t, Reaches I.code s t ∧ AtCEntry I s t ∧
      (∀ (L : Layout) (a : Nat), 0x80000000 ≤ a → a < L.kernelEnd → ∃ e,
        kernelMap L (a / 4096) = some e ∧
        t.translate a = some (e.baseAddress * 4096 + a % 4096)) ∧
      ∀ L : Layout, ∃ e, kernelMap L 0xffff0 = some e ∧ ∀ i < 9,
        t.mem (e.baseAddress * 4096 + 4 * i) = s.mem (I.interruptTableStart + 4 * i) := by
  obtain ⟨t, hreach, hentry⟩ := I.entry_reaches hoff hpc htable
  refine ⟨t, hreach, hentry, ?_, ?_⟩
  · intro L a hlo hhi
    obtain ⟨e, he, hframe⟩ := kernelMap_image L hlo hhi
    have hfits := L.fits
    have hhigh := hentry.paged.high (a := a - 0x80000000) (by omega)
    rw [Nat.add_sub_cancel' hlo] at hhigh
    refine ⟨e, he, hhigh.trans (congrArg some ?_)⟩
    rw [hframe]
    omega
  · intro L
    obtain ⟨e, he, hframe⟩ := kernelMap_vectors L
    refine ⟨e, he, fun i hi => ?_⟩
    rw [hframe, Nat.zero_mul, Nat.zero_add]
    exact hentry.vectors i hi

/-! An image with 256 bytes for each routine. -/

def spacedSymbols : Symbols where
  entry := 0x10000
  enablePaging := 0x10100
  copyInterruptTable := 0x10200
  useHighInterrupts := 0x10300
  enableInterrupts := 0x10400
  jumpToHighMem := 0x10500
  setDomainAccessControl := 0x10600
  setTranslationTableBase := 0x10700
  readControlRegister := 0x10800
  setControlRegister := 0x10900
  interruptTableStart := 0x10a00
  cEntry := 0x10b00
  startupSectiontable := 0x14000
  kernelStackStart := 0x19000
  text := by decide
  table_low := by decide
  vectors_low := by decide
  table_end := by decide
  vectors_end := by decide
  stack_end := by decide

def spacedCode (blocks : List (List Instr)) (a : Nat) : Option Instr := do
  let block ← blocks[(a - 0x10000) / 256]?
  block[(a - 0x10000) % 256 / 4]?

theorem resident_spacedCode {blocks : List (List Instr)} {block : List Instr} (k : Nat)
    (h : blocks[k]? = some block) (hlen : block.length ≤ 64) :
    Resident (spacedCode blocks) (0x10000 + 256 * k) block := by
  intro j hj
  have hk : (0x10000 + 256 * k + 4 * j - 0x10000) / 256 = k := by omega
  have hword : (0x10000 + 256 * k + 4 * j - 0x10000) % 256 / 4 = j := by omega
  rw [spacedCode, hk, hword, h, Option.bind_eq_bind, Option.bind_some,
    List.getElem?_eq_getElem hj]

/-- The blocks of `spacedImage`, one each 256 bytes. -/
def spacedBlocks : List (List Instr) :=
  [spacedSymbols.entryCode, spacedSymbols.enablePagingCode, spacedSymbols.copyInterruptTableCode,
   spacedSymbols.useHighInterruptsCode, enableInterruptsCode, jumpToHighMemCode,
   [.setDomains 0, .movPc 14], [.setTableBase 0, .movPc 14], [.readControl 0, .movPc 14],
   [.setControl 0, .movPc 14]]

/-- An image of the start-up code. -/
def spacedImage : StartupImage where
  toSymbols := spacedSymbols
  code := spacedCode spacedBlocks
  entry_code := resident_spacedCode 0 rfl (by decide)
  enablePaging_code := resident_spacedCode 1 rfl (by decide)
  copyInterruptTable_code := resident_spacedCode 2 rfl (by decide)
  useHighInterrupts_code := resident_spacedCode 3 rfl (by decide)
  enableInterrupts_code := resident_spacedCode 4 rfl (by decide)
  jumpToHighMem_code := resident_spacedCode 5 rfl (by decide)
  setDomains_code := resident_spacedCode 6 rfl (by decide)
  setTableBase_code := resident_spacedCode 7 rfl (by decide)
  readControl_code := resident_spacedCode 8 rfl (by decide)
  setControl_code := resident_spacedCode 9 rfl (by decide)

/-- The processor at reset, in supervisor mode with interrupts off. -/
def resetCore : Core where
  reg := fun _ => 0
  pc := 0x10000
  zero := false
  cpsr := 0xd3
  control := 0
  tableBase := 0
  domains := 0
  mem := fun a => if 0x14000 ≤ a ∧ a < 0x18000 then startupSectiontable ((a - 0x14000) / 4) else 0

theorem resetCore_table : HoldsTable spacedImage.toSymbols resetCore.mem := by
  intro i hi
  show (if 0x14000 ≤ 0x14000 + 4 * i ∧ 0x14000 + 4 * i < 0x18000 then _ else 0) = _
  rw [if_pos (by omega)]
  exact congrArg startupSectiontable (show (0x14000 + 4 * i - 0x14000) / 4 = i by omega)

/-- From reset the code of `spacedImage` comes to `c_entry`, with paging, the high vectors and
interrupts on. -/
theorem startup_reaches_c_entry_spaced :
    ∃ t, Reaches spacedImage.code resetCore t ∧ t.pc = 0x80010b00 ∧ t.reg 13 = 0x80019000 ∧
      t.control = 0x2001 ∧ t.cpsr = 0x53 := by
  obtain ⟨t, hreach, hentry, -, -⟩ :=
    startup_reaches_c_entry spacedImage (s := resetCore) rfl rfl resetCore_table
  exact ⟨t, hreach, hentry.pc, hentry.sp, hentry.control, hentry.interrupts⟩

end Arunos
