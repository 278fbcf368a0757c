import Arunos.Machine.Step
import Arunos.Support.Arm

/-!
# Machine — Entry — the assembly of kernel entry and exit

`syscall_entry` and `irq_entry` of `startup.S`, the macro `SAVE_CONTEXT` with `save_context_1` and
`save_context_2`, and `switch_to_context`, instruction by instruction.  Both routines push every
register, call `get_current_context`, and store to the context it returns: the first one the status,
the return address, which the macro passes in `r0`, and `r1`–`r14` of the user bank; the second one
`r0`, which the first call had to give away.

`wp_saveContextCode` says what comes of it: the registers are as before, and the 17 words of the
context hold the user's registers, in the order of `enum ContextItem`.  `wp_switchToContextCode` is
the way back.  Memory below the stack pointer, down to the end of the stack's 4 KiB, belongs to
nobody in all of this (`Keeps`).
-/

namespace Arunos

/-! ### The code -/

/-- The calls in the entry code. -/
inductive CallSite where
  | save1
  | save2
  | context1
  | context2

/-- Where the linker puts things: `current_process` and the process table among the variables, the
two stacks of 4 KiB after them, and the instructions behind the calls. -/
structure EntryImage where
  currentProcess : Nat
  processTable : Nat
  kernelStackStart : Nat
  irqStackStart : Nat
  site : CallSite → Nat
  table_pos : 0 < processTable
  table_end : processTable + 1040 + 4096 ≤ kernelStackStart
  current_end : currentProcess + 4 + 4096 ≤ kernelStackStart
  current_apart : currentProcess + 4 ≤ processTable ∨ processTable + 1040 ≤ currentProcess
  irq_start : irqStackStart = kernelStackStart + 4096

/-- What `get_current_context` returns: `context` is at 28 in `struct Process`. -/
def EntryImage.currentContext (E : EntryImage) (mem : Nat → Nat) : Nat :=
  if mem E.currentProcess = NULL then NULL else mem E.currentProcess + 28

section Code

variable (E : EntryImage) (getCurrentContext : ArmM Unit)

/-- `save_context_return`. -/
def saveContextReturn : ArmM Unit := do
  pop (regs 0 12 ++ [14])
  movPc 14

/-- `save_context_1`. -/
def saveContext1 : ArmM Unit := do
  push (regs 0 12 ++ [14])
  -- the return address of the process is passed in r0
  mov 14 0
  push (regs 1 12 ++ [14])
  bl (E.site .context1) getCurrentContext
  pop (regs 1 12 ++ [14])
  cmp 0 0
  if (← get).zero then saveContextReturn
  else
    push [1]
    mrs 1
    str 1 0
    pop [1]
    add 0 4
    str 14 0
    add 0 8
    stmiaUser 0 (regs 1 14)
    saveContextReturn

/-- `save_context_2`. -/
def saveContext2 : ArmM Unit := do
  push (regs 0 12 ++ [14])
  mov 1 0
  push (regs 1 12 ++ [14])
  bl (E.site .context2) getCurrentContext
  pop (regs 1 12 ++ [14])
  cmp 0 0
  if (← get).zero then saveContextReturn
  else
    add 0 8
    str 1 0
    saveContextReturn

/-- `SAVE_CONTEXT`. -/
def saveContextCode : ArmM Unit := do
  push [0, 14]
  mov 0 14
  bl (E.site .save1) (saveContext1 E getCurrentContext)
  pop [0, 14]
  push [14]
  bl (E.site .save2) (saveContext2 E getCurrentContext)
  pop [14]

/-- `syscall_entry`, up to the call of `handle_syscall`. -/
def syscallEntry : ArmM Unit := do
  ldr 13 E.kernelStackStart
  saveContextCode E getCurrentContext
  push (regs 1 12 ++ [14])

/-- `syscall_entry`, after the call of `handle_syscall`. -/
def syscallReturn : ArmM Unit := popPc (regs 1 12)

/-- `irq_entry`, up to the call of `dispatch_interrupts`. -/
def interruptEntry : ArmM Unit := do
  sub 14 4
  ldr 13 E.irqStackStart
  saveContextCode E getCurrentContext
  push (regs 0 12 ++ [14])

/-- `irq_entry`, after the call of `dispatch_interrupts`. -/
def interruptReturn : ArmM Unit := popPc (regs 0 12)

/-- `switch_to_context`. -/
def switchToContextCode : ArmM Unit := do
  ldmia 0 [12, 14]
  msr 12
  ldmiaUser 0 (regs 0 14)
  movPc 14

end Code

/-! ### Saving -/

variable {E : EntryImage} {getCurrentContext : ArmM Unit} {low ptr : Nat} {s t : Arm}

/-- The compiled `get_current_context`, which needs 1 KiB of stack at most. -/
def GetsContext (E : EntryImage) (low : Nat) (getCurrentContext : ArmM Unit) : Prop :=
  ∀ s : Arm, low + 1024 ≤ s.reg 13 → wp False getCurrentContext s fun _ t =>
    Returns low s t s.mem ∧ t.reg 0 = E.currentContext s.mem

/-- The context at `ptr` and `current_process` are apart, and both below the stack. -/
structure Placement (E : EntryImage) (low ptr : Nat) : Prop where
  context : ptr + 68 ≤ low
  current : E.currentProcess < low
  apart : ptr ≠ 0 → E.currentProcess < ptr ∨ ptr + 68 ≤ E.currentProcess

theorem EntryImage.currentContext_congr {m m' : Nat → Nat}
    (h : m' E.currentProcess = m E.currentProcess) : E.currentContext m' = E.currentContext m := by
  rw [currentContext, currentContext, h]

/-- A `push` does not reach `current_process`. -/
theorem Placement.pushed (hE : Placement E low ptr) (hcur : E.currentContext s.mem = ptr)
    {rs : List (Fin 15)} (hroom : low + 4 * rs.length ≤ s.reg 13) :
    E.currentContext (s.pushed rs).mem = ptr := by
  rw [← hcur]
  exact E.currentContext_congr (pushed_mem hroom (.inl hE.current))

/-- `push {r1-r12, r14}`, the call of `get_current_context` and the `pop` load `r0`. -/
theorem wp_loadContext (hg : GetsContext E low getCurrentContext) (hE : Placement E low ptr)
    (hcur : E.currentContext s.mem = ptr) {site : Nat}
    (hroom : low + 1076 ≤ s.reg 13) {f : ArmM Unit} {Q : Unit → Arm → Prop}
    (h : ∀ t, Keeps low s t s.mem → t.reg 0 = ptr → (∀ r ≠ 0, t.reg r = s.reg r) → wp False f t Q) :
    wp False (do
      push (regs 1 12 ++ [14])
      bl site getCurrentContext
      pop (regs 1 12 ++ [14])
      f) s Q := by
  have hlen : (regs 1 12 ++ [14]).length = 13 := rfl
  have hmem : ∀ r : Fin 15, r ∈ regs 1 12 ++ [14] ∨ r = 13 ↔ r ≠ 0 := by decide
  have hcall := hg ((s.pushed (regs 1 12 ++ [14])).set 14 site) (by
    rw [Arm.set_reg_of_ne (by decide), Arm.pushed_sp, hlen]
    omega)
  refine wp_modify_bind (wp_seq (Returns.wp_bl hcall) ?_)
  rintro - t ⟨ht, h₀⟩
  have hroom' : low + 4 * (regs 1 12 ++ [14]).length ≤ s.reg 13 := by
    rw [hlen]
    omega
  obtain ⟨hk, hreg⟩ := ht.protect hroom'
  refine wp_modify_bind (h _ hk ?_ fun r hr => ?_)
  · rw [hreg, if_neg (by decide), h₀]
    exact hE.pushed hcur hroom'
  · rw [hreg, if_pos ((hmem r).mpr hr)]

/-- `save_context_return` undoes the `push` of its routine. -/
theorem wp_saveContextReturn {F : Prop} {m : Nat → Nat}
    (h : Keeps low (s.pushed (regs 0 12 ++ [14])) t m) (hroom : low + 56 ≤ s.reg 13)
    (hm : ∀ x, s.reg 13 - 56 ≤ x → x < s.reg 13 → m x = (s.pushed (regs 0 12 ++ [14])).mem x) :
    wp F saveContextReturn t fun _ u => u.pc = s.reg 14 ∧ u.reg = s.reg ∧ Keeps low s u m := by
  have hall : ∀ r : Fin 15, r ∈ regs 0 12 ++ [14] ∨ r = 13 := by decide
  obtain ⟨hk, hreg⟩ := h.popped hroom hm
  have heq : (t.popped (regs 0 12 ++ [14])).reg = s.reg :=
    funext fun r => (hreg r).trans (if_pos (hall r))
  refine wp_modify_bind (wp_modify ⟨?_, heq, ⟨hk.sp, hk.spUsr, hk.lrUsr, hk.spsr, hk.mem⟩⟩)
  exact congrFun heq 14

/-- The memory after `save_context_1`: every word of the context but that of `r0`. -/
def savedMost (s : Arm) (restart ptr : Nat) (m : Nat → Nat) : Nat → Nat :=
  stm (Function.update (Function.update m ptr s.spsr) (ptr + 4) restart) (ptr + 12)
    ((regs 1 14).map s.user)

variable {restart : Nat}

theorem ne_zero_of_mem_regs {r : Fin 15} (h : r ∈ regs 1 14) : r ≠ 0 := by
  rintro rfl
  exact absurd h (by decide)

theorem savedMost_eq (hspsr : t.spsr = s.spsr) (huser : ∀ r ∈ regs 1 14, t.user r = s.user r)
    (m : Nat → Nat) : savedMost t restart ptr m = savedMost s restart ptr m := by
  rw [savedMost, savedMost, hspsr, List.map_congr_left huser]

theorem savedMost_congr {m m' : Nat → Nat} {x : Nat} (h : m' x = m x) :
    savedMost s restart ptr m' x = savedMost s restart ptr m x := by
  refine stm_congr ?_
  simp only [Function.update_apply, h]

theorem savedMost_other {m : Nat → Nat} {x : Nat} (h : x < ptr ∨ ptr + 68 ≤ x) :
    savedMost s restart ptr m x = m x := by
  have hlen : ((regs 1 14).map s.user).length = 14 := rfl
  rw [savedMost, stm_other (by rw [hlen]; omega), Function.update_of_ne (by omega),
    Function.update_of_ne (by omega)]

/-- The status goes to the context by way of `r1`. -/
theorem wp_storeStatus {F : Prop} (h₀ : t.reg 0 = ptr) (hroom : low + 4 ≤ t.reg 13)
    (hptr : ptr < low) {f : ArmM Unit} {Q : Unit → Arm → Prop}
    (h : ∀ u, u.reg = t.reg → Keeps low t u (Function.update t.mem ptr t.spsr) → wp F f u Q) :
    wp F (do
      push [1]
      mrs 1
      str 1 0
      pop [1]
      f) t Q := by
  let p := (t.pushed [1]).set 1 t.spsr
  have hk : Keeps low (t.pushed [1]) (p.setMem (Function.update p.mem ptr t.spsr))
      (Function.update (t.pushed [1]).mem ptr t.spsr) :=
    ⟨by simp [p], rfl, rfl, rfl, fun _ _ => rfl⟩
  obtain ⟨hk', hreg⟩ := hk.popped hroom fun x (h₁ : t.reg 13 - 4 ≤ x) h₂ =>
    Function.update_of_ne (by omega) _ _
  have hp₀ : p.reg 0 = ptr := by simp [p, h₀]
  have hp₁ : p.reg 1 = t.spsr := Arm.set_reg_self
  refine wp_modify_bind (wp_modify_bind (wp_modify_bind (wp_modify_bind ?_)))
  change wp F f ((p.setMem (Function.update p.mem (p.reg 0) (p.reg 1))).popped [1]) Q
  rw [hp₀, hp₁]
  refine h _ (funext fun r => ?_) (hk'.congr fun x hx => ?_)
  · rw [hreg]
    split
    · rfl
    next hr =>
      simp only [List.mem_singleton, not_or] at hr
      simp [p, hr.1, hr.2]
  · rw [Function.update_apply, Function.update_apply, pushed_mem hroom hx]

/-- The words are stored from the context's start on. -/
theorem wp_storeWords {F : Prop} (h₀ : t.reg 0 = ptr) (hroom : low + 4 ≤ t.reg 13)
    (hptr : ptr < low) {f : ArmM Unit} {Q : Unit → Arm → Prop}
    (h : ∀ u, Keeps low t u (savedMost t (t.reg 14) ptr t.mem) → wp F f u Q) :
    wp F (do
      push [1]
      mrs 1
      str 1 0
      pop [1]
      add 0 4
      str 14 0
      add 0 8
      stmiaUser 0 (regs 1 14)
      f) t Q := by
  refine wp_storeStatus h₀ hroom hptr fun u hu hku => ?_
  have hu₀ : u.reg 0 = ptr := by rw [hu, h₀]
  have hu₁₄ : u.reg 14 = t.reg 14 := by rw [hu]
  let p := (u.set 0 (ptr + 4)).setMem (Function.update u.mem (ptr + 4) (t.reg 14))
  let q := p.set 0 (ptr + 12)
  have hp₀ : p.reg 0 = ptr + 4 := by simp [p]
  have hq₀ : q.reg 0 = ptr + 12 := Arm.set_reg_self
  have huser : ∀ r ∈ regs 1 14, q.user r = t.user r := by
    intro r hr
    have hne : r ≠ 0 := ne_zero_of_mem_regs hr
    refine Arm.user_congr hku.spUsr hku.lrUsr fun _ _ => ?_
    rw [← hu]
    simp [q, p, hne]
  refine wp_add hu₀ (wp_str Arm.set_reg_self (v := t.reg 14) ?_ (wp_add hp₀ ?_))
  · rw [Arm.set_reg_of_ne (by decide), hu₁₄]
  refine wp_stmiaUser hq₀ (List.map_congr_left huser) (h _ ?_)
  refine ⟨?_, hku.spUsr, hku.lrUsr, hku.spsr, fun x hx => stm_congr ?_⟩
  · rw [← hu]
    simp
  · change Function.update u.mem (ptr + 4) (t.reg 14) x = _
    rw [Function.update_apply, Function.update_apply, hku.mem x hx]

/-- The words are stored, and `save_context_return` undoes the `push`. -/
theorem wp_storeMost {F : Prop}
    (hk : Keeps low (s.pushed (regs 0 12 ++ [14])) t (s.pushed (regs 0 12 ++ [14])).mem)
    (h₀ : t.reg 0 = ptr) (h₁₄ : t.reg 14 = s.reg 0)
    (hreg : ∀ r : Fin 15, r ≠ 0 → r ≠ 13 → r ≠ 14 → t.reg r = s.reg r)
    (hroom : low + 60 ≤ s.reg 13) (hptr : ptr + 68 ≤ low) :
    wp F (do
      push [1]
      mrs 1
      str 1 0
      pop [1]
      add 0 4
      str 14 0
      add 0 8
      stmiaUser 0 (regs 1 14)
      saveContextReturn) t fun _ u =>
      u.pc = s.reg 14 ∧ u.reg = s.reg ∧ Keeps low s u (savedMost s (s.reg 0) ptr s.mem) := by
  have hlen : (regs 0 12 ++ [14]).length = 14 := rfl
  have hsp : t.reg 13 = s.reg 13 - 56 := by rw [hk.sp, Arm.pushed_sp, hlen]
  have huser : ∀ r ∈ regs 1 14, t.user r = s.user r := fun r hr =>
    Arm.user_congr hk.spUsr hk.lrUsr (hreg r (ne_zero_of_mem_regs hr))
  refine wp_storeWords h₀ (show low + 4 ≤ t.reg 13 by omega) (by omega) fun u hku => ?_
  have hku' : Keeps low (s.pushed (regs 0 12 ++ [14])) u
      (savedMost s (s.reg 0) ptr (s.pushed (regs 0 12 ++ [14])).mem) := by
    refine (hk.trans hku).congr fun x hx => ?_
    rw [h₁₄, savedMost_eq (show t.spsr = s.spsr from hk.spsr) huser]
    exact savedMost_congr (hk.mem x hx)
  refine wp_mono (wp_saveContextReturn hku' (by omega) fun x _ _ => savedMost_other (by omega)) ?_
  rintro - v ⟨hpc, heq, hv⟩
  exact ⟨hpc, heq, hv.congr fun x hx => savedMost_congr (pushed_mem (by rw [hlen]; omega) hx)⟩

/-- The frame of both routines: `r0` is kept in `rd`, and without a current process nothing is
saved. -/
theorem wp_saveRoutine (hg : GetsContext E low getCurrentContext) (hE : Placement E low ptr)
    (hcur : E.currentContext s.mem = ptr) (hroom : low + 1140 ≤ s.reg 13)
    {rd : Fin 15} (h₀ : rd ≠ 0) (h₁₃ : rd ≠ 13) {site : Nat} {f : ArmM Unit} {m : Nat → Nat}
    (h : ∀ t, Keeps low (s.pushed (regs 0 12 ++ [14])) t (s.pushed (regs 0 12 ++ [14])).mem →
      t.reg 0 = ptr → t.reg rd = s.reg 0 →
      (∀ r : Fin 15, r ≠ 0 → r ≠ 13 → r ≠ rd → t.reg r = s.reg r) →
      wp False f t fun _ u => u.pc = s.reg 14 ∧ u.reg = s.reg ∧ Keeps low s u m) :
    wp False (do
      push (regs 0 12 ++ [14])
      mov rd 0
      push (regs 1 12 ++ [14])
      bl site getCurrentContext
      pop (regs 1 12 ++ [14])
      cmp 0 0
      if (← get).zero then saveContextReturn else f) s fun _ u =>
      u.pc = s.reg 14 ∧ u.reg = s.reg ∧ Keeps low s u (if ptr = 0 then s.mem else m) := by
  have hlen : (regs 0 12 ++ [14]).length = 14 := rfl
  refine wp_modify_bind (wp_mov (v := s.reg 0) (Arm.pushed_reg_of_ne (by decide)) ?_)
  have hroom' : low + 4 * (regs 0 12 ++ [14]).length ≤ s.reg 13 := by
    rw [hlen]
    omega
  refine wp_loadContext hg hE ?_ ?_ fun t hk ht₀ hreg => ?_
  · exact hE.pushed hcur hroom'
  · rw [Arm.set_reg_of_ne h₁₃.symm, Arm.pushed_sp, hlen]
    omega
  have hout : Keeps low (s.pushed (regs 0 12 ++ [14])) t (s.pushed (regs 0 12 ++ [14])).mem := by
    refine ⟨?_, hk.spUsr, hk.lrUsr, hk.spsr, fun x hx => hk.mem x ?_⟩
    · rw [hreg 13 (by decide), Arm.set_reg_of_ne h₁₃.symm]
    · rwa [Arm.set_reg_of_ne h₁₃.symm]
  have hrd : t.reg rd = s.reg 0 := (hreg rd h₀).trans Arm.set_reg_self
  refine wp_modify_bind (wp_get_bind (wp_ite (fun hz => ?_) fun hz => ?_))
  · have hz' : ptr = 0 := by simpa [ht₀] using hz
    rw [if_pos hz']
    refine wp_mono (wp_saveContextReturn (s := s) ⟨hout.sp, hout.spUsr, hout.lrUsr, hout.spsr,
      hout.mem⟩ (by omega) fun _ _ _ => rfl) ?_
    rintro - u ⟨hpc, heq, hu⟩
    exact ⟨hpc, heq, hu.congr fun x hx => pushed_mem hroom' hx⟩
  · have hz' : ptr ≠ 0 := by simpa [ht₀] using hz
    rw [if_neg hz']
    refine h _ ⟨hout.sp, hout.spUsr, hout.lrUsr, hout.spsr, hout.mem⟩ ht₀ hrd fun r h₁ h₂ h₃ => ?_
    exact (hreg r h₁).trans (by simp [h₂, h₃])

/-- **`save_context_1`** with the return address in `r0`. -/
theorem wp_saveContext1 (hg : GetsContext E low getCurrentContext) (hE : Placement E low ptr)
    (hcur : E.currentContext s.mem = ptr) (hroom : low + 1140 ≤ s.reg 13) :
    wp False (saveContext1 E getCurrentContext) s fun _ t =>
      t.pc = s.reg 14 ∧ t.reg = s.reg ∧
        Keeps low s t (if ptr = 0 then s.mem else savedMost s (s.reg 0) ptr s.mem) :=
  wp_saveRoutine hg hE hcur hroom (by decide) (by decide) fun _ hk h₀ h₁₄ hreg =>
    wp_storeMost hk h₀ h₁₄ hreg (by omega) hE.context

/-- **`save_context_2`** with the register in `r0`. -/
theorem wp_saveContext2 (hg : GetsContext E low getCurrentContext) (hE : Placement E low ptr)
    (hcur : E.currentContext s.mem = ptr) (hroom : low + 1140 ≤ s.reg 13) :
    wp False (saveContext2 E getCurrentContext) s fun _ t =>
      t.pc = s.reg 14 ∧ t.reg = s.reg ∧
        Keeps low s t (if ptr = 0 then s.mem else Function.update s.mem (ptr + 8) (s.reg 0)) := by
  have hlen : (regs 0 12 ++ [14]).length = 14 := rfl
  have hptr := hE.context
  refine wp_saveRoutine hg hE hcur hroom (by decide) (by decide) fun t hk h₀ h₁ _ => ?_
  refine wp_add h₀ (wp_str Arm.set_reg_self ((Arm.set_reg_of_ne (by decide)).trans h₁) ?_)
  have hkeeps : Keeps low (s.pushed (regs 0 12 ++ [14]))
      ((t.set 0 (ptr + 8)).setMem (Function.update t.mem (ptr + 8) (s.reg 0)))
      (Function.update (s.pushed (regs 0 12 ++ [14])).mem (ptr + 8) (s.reg 0)) := by
    refine ⟨?_, hk.spUsr, hk.lrUsr, hk.spsr, fun x hx => ?_⟩
    · rw [Arm.setMem_reg, Arm.set_reg_of_ne (by decide), hk.sp]
    · change Function.update t.mem (ptr + 8) (s.reg 0) x = _
      rw [Function.update_apply, Function.update_apply, hk.mem x hx]
  refine wp_mono (wp_saveContextReturn hkeeps (by omega) fun x _ _ =>
    Function.update_of_ne (by omega) _ _) ?_
  rintro - u ⟨hpc, heq, hu⟩
  refine ⟨hpc, heq, hu.congr fun x hx => ?_⟩
  rw [Function.update_apply, Function.update_apply, pushed_mem (by rw [hlen]; omega) hx]

/-! ### Contexts -/

/-- The order of the words of a context. -/
def contextItems : List ContextItem :=
  [.CPSR, .RESTART_ADDR, .R0, .R1, .R2, .R3, .R4, .R5, .R6, .R7, .R8, .R9, .R10, .R11, .R12,
    .SP, .LR]

/-- The context at `a`. -/
def contextAt (mem : Nat → Nat) (a : Nat) : Context := fun item =>
  mem (a + 4 * contextItems.idxOf item)

/-- The user's registers, with `restart` for the program counter. -/
def Arm.context (s : Arm) (restart : Nat) : Context
  | .CPSR => s.spsr
  | .RESTART_ADDR => restart
  | .R0 => s.user 0
  | .R1 => s.user 1
  | .R2 => s.user 2
  | .R3 => s.user 3
  | .R4 => s.user 4
  | .R5 => s.user 5
  | .R6 => s.user 6
  | .R7 => s.user 7
  | .R8 => s.user 8
  | .R9 => s.user 9
  | .R10 => s.user 10
  | .R11 => s.user 11
  | .R12 => s.user 12
  | .SP => s.user 13
  | .LR => s.user 14

theorem mem_contextItems (item : ContextItem) : item ∈ contextItems := by
  cases item <;> decide

theorem contextAt_stm (m : Nat → Nat) (a : Nat) (cpu : Context) :
    contextAt (stm m a (contextItems.map cpu)) a = cpu := by
  funext item
  have hlt := List.idxOf_lt_length_iff.mpr (mem_contextItems item)
  rw [contextAt, stm_word (by rwa [List.length_map]), List.getElem_map, List.getElem_idxOf]

theorem contextAt_congr {m m' : Nat → Nat} {a : Nat} (h : ∀ x, a ≤ x → x < a + 68 → m' x = m x) :
    contextAt m' a = contextAt m a := by
  funext item
  have hlt : contextItems.idxOf item < 17 := List.idxOf_lt_length_iff.mpr (mem_contextItems item)
  exact h _ (by omega) (by omega)

/-- Both routines together store the context. -/
theorem update_savedMost (s : Arm) (restart ptr : Nat) (m : Nat → Nat) :
    Function.update (savedMost s restart ptr m) (ptr + 8) (s.user 0) =
      stm m ptr (contextItems.map (s.context restart)) := by
  have hwords : contextItems.map (s.context restart) =
      s.spsr :: restart :: s.user 0 :: (regs 1 14).map s.user := rfl
  rw [hwords, stm_cons, stm_cons, stm_cons, savedMost, stm_update (by omega), stm_update (by omega),
    Function.update_comm (show ptr + 4 ≠ ptr + 8 by omega),
    Function.update_comm (show ptr ≠ ptr + 8 by omega),
    Function.update_comm (show ptr ≠ ptr + 4 by omega)]

theorem savedMost_call (s : Arm) (restart site ptr : Nat) (rs : List (Fin 15)) (m : Nat → Nat) :
    savedMost (((s.pushed rs).set 0 restart).set 14 site) restart ptr m =
      savedMost s restart ptr m := by
  refine savedMost_eq rfl (fun r hr => Arm.user_congr rfl rfl fun h₁₃ h₁₄ => ?_) m
  have hne := ne_zero_of_mem_regs hr
  simp [hne, h₁₃, h₁₄]

/-- The first half of `SAVE_CONTEXT`. -/
theorem wp_saveFirst (hg : GetsContext E low getCurrentContext) (hE : Placement E low ptr)
    (hcur : E.currentContext s.mem = ptr) (hroom : low + 1148 ≤ s.reg 13) {site : Nat}
    {f : ArmM Unit} {Q : Unit → Arm → Prop}
    (h : ∀ t, t.reg = s.reg →
      Keeps low s t (if ptr = 0 then s.mem else savedMost s (s.reg 14) ptr s.mem) →
      wp False f t Q) :
    wp False (do
      push [0, 14]
      mov 0 14
      bl site (saveContext1 E getCurrentContext)
      pop [0, 14]
      f) s Q := by
  have h13 : ((s.pushed [0, 14]).set 0 (s.reg 14)).reg 13 = s.reg 13 - 8 := by simp
  have hroom' : low + 4 * [(0 : Fin 15), 14].length ≤ s.reg 13 := by
    rw [show [(0 : Fin 15), 14].length = 2 from rfl]
    omega
  refine wp_modify_bind (wp_mov (v := s.reg 14) (Arm.pushed_reg_of_ne (by decide)) ?_)
  refine wp_seq (wp_bl_keeps (wp_saveContext1 hg hE ?_ ?_)) ?_
  · exact hE.pushed hcur hroom'
  · rw [Arm.set_reg_of_ne (by decide), h13]
    omega
  rintro - t ⟨hreg, hk⟩
  rw [Arm.set_reg_of_ne (by decide), Arm.set_reg_self, savedMost_call] at hk
  have hk' : Keeps low (s.pushed [0, 14]) t (if ptr = 0 then (s.pushed [0, 14]).mem
      else savedMost s (s.reg 14) ptr (s.pushed [0, 14]).mem) := by
    refine ⟨?_, hk.spUsr, hk.lrUsr, hk.spsr, fun x hx => hk.mem x ?_⟩
    · rw [hk.sp, Arm.set_reg_of_ne (by decide)]
    · rwa [Arm.set_reg_of_ne (by decide)]
  have hptr := hE.context
  obtain ⟨hp, hpop⟩ := hk'.popped hroom' fun x (h₁ : s.reg 13 - 8 ≤ x) h₂ => by
    split
    · rfl
    · exact savedMost_other (by omega)
  refine wp_modify_bind (h _ (funext fun r => ?_) (hp.congr fun x hx => ?_))
  · rw [hpop]
    split
    · rfl
    next hr =>
      simp only [List.mem_cons, List.not_mem_nil, or_false, not_or] at hr
      rw [hreg r hr.1.2, Arm.set_reg_of_ne hr.1.1, Arm.pushed_reg_of_ne hr.2]
  · split
    · exact pushed_mem hroom' hx
    · exact savedMost_congr (pushed_mem hroom' hx)

/-- The second half of `SAVE_CONTEXT`. -/
theorem wp_saveSecond (hg : GetsContext E low getCurrentContext) (hE : Placement E low ptr)
    (hcur : E.currentContext s.mem = ptr) (hroom : low + 1144 ≤ s.reg 13) {site : Nat} :
    wp False (do
      push [14]
      bl site (saveContext2 E getCurrentContext)
      pop [14]) s fun _ t => t.reg = s.reg ∧
        Keeps low s t (if ptr = 0 then s.mem else Function.update s.mem (ptr + 8) (s.reg 0)) := by
  have h13 : (s.pushed [14]).reg 13 = s.reg 13 - 4 := Arm.pushed_sp
  have hroom' : low + 4 * [(14 : Fin 15)].length ≤ s.reg 13 := by
    rw [show [(14 : Fin 15)].length = 1 from rfl]
    omega
  refine wp_modify_bind (wp_seq (wp_bl_keeps (wp_saveContext2 hg hE ?_ ?_)) ?_)
  · exact hE.pushed hcur hroom'
  · rw [Arm.set_reg_of_ne (by decide), h13]
    omega
  rintro - t ⟨hreg, hk⟩
  rw [Arm.set_reg_of_ne (by decide), Arm.pushed_reg_of_ne (by decide)] at hk
  have hptr := hE.context
  obtain ⟨hp, hpop⟩ := hk.popped hroom' fun x (h₁ : s.reg 13 - 4 ≤ x) h₂ => by
    split
    · rfl
    · exact Function.update_of_ne (by omega) _ _
  refine wp_modify ⟨funext fun r => ?_, hp.congr fun x hx => ?_⟩
  · rw [hpop]
    split
    · rfl
    next hr =>
      simp only [List.mem_cons, List.not_mem_nil, or_false, not_or] at hr
      rw [hreg r hr.1, Arm.pushed_reg_of_ne hr.2]
  · have hmem : (s.pushed [14]).mem x = s.mem x := pushed_mem hroom' hx
    split
    · exact hmem
    · rw [Function.update_apply, Function.update_apply, ← hmem]
      rfl

/-- **`SAVE_CONTEXT`** stores the user's registers in the context of the current process. -/
theorem wp_saveContextCode (hg : GetsContext E low getCurrentContext) (hE : Placement E low ptr)
    (hcur : E.currentContext s.mem = ptr) (hroom : low + 1148 ≤ s.reg 13) :
    wp False (saveContextCode E getCurrentContext) s fun _ t => t.reg = s.reg ∧
      Keeps low s t (if ptr = 0 then s.mem
        else stm s.mem ptr (contextItems.map (s.context (s.reg 14)))) := by
  refine wp_saveFirst hg hE hcur hroom fun t hreg hk => ?_
  have hcur' : E.currentContext t.mem = ptr := by
    rw [← hcur]
    refine E.currentContext_congr ((hk.mem _ (.inl hE.current)).trans ?_)
    split
    · rfl
    next hz => exact savedMost_other (hE.apart hz)
  refine wp_mono (wp_saveSecond hg hE hcur' (by rw [hreg]; omega)) ?_
  rintro - u ⟨hreg', hk'⟩
  refine ⟨hreg'.trans hreg, (hk.trans hk').congr fun x hx => ?_⟩
  have hmem := hk.mem x hx
  split
  next hz => rw [hmem, if_pos hz]
  next hz =>
    rw [if_neg hz] at hmem
    have huser : s.user 0 = s.reg 0 := rfl
    rw [← update_savedMost, Function.update_apply, Function.update_apply, hmem, hreg, huser]

/-! ### Leaving -/

theorem Arm.context_eq {a : Nat} (h : s.spsr = t.spsr) (hu : ∀ r, s.user r = t.user r) :
    s.context a = t.context a := by
  funext item
  cases item <;> simp only [Arm.context, h, hu]

theorem Arm.context_update {a : Nat} (h : s.spsr = t.spsr) (hu : ∀ r ≠ 0, s.user r = t.user r) :
    s.context a = Function.update (t.context a) .R0 (s.user 0) := by
  funext item
  cases item <;> simp [Arm.context, h, hu]

/-- **`switch_to_context`** loads the context at `r0`. -/
theorem wp_switchToContextCode {F : Prop} (s : Arm) :
    wp F switchToContextCode s fun _ t => t.context t.pc = contextAt s.mem (s.reg 0) := by
  refine wp_modify_bind (wp_modify_bind (wp_modify_bind (wp_modify (funext fun item => ?_))))
  cases item <;> rfl

end Arunos
