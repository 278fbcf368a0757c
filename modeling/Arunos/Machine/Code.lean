import Arunos.Machine.Entry

/-!
# Machine — Code — the running system by its machine code

`step` saves and restores registers in one go.  Here a trap is what the processor and the code of
`startup.S`, `save_context.S` and `system.S` make of it (`CodeTrap`): the processor takes the
exception with the program's registers, the entry code runs on the processor, the handler runs on
the contexts found in memory, and what goes on in user mode is what the return code or
`switch_to_context` leaves in the registers.  The C code between is the kernel's model, with what a
compiler promises of it: `get_current_context` returns, handlers keep the stack above them.

`machineCode L E` is `arunos L` with such traps.  The two have the same runs: every trap by the code
is a step of the machine (`CodeTrap.step`), and every step of a trap is one by the code
(`exists_codeTrap`).
-/

namespace Arunos

variable {σ : Type} {L : Layout} {E : EntryImage} {k k' : Kernel σ} {cpu : Context} {t : Trap}
  {s u v : Arm} {m m' : Machine σ} {getCurrentContext : ArmM Unit} {ptr : Nat}

/-! ### Processes in memory -/

/-- The context of the process in `i`: `struct Process` has 104 bytes, and `context` is at 28. -/
def EntryImage.contextAddr (E : EntryImage) (i : Fin 10) : Nat := E.processTable + 104 * i + 28

/-- The context of a process, if there is one. -/
def EntryImage.contextOf (E : EntryImage) : Option (Fin 10) → Nat
  | some i => E.contextAddr i
  | none => NULL

/-- Memory holds `current_process` and the contexts of the process table. -/
structure HoldsProcesses (E : EntryImage) (mem : Nat → Nat) (k : Kernel σ) : Prop where
  contexts : ∀ i, contextAt mem (E.contextAddr i) = (k.processTable i).context
  current : mem E.currentProcess = match k.currentProcess with
    | some c => E.processTable + 104 * c
    | none => NULL

/-- The kernel with the contexts that memory holds. -/
def readContexts (E : EntryImage) (mem : Nat → Nat) (k : Kernel σ) : Kernel σ :=
  { k with processTable := fun i =>
      { k.processTable i with context := contextAt mem (E.contextAddr i) } }

theorem HoldsProcesses.currentContext {mem : Nat → Nat} (h : HoldsProcesses E mem k) :
    E.currentContext mem = E.contextOf k.currentProcess := by
  have hpos := E.table_pos
  rw [EntryImage.currentContext, h.current]
  cases k.currentProcess with
  | none => rfl
  | some c =>
      exact if_neg (Nat.ne_zero_of_lt (Nat.lt_of_lt_of_le hpos (Nat.le_add_right _ _)))

theorem EntryImage.contextAddr_bounds (E : EntryImage) (i : Fin 10) :
    E.processTable < E.contextAddr i ∧ E.contextAddr i + 68 ≤ E.processTable + 1040 := by
  unfold contextAddr
  omega

/-- Both stacks are above the variables. -/
theorem EntryImage.placement (E : EntryImage) (o : Option (Fin 10)) {top : Nat}
    (htop : E.kernelStackStart ≤ top) : Placement E (top - 4096) (E.contextOf o) := by
  have htable := E.table_end
  have hcurrent := E.current_end
  have hapart := E.current_apart
  cases o with
  | none =>
      have hnull : E.contextOf none = 0 := rfl
      exact ⟨by omega, by omega, fun h => absurd hnull h⟩
  | some i =>
      have hi := E.contextAddr_bounds i
      exact ⟨by rw [contextOf]; omega, by omega, fun _ => by rw [contextOf]; omega⟩

/-- Storing one context changes no other. -/
theorem contextAt_stm_of_ne {i j : Fin 10} (h : j ≠ i) (mem : Nat → Nat) :
    contextAt (stm mem (E.contextAddr i) (contextItems.map cpu)) (E.contextAddr j) =
      contextAt mem (E.contextAddr j) := by
  have hij : j.val ≠ i.val := fun e => h (Fin.ext e)
  refine contextAt_congr fun x h₁ h₂ => stm_other ?_
  rw [show (contextItems.map cpu).length = 17 from rfl]
  unfold EntryImage.contextAddr at *
  omega

/-- Some memory holds the processes of `k`. -/
theorem exists_holdsProcesses (E : EntryImage) (k : Kernel σ) : ∃ mem, HoldsProcesses E mem k := by
  let table (x : Nat) : Nat := (k.processTable (Fin.ofNat 10 (x / 104))).context
    (contextItems.getD ((x % 104 - 28) / 4) .CPSR)
  refine ⟨Function.update (fun x => table (x - E.processTable)) E.currentProcess _,
    fun i => funext fun item => ?_, Function.update_self _ _ _⟩
  have hi := i.isLt
  have hbounds := E.contextAddr_bounds i
  have hapart := E.current_apart
  have hlt : contextItems.idxOf item < contextItems.length :=
    List.idxOf_lt_length_iff.mpr (mem_contextItems item)
  have hlt' : contextItems.idxOf item < 17 := hlt
  have hslot : (E.contextAddr i + 4 * contextItems.idxOf item - E.processTable) / 104 = i := by
    unfold EntryImage.contextAddr
    omega
  have hword : ((E.contextAddr i + 4 * contextItems.idxOf item - E.processTable) % 104 - 28) / 4 =
      contextItems.idxOf item := by
    unfold EntryImage.contextAddr
    omega
  rw [contextAt, Function.update_of_ne (by omega)]
  simp only [table]
  rw [hslot, hword, List.getD_eq_getElem _ _ hlt, List.getElem_idxOf]
  congr 2
  exact Fin.ext (Nat.mod_eq_of_lt hi)

/-! ### Taking a trap -/

namespace Trap

/-- The code from the exception vector to the call of the handler. -/
def entry (E : EntryImage) (getCurrentContext : ArmM Unit) : Trap → ArmM Unit
  | .swi _ => syscallEntry E getCurrentContext
  | _ => interruptEntry E getCurrentContext

/-- The code after the call of the handler. -/
def exit : Trap → ArmM Unit
  | .swi _ => syscallReturn
  | _ => interruptReturn

/-- The stack of the mode. -/
def stackStart (E : EntryImage) : Trap → Nat
  | .swi _ => E.kernelStackStart
  | _ => E.irqStackStart

/-- The registers that are kept on the stack. -/
def stacked : Trap → List (Fin 15)
  | .swi _ => regs 1 12
  | _ => regs 0 12

/-- How far the processor's `lr` is past the instruction to go on with. -/
def linkOffset : Trap → Nat
  | .swi _ => 0
  | _ => 4

/-- The processor takes the exception in a program with the registers `cpu`. -/
structure Takes (E : EntryImage) (k : Kernel σ) (cpu : Context) (t : Trap) (s : Arm) : Prop where
  context : s.context (cpu .RESTART_ADDR) = cpu
  link : s.reg 14 = cpu .RESTART_ADDR + t.linkOffset
  memory : HoldsProcesses E s.mem k

end Trap

theorem Trap.stackStart_le (E : EntryImage) (t : Trap) :
    E.kernelStackStart ≤ t.stackStart E := by
  have hirq := E.irq_start
  have hle : E.kernelStackStart ≤ E.irqStackStart := by omega
  cases t with
  | swi key => exact le_rfl
  | timer => exact hle
  | uart => exact hle
  | execute name => exact hle

/-- The stack has room for the registers. -/
theorem Trap.stacked_room (E : EntryImage) (t : Trap) :
    t.stackStart E - 4096 + 4 * (t.stacked ++ [14]).length ≤ t.stackStart E := by
  have htop := Trap.stackStart_le E t
  have hend := E.table_end
  have hlen : (t.stacked ++ [14]).length ≤ 14 := by
    cases t <;> exact Nat.le_of_ble_eq_true rfl
  omega

/-- The entry code before its last `push`: the registers of the program are in place, and in the
context at `ptr`. -/
structure Entered (top restart ptr : Nat) (s u : Arm) : Prop where
  sp : u.reg 13 = top
  lr : u.reg 14 = restart
  context : u.context restart = s.context restart
  mem : ∀ x, x < top - 4096 ∨ top ≤ x → u.mem x =
    (if ptr = 0 then s.mem else stm s.mem ptr (contextItems.map (s.context restart))) x

theorem Arm.set_context {r : Fin 15} (h : r = 13 ∨ r = 14) (s : Arm) (v a : Nat) :
    (s.set r v).context a = s.context a := by
  refine Arm.context_eq rfl fun r' => Arm.user_congr rfl rfl fun h₁₃ h₁₄ => Arm.set_reg_of_ne ?_
  rcases h with rfl | rfl
  · exact h₁₃
  · exact h₁₄

theorem Entered.congr {top restart : Nat} {s' : Arm} (h : Entered top restart ptr s' u)
    (hc : s'.context restart = s.context restart) (hm : s'.mem = s.mem) :
    Entered top restart ptr s u := by
  refine ⟨h.sp, h.lr, h.context.trans hc, fun x hx => ?_⟩
  rw [h.mem x hx, hc, hm]

/-- `SAVE_CONTEXT` and the `push` before the handler's call. -/
theorem wp_saveAndPush {top : Nat} (hg : GetsContext E (top - 4096) getCurrentContext)
    (hE : Placement E (top - 4096) ptr) (hcur : E.currentContext s.mem = ptr) (hsp : s.reg 13 = top)
    (rs : List (Fin 15)) :
    wp False (do
      saveContextCode E getCurrentContext
      push rs) s fun _ v => ∃ u : Arm, v = u.pushed rs ∧ Entered top (s.reg 14) ptr s u := by
  have hptr := hE.context
  refine wp_seq (wp_saveContextCode hg hE hcur (by omega)) ?_
  rintro - u ⟨hreg, hk⟩
  refine wp_modify ⟨u, rfl, by rw [hreg, hsp], by rw [hreg], ?_, fun x hx => ?_⟩
  · refine Arm.context_eq hk.spsr fun r => Arm.user_congr hk.spUsr hk.lrUsr fun _ _ => ?_
    rw [hreg]
  · exact hk.mem x (by rwa [hsp])

theorem wp_syscallEntry (hg : GetsContext E (E.kernelStackStart - 4096) getCurrentContext)
    (hE : Placement E (E.kernelStackStart - 4096) ptr) (hcur : E.currentContext s.mem = ptr) :
    wp False (syscallEntry E getCurrentContext) s fun _ v =>
      ∃ u : Arm, v = u.pushed (regs 1 12 ++ [14]) ∧
        Entered E.kernelStackStart (s.reg 14) ptr s u := by
  have hcur' : E.currentContext (s.set 13 E.kernelStackStart).mem = ptr := hcur
  refine wp_modify_bind (wp_mono (wp_saveAndPush hg hE hcur' Arm.set_reg_self _) ?_)
  rintro - v ⟨u, rfl, hu⟩
  rw [Arm.set_reg_of_ne (by decide)] at hu
  exact ⟨u, rfl, hu.congr (Arm.set_context (.inl rfl) _ _ _) rfl⟩

theorem wp_interruptEntry (hg : GetsContext E (E.irqStackStart - 4096) getCurrentContext)
    (hE : Placement E (E.irqStackStart - 4096) ptr) (hcur : E.currentContext s.mem = ptr) :
    wp False (interruptEntry E getCurrentContext) s fun _ v =>
      ∃ u : Arm, v = u.pushed (regs 0 12 ++ [14]) ∧
        Entered E.irqStackStart (s.reg 14 - 4) ptr s u := by
  have hcur' : E.currentContext ((s.set 14 (s.reg 14 - 4)).set 13 E.irqStackStart).mem = ptr := hcur
  refine wp_modify_bind (wp_modify_bind ?_)
  refine wp_mono (wp_saveAndPush hg hE hcur' Arm.set_reg_self _) ?_
  rintro - v ⟨u, rfl, hu⟩
  rw [Arm.set_reg_of_ne (by decide), Arm.set_reg_self] at hu
  refine ⟨u, rfl, hu.congr ?_ rfl⟩
  rw [Arm.set_context (.inl rfl), Arm.set_context (.inr rfl)]

/-- **The entry code** saves the program's registers in the context of the current process. -/
theorem Trap.wp_entry (hs : t.Takes E k cpu s)
    (hg : GetsContext E (t.stackStart E - 4096) getCurrentContext) :
    wp False (t.entry E getCurrentContext) s fun _ v =>
      ∃ u : Arm, v = u.pushed (t.stacked ++ [14]) ∧
        Entered (t.stackStart E) (cpu .RESTART_ADDR) (E.contextOf k.currentProcess) s u := by
  have hE := E.placement k.currentProcess (Trap.stackStart_le E t)
  have hcur := hs.memory.currentContext
  have hlr : s.reg 14 - t.linkOffset = cpu .RESTART_ADDR := by rw [hs.link, Nat.add_sub_cancel]
  rw [← hlr]
  cases t with
  | swi key => exact wp_syscallEntry hg hE hcur
  | timer => exact wp_interruptEntry hg hE hcur
  | uart => exact wp_interruptEntry hg hE hcur
  | execute name => exact wp_interruptEntry hg hE hcur

/-- What the handler finds in the process table is what `saveContext` leaves there. -/
theorem Entered.readContexts (hs : t.Takes E k cpu s)
    (hu : Entered (t.stackStart E) (cpu .RESTART_ADDR) (E.contextOf k.currentProcess) s u) :
    readContexts E (u.pushed (t.stacked ++ [14])).mem k = saveContext k cpu := by
  have htop := Trap.stackStart_le E t
  have hend := E.table_end
  have hroom : t.stackStart E - 4096 + 4 * (t.stacked ++ [14]).length ≤ u.reg 13 := by
    rw [hu.sp]
    exact Trap.stacked_room E t
  have hmem : ∀ i, contextAt (u.pushed (t.stacked ++ [14])).mem (E.contextAddr i) =
      contextAt (if E.contextOf k.currentProcess = 0 then s.mem
        else stm s.mem (E.contextOf k.currentProcess) (contextItems.map cpu))
        (E.contextAddr i) := by
    intro i
    have hi := (E.contextAddr_bounds i).2
    refine contextAt_congr fun x _ hx => ?_
    rw [pushed_mem hroom (.inl (by omega)), hu.mem x (.inl (by omega)), hs.context]
  cases hc : k.currentProcess with
  | none =>
      rw [hc] at hmem
      have hsame : ∀ i, contextAt (u.pushed (t.stacked ++ [14])).mem (E.contextAddr i) =
          (k.processTable i).context := fun i => by
        rw [hmem, if_pos (show E.contextOf none = 0 from rfl), hs.memory.contexts]
      rw [saveContext, hc]
      simp only [Arunos.readContexts, hsame]
  | some c =>
      rw [hc] at hmem
      have hpos : E.contextOf (some c) ≠ 0 := Nat.ne_zero_of_lt (E.contextAddr_bounds c).1
      have hsave : saveContext k cpu = k.setEntry c { k.processTable c with context := cpu } := by
        rw [saveContext, hc]
      rw [hsave]
      unfold Arunos.readContexts Kernel.setEntry
      congr 1
      funext i
      rw [hmem, if_neg hpos, EntryImage.contextOf]
      by_cases hi : i = c
      · subst hi
        rw [contextAt_stm, Function.update_self]
      · rw [contextAt_stm_of_ne hi, hs.memory.contexts, Function.update_of_ne hi]

/-! ### Leaving -/

/-- `proc_start` ends in `switch_to_context`; or the kernel stops. -/
inductive Departs (E : EntryImage) (k : Kernel σ) : Outcome → Machine σ → Prop where
  | resume {c : Fin 10} {v w : Arm} (current : k.currentProcess = some c)
      (arg : v.reg 0 = E.contextAddr c) (memory : HoldsProcesses E v.mem k)
      (run : switchToContextCode.run v = some ((), w)) :
      Departs E k .resume (.user k (w.context w.pc))
  | panic : Departs E k .panic (.panicked k)
  | halt : Departs E k .halt (.halted k)

/-- What follows the handler's call in `u`: the handler returns, having kept the stack from its `sp`
up, or departs. -/
inductive Leaves (E : EntryImage) (t : Trap) (u : Arm) (k : Kernel σ) :
    Outcome → Machine σ → Prop where
  | ret {r : Int} {v w : Arm} {mem : Nat → Nat} (kept : Keeps (t.stackStart E - 4096) u v mem)
      (stack : ∀ x, u.reg 13 ≤ x → x < t.stackStart E → mem x = u.mem x)
      (result : ∀ key, t = .swi key → v.reg 0 = word r) (run : t.exit.run v = some ((), w)) :
      Leaves E t u k (.ret r) (.user k (w.context w.pc))
  | departs {out : Outcome} {m : Machine σ} (h : Departs E k out m) : Leaves E t u k out m

theorem Departs.eq {out : Outcome} (h : Departs E k out m) (back : Int → Context) :
    m = leave back out k := by
  cases h with
  | resume current arg memory run =>
      rw [leave, switchToContext, current]
      have hw := (wp_switchToContextCode (F := False) _).elim run
      rw [hw, arg, memory.contexts]
  | panic => rfl
  | halt => rfl

/-- **The return code** restores the registers the program had. -/
theorem Trap.wp_exit {r : Int} {mem : Nat → Nat} (hE : u.reg 13 = t.stackStart E)
    (kept : Keeps (t.stackStart E - 4096) (u.pushed (t.stacked ++ [14])) v mem)
    (stack : ∀ x, (u.pushed (t.stacked ++ [14])).reg 13 ≤ x → x < t.stackStart E →
      mem x = (u.pushed (t.stacked ++ [14])).mem x)
    (result : ∀ key, t = .swi key → v.reg 0 = word r) :
    wp False t.exit v fun _ w => w.context w.pc = t.back (u.context (u.reg 14)) r := by
  have hexit : t.exit = popPc t.stacked := by cases t <;> rfl
  have hroom : 4 * (t.stacked ++ [14]).length ≤ u.reg 13 := by
    have := Trap.stacked_room E t
    omega
  have hpop := kept.wp_popPc (F := False) hroom fun x h₁ h₂ =>
    stack x (by rwa [Arm.pushed_sp]) (by rwa [← hE])
  rw [hexit]
  refine wp_mono hpop ?_
  rintro - w ⟨hpc, hspsr, huser⟩
  rw [hpc]
  -- an interrupt restores every register, a system call all but `r0`
  have hall : (∀ r : Fin 15, r ∈ t.stacked ∨ r = 13 ∨ r = 14) →
      w.context (u.reg 14) = u.context (u.reg 14) := fun h =>
    Arm.context_eq hspsr fun r => by rw [huser, if_pos (h r)]
  cases t with
  | swi key =>
      have hmem : ∀ r : Fin 15, r ∈ regs 1 12 ∨ r = 13 ∨ r = 14 ↔ r ≠ 0 := by decide
      have huser' : ∀ r : Fin 15, w.user r = if r ≠ 0 then u.user r else v.reg r := fun r => by
        simpa only [Trap.stacked, hmem] using huser r
      rw [Arm.context_update hspsr fun r hr => by rw [huser', if_pos hr], huser',
        if_neg (by decide), result key rfl]
      rfl
  | timer => exact hall (by decide)
  | uart => exact hall (by decide)
  | execute name => exact hall (by simp only [Trap.stacked]; decide)

theorem Arm.pushed_context (u : Arm) (rs : List (Fin 15)) (a : Nat) :
    (u.pushed rs).context a = u.context a :=
  Arm.context_eq rfl fun _ => Arm.user_congr rfl rfl fun h₁₃ _ => Arm.pushed_reg_of_ne h₁₃

/-! ### The system -/

section System

variable [BlockDevice σ]

/-- A trap by the code: the entry code, the handler with `r0` and `r1`, and the way back. -/
def CodeTrap (L : Layout) (E : EntryImage) (k : Kernel σ) (cpu : Context) (t : Trap)
    (m' : Machine σ) : Prop :=
  ∃ getCurrentContext s u out k',
    GetsContext E (t.stackStart E - 4096) getCurrentContext ∧
    t.Takes E k cpu s ∧ (t.entry E getCurrentContext).run s = some ((), u) ∧
    (t.handler L (u.context (u.reg 14))).run (readContexts E u.mem k) = some (out, k') ∧
    Leaves E t u k' out m'

/-- One step of the machine with traps by the code. -/
def codeStep (L : Layout) (E : EntryImage) (m : Machine σ) (e : Event) (m' : Machine σ) : Prop :=
  match m, e with
  | .user k cpu, .trap t => CodeTrap L E k cpu t m'
  | m, e => step L m e = some m'

/-- `arunos L` with traps by the code. -/
def machineCode (σ : Type) [BlockDevice σ] (L : Layout) (E : EntryImage) :
    System (Machine σ) Event where
  init m := ∃ ram dev out k, (cEntry L).run (Kernel.initial ram dev) = some (out, k) ∧
    Departs E k out m
  step := codeStep L E

/-- **A trap by the code is a step of the machine.** -/
theorem CodeTrap.step (h : CodeTrap L E k cpu t m') :
    step L (.user k cpu) (.trap t) = some m' := by
  obtain ⟨getCurrentContext, s, v, out, k', hg, hs, hrun, hhandler, hleave⟩ := h
  obtain ⟨u, rfl, hu⟩ := (Trap.wp_entry hs hg).elim hrun
  have hcpu : u.context (u.reg 14) = cpu := by rw [hu.lr, hu.context, hs.context]
  have hreg : (u.pushed (t.stacked ++ [14])).reg 14 = u.reg 14 := Arm.pushed_reg_of_ne (by decide)
  rw [hreg, Arm.pushed_context, hcpu, hu.readContexts hs] at hhandler
  refine Option.map_eq_some_iff.mpr ⟨(out, k'), hhandler, ?_⟩
  cases hleave with
  | ret kept stack result run =>
      have hw := (Trap.wp_exit hu.sp kept stack result).elim run
      rw [leave, hw, hcpu]
  | departs h => exact (h.eq _).symm

/-! ### The code takes every step -/

omit [BlockDevice σ] in
/-- A processor that takes the exception. -/
theorem exists_takes (E : EntryImage) (k : Kernel σ) (cpu : Context) (t : Trap) :
    ∃ s, t.Takes E k cpu s := by
  obtain ⟨mem, hmem⟩ := exists_holdsProcesses E k
  refine ⟨⟨fun r => if r = 14 then cpu .RESTART_ADDR + t.linkOffset
    else cpu (contextItems.getD (r + 2) .CPSR), cpu .SP, cpu .LR, cpu .CPSR, false, 0, mem⟩, ?_,
    rfl, hmem⟩
  funext item
  cases item <;> rfl

/-- A compiled `get_current_context`. -/
theorem exists_getsContext (E : EntryImage) (low : Nat) : ∃ f, GetsContext E low f := by
  refine ⟨do modify fun s => s.set 0 (E.currentContext s.mem); movPc 14,
    fun s _ => wp_modify_bind (wp_modify ?_)⟩
  have hreg : ∀ r : Fin 15, r ≠ 0 → (s.set 0 (E.currentContext s.mem)).reg r = s.reg r :=
    fun r hr => Arm.set_reg_of_ne hr
  refine ⟨⟨⟨hreg 13 (by decide), rfl, rfl, rfl, fun _ _ => rfl⟩, fun r h₄ _ => hreg r ?_,
    hreg 14 (by decide)⟩, ?_⟩
  · rintro rfl
    exact absurd h₄ (by decide)
  · exact (Arm.set_reg_self : (s.set 0 (E.currentContext s.mem)).reg 0 = _)

omit [BlockDevice σ] in
theorem exists_departs {c : Fin 10} (E : EntryImage) (hc : k.currentProcess = some c) :
    Departs E k .resume (switchToContext k) := by
  obtain ⟨mem, hmem⟩ := exists_holdsProcesses E k
  let v : Arm := ⟨fun _ => E.contextAddr c, 0, 0, 0, false, 0, mem⟩
  obtain ⟨⟨⟩, w, hrun, -⟩ := (wp_switchToContextCode (F := False) v).total not_false
  have hd : Departs E k .resume (.user k (w.context w.pc)) := .resume hc rfl hmem hrun
  rwa [hd.eq fun _ _ => 0] at hd

omit [BlockDevice σ] in
/-- The code leaves wherever a settled handler does. -/
theorem exists_leaves {a' : Tasks} {sp' : Fin 10 → Option Space} {c : Fin 10} {out : Outcome}
    (hset : Tasks.Settled c a' out) (hr : Runs L k' a' sp') (hsp : u.reg 13 = t.stackStart E) :
    Leaves E t (u.pushed (t.stacked ++ [14])) k' out
      (leave (t.back (u.context (u.reg 14))) out k') := by
  cases hset with
  | ret r _ _ =>
      let v := (u.pushed (t.stacked ++ [14])).set 0 (word r)
      have kept : Keeps (t.stackStart E - 4096) (u.pushed (t.stacked ++ [14])) v v.mem :=
        ⟨Arm.set_reg_of_ne (by decide), rfl, rfl, rfl, fun _ _ => rfl⟩
      obtain ⟨⟨⟩, w, hrun, hw⟩ := (Trap.wp_exit hsp kept (fun _ _ _ => rfl)
        fun _ _ => Arm.set_reg_self).total not_false
      rw [leave, ← hw]
      exact .ret kept (fun _ _ _ => rfl) (fun _ _ => Arm.set_reg_self) hrun
  | resume d hd _ => exact .departs (exists_departs E (hr.current.trans hd))
  | panic _ => exact .departs .panic

/-- **A step of a trap is a trap by the code.** -/
theorem exists_codeTrap {a : Tasks} {sp : Fin 10 → Option Space} {c : Fin 10} (E : EntryImage)
    (h : Runs L k a sp) (hc : a.current = some c) (hr : a.table c = some .ready)
    (hs : step L (.user k cpu) (.trap t) = some m') : CodeTrap L E k cpu t m' := by
  obtain ⟨h₁, hcpu⟩ := h.saveContext hc cpu
  obtain ⟨⟨out, k'⟩, hrun, rfl⟩ := Option.map_eq_some_iff.mp hs
  obtain ⟨a', sp', htrap⟩ := (wp_handler h₁ hc hr hcpu).elim hrun
  obtain ⟨getCurrentContext, hg⟩ := exists_getsContext E (t.stackStart E - 4096)
  obtain ⟨s, htakes⟩ := exists_takes E k cpu t
  obtain ⟨⟨⟩, v, hentry, u, rfl, hu⟩ := (Trap.wp_entry htakes hg).total not_false
  have hcontext : u.context (u.reg 14) = cpu := by rw [hu.lr, hu.context, htakes.context]
  have hlr : (u.pushed (t.stacked ++ [14])).reg 14 = u.reg 14 := Arm.pushed_reg_of_ne (by decide)
  have hleave := exists_leaves (htrap.reacts.settled hc hr) htrap.runs hu.sp
  rw [hcontext] at hleave
  refine ⟨getCurrentContext, s, _, out, k', hg, htakes, hentry, ?_, hleave⟩
  rw [hlr, Arm.pushed_context, hcontext, hu.readContexts htakes]
  exact hrun

/-- A step by the code is a step of the machine. -/
theorem codeStep_step {e : Event} (h : codeStep L E m e m') : step L m e = some m' := by
  unfold codeStep at h
  split at h
  · exact h.step
  · exact h

/-- A step of a sane machine is a step by the code. -/
theorem exists_codeStep {e : Event} (E : EntryImage) (h : Sane L m) (hs : step L m e = some m') :
    codeStep L E m e m' := by
  obtain ⟨k, cpu, rfl, hcases⟩ := step_cases hs
  rcases hcases with ⟨cpu', rfl, -⟩ | ⟨virtual, b, addr, rfl, -⟩ | ⟨t, rfl, -⟩
  · exact hs
  · exact hs
  · rcases h with ⟨a, sp, hin, -⟩ | ⟨k, ⟨⟩, -⟩
    cases hin with
    | user c hruns hc hr => exact exists_codeTrap E hruns hc hr hs

/-- **The two systems reach the same machines.** -/
theorem machineCode_reachable : (machineCode σ L E).Reachable m ↔ (arunos σ L).Reachable m := by
  refine ⟨fun h => ?_, fun h => ?_⟩
  · induction h with
    | init hi =>
        obtain ⟨ram, dev, out, k, hrun, hd⟩ := hi
        exact .init ⟨ram, dev, out, k, hrun, hd.eq _⟩
    | step _ hs ih => exact ih.step (codeStep_step hs)
  · induction h with
    | init hi =>
        obtain ⟨ram, dev, out, k, hrun, rfl⟩ := hi
        refine .init ⟨ram, dev, out, k, hrun, ?_⟩
        rcases (wp_cEntry ram dev).elim hrun with ⟨rfl, -⟩ | ⟨rfl, s, hs⟩
        · exact .halt
        · exact exists_departs E (hs.runs.current.trans rfl)
    | step hreach hs ih => exact ih.step (exists_codeStep E (Reachable.sane hreach) hs)

end System

end Arunos
