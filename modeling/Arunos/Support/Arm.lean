import Arunos.Support.Fault
import Mathlib.Data.Fin.Basic
import Mathlib.Logic.Function.Basic
import Mathlib.Order.Fin.Basic
import Mathlib.Tactic.Linarith

/-!
# Support — Arm — ARM code in an exception mode

The processor in an exception mode sees the registers `r0`–`r12`, which all modes share, a stack
pointer and a link register of its own (numbers 13 and 14), the status register it has saved, and
the user's own `sp` and `lr` by the user-bank forms of the multiple transfers.  Memory is read and
written by aligned words, and addresses do not wrap.

Code is a program over `Arm` that faults when a routine returns anywhere but behind its call (`bl`).
The stack grows down from `sp`; what lies below it belongs to nobody.  `Keeps low s t m` says that
`t` is back at the stack level of `s` with the memory `m`, but for the words from `low` up to the
stack pointer: what code that uses the stack leaves (`Keeps.popped`), and what a C function leaves
under the procedure call standard (`Returns`).
-/

namespace Arunos

/-- Registers are named by literals of `Fin 15`. -/
instance neZeroRegisters : NeZero 15 := ⟨by decide⟩

/-- The processor in an exception mode. -/
structure Arm where
  reg : Fin 15 → Nat
  spUsr : Nat
  lrUsr : Nat
  spsr : Nat
  zero : Bool
  pc : Nat
  mem : Nat → Nat

/-- Code. -/
abbrev ArmM := StateT Arm Option

/-! ### Multiple transfers -/

/-- The memory with the words `vs` from `a` on. -/
def stm (m : Nat → Nat) (a : Nat) (vs : List Nat) : Nat → Nat := fun x =>
  if a ≤ x ∧ (x - a) % 4 = 0 then vs[(x - a) / 4]?.getD (m x) else m x

/-- The registers with those of `rs` loaded from `a` on. -/
def ldm (m : Nat → Nat) (a : Nat) (rs : List (Fin 15)) (reg : Fin 15 → Nat) : Fin 15 → Nat :=
  fun r => if r ∈ rs then m (a + 4 * rs.idxOf r) else reg r

/-- The words stored are found at their addresses. -/
theorem stm_word {m : Nat → Nat} {a i : Nat} {vs : List Nat} (h : i < vs.length) :
    stm m a vs (a + 4 * i) = vs[i] := by
  have hi : (a + 4 * i - a) / 4 = i := by omega
  rw [stm, if_pos ⟨by omega, by omega⟩, hi, List.getElem?_eq_getElem h, Option.getD_some]

/-- Words outside the block keep their values. -/
theorem stm_other {m : Nat → Nat} {a x : Nat} {vs : List Nat}
    (h : x < a ∨ a + 4 * vs.length ≤ x) : stm m a vs x = m x := by
  unfold stm
  split
  · rw [List.getElem?_eq_none (by omega), Option.getD_none]
  · rfl

theorem stm_congr {m m' : Nat → Nat} {a x : Nat} {vs : List Nat} (h : m' x = m x) :
    stm m' a vs x = stm m a vs x := by
  unfold stm
  rw [h]

/-- What has been stored is loaded again. -/
theorem ldm_stm {m m' : Nat → Nat} {a : Nat} {rs : List (Fin 15)} {reg reg' : Fin 15 → Nat}
    (h : ∀ i < rs.length, m' (a + 4 * i) = stm m a (rs.map reg) (a + 4 * i)) (r : Fin 15) :
    ldm m' a rs reg' r = if r ∈ rs then reg r else reg' r := by
  unfold ldm
  split
  next hr =>
    have hlt : rs.idxOf r < rs.length := List.idxOf_lt_length_iff.mpr hr
    rw [h _ hlt, stm_word (by rwa [List.length_map]), List.getElem_map, List.getElem_idxOf]
  · rfl

/-- A block is its first word and the block after it. -/
theorem stm_cons (m : Nat → Nat) (a v : Nat) (vs : List Nat) :
    stm m a (v :: vs) = Function.update (stm m (a + 4) vs) a v := by
  funext x
  rw [Function.update_apply]
  by_cases hx : x = a
  · subst hx
    simp [stm]
  rw [if_neg hx]
  by_cases ha : a + 4 ≤ x
  · have hdiv : (x - a) / 4 = (x - (a + 4)) / 4 + 1 := by omega
    have hmod : (a ≤ x ∧ (x - a) % 4 = 0) ↔ (a + 4 ≤ x ∧ (x - (a + 4)) % 4 = 0) := by omega
    simp only [stm, hdiv, List.getElem?_cons_succ, hmod]
  · rw [stm, stm, if_neg (by omega), if_neg (by omega)]

/-- A word below the block may as well be stored after it. -/
theorem stm_update {m : Nat → Nat} {a x v : Nat} {vs : List Nat} (h : x < a) :
    stm (Function.update m x v) a vs = Function.update (stm m a vs) x v := by
  funext y
  by_cases hy : y = x
  · subst hy
    rw [stm_other (.inl h), Function.update_self, Function.update_self]
  · rw [Function.update_of_ne hy]
    exact stm_congr (Function.update_of_ne hy _ _)

/-! ### Instructions -/

namespace Arm

variable (s : Arm)

/-- A register of the user's. -/
def user (r : Fin 15) : Nat := if r = 13 then s.spUsr else if r = 14 then s.lrUsr else s.reg r

/-- The state with another value in a register. -/
def set (r : Fin 15) (v : Nat) : Arm := { s with reg := Function.update s.reg r v }

/-- The state with another memory. -/
def setMem (m : Nat → Nat) : Arm := { s with mem := m }

/-- The state after `push {rs}`. -/
def pushed (rs : List (Fin 15)) : Arm :=
  { s with
    reg := Function.update s.reg 13 (s.reg 13 - 4 * rs.length)
    mem := stm s.mem (s.reg 13 - 4 * rs.length) (rs.map s.reg) }

/-- The state after `pop {rs}`. -/
def popped (rs : List (Fin 15)) : Arm :=
  { s with
    reg := Function.update (ldm s.mem (s.reg 13) rs s.reg) 13 (s.reg 13 + 4 * rs.length) }

variable {s} {r r' : Fin 15} {v : Nat} {rs : List (Fin 15)}

/-- The user registers depend on the banked `sp` and `lr` and on the others alone. -/
theorem user_congr {t : Arm} (hsp : t.spUsr = s.spUsr) (hlr : t.lrUsr = s.lrUsr)
    (hreg : r ≠ 13 → r ≠ 14 → t.reg r = s.reg r) : t.user r = s.user r := by
  unfold user
  split
  · exact hsp
  split
  · exact hlr
  · exact hreg ‹_› ‹_›

@[simp]
theorem set_reg_self : (s.set r v).reg r = v := by
  simp [set]

@[simp]
theorem set_reg_of_ne (h : r' ≠ r) : (s.set r v).reg r' = s.reg r' := by
  simp [set, h]

@[simp]
theorem setMem_reg {m : Nat → Nat} : (s.setMem m).reg = s.reg := rfl

/-- A push moves the stack pointer down by its words. -/
@[simp]
theorem pushed_sp : (s.pushed rs).reg 13 = s.reg 13 - 4 * rs.length := by
  simp [pushed]

@[simp]
theorem pushed_reg_of_ne (h : r ≠ 13) : (s.pushed rs).reg r = s.reg r := by
  simp [pushed, h]

/-- A pop moves the stack pointer up by its words. -/
theorem popped_sp : (s.popped rs).reg 13 = s.reg 13 + 4 * rs.length := by
  simp [popped]

/-- A pop loads its registers from the stack. -/
theorem popped_reg_of_ne (h : r ≠ 13) :
    (s.popped rs).reg r = ldm s.mem (s.reg 13) rs s.reg r := by
  simp [popped, h]

end Arm

/-- The registers from `i` to `j`. -/
def regs (i j : Nat) : List (Fin 15) := (List.range' i (j + 1 - i)).map (Fin.ofNat 15)

/-- `push {rs}`, which is `stmfd r13!, {rs}`. -/
def push (rs : List (Fin 15)) : ArmM Unit := modify fun s => s.pushed rs

/-- `pop {rs}`, which is `ldmfd r13!, {rs}`. -/
def pop (rs : List (Fin 15)) : ArmM Unit := modify fun s => s.popped rs

/-- `mov rd, rn`. -/
def mov (rd rn : Fin 15) : ArmM Unit := modify fun s => s.set rd (s.reg rn)

/-- `ldr rd, =value`. -/
def ldr (rd : Fin 15) (value : Nat) : ArmM Unit := modify fun s => s.set rd value

/-- `add rd, #n`. -/
def add (rd : Fin 15) (n : Nat) : ArmM Unit := modify fun s => s.set rd (s.reg rd + n)

/-- `sub rd, rd, #n`. -/
def sub (rd : Fin 15) (n : Nat) : ArmM Unit := modify fun s => s.set rd (s.reg rd - n)

/-- `str rd, [rn]`. -/
def str (rd rn : Fin 15) : ArmM Unit :=
  modify fun s => s.setMem (Function.update s.mem (s.reg rn) (s.reg rd))

/-- `mrs rd, SPSR`. -/
def mrs (rd : Fin 15) : ArmM Unit := modify fun s => s.set rd s.spsr

/-- `msr SPSR_fsxc, rn`. -/
def msr (rn : Fin 15) : ArmM Unit := modify fun s => { s with spsr := s.reg rn }

/-- `cmp rn, #n`. -/
def cmp (rn : Fin 15) (n : Nat) : ArmM Unit := modify fun s => { s with zero := s.reg rn = n }

/-- `ldmia rn!, {rs}`. -/
def ldmia (rn : Fin 15) (rs : List (Fin 15)) : ArmM Unit := modify fun s =>
  { s with reg := Function.update (ldm s.mem (s.reg rn) rs s.reg) rn (s.reg rn + 4 * rs.length) }

/-- `stmia rn, {rs}^`: the user's registers. -/
def stmiaUser (rn : Fin 15) (rs : List (Fin 15)) : ArmM Unit :=
  modify fun s => s.setMem (stm s.mem (s.reg rn) (rs.map s.user))

/-- `ldmia rn, {rs}^`: the user's registers. -/
def ldmiaUser (rn : Fin 15) (rs : List (Fin 15)) : ArmM Unit := modify fun s =>
  let user := ldm s.mem (s.reg rn) rs s.user
  { s with
    reg := fun r => if r = 13 ∨ r = 14 then s.reg r else user r
    spUsr := user 13
    lrUsr := user 14 }

/-- `mov pc, rn`; with `movs` the saved status comes back too, and the mode is left. -/
def movPc (rn : Fin 15) : ArmM Unit := modify fun s => { s with pc := s.reg rn }

/-- `ldmfd r13!, {rs, pc}^`, which leaves the mode. -/
def popPc (rs : List (Fin 15)) : ArmM Unit := modify fun s =>
  { s.popped rs with pc := s.mem (s.reg 13 + 4 * rs.length) }

/-- `bl f`, where `site` is the address of the next instruction. -/
def bl (site : Nat) (f : ArmM Unit) : ArmM Unit := do
  modify fun s => s.set 14 site
  f
  if (← get).pc = site then return () else failure

section Rules

variable {F : Prop} {s : Arm} {rd rn : Fin 15} {n v addr : Nat} {f : Unit → ArmM Unit}
  {Q : Unit → Arm → Prop}

/-- The rule of `mov`. -/
theorem wp_mov (hv : s.reg rn = v) (h : wp F (f ()) (s.set rd v) Q) :
    wp F (mov rd rn >>= f) s Q := by
  subst hv
  exact wp_modify_bind h

/-- The rule of `add`. -/
theorem wp_add (hv : s.reg rd = v) (h : wp F (f ()) (s.set rd (v + n)) Q) :
    wp F (add rd n >>= f) s Q := by
  subst hv
  exact wp_modify_bind h

/-- The rule of `str`. -/
theorem wp_str (ha : s.reg rn = addr) (hv : s.reg rd = v)
    (h : wp F (f ()) (s.setMem (Function.update s.mem addr v)) Q) : wp F (str rd rn >>= f) s Q := by
  subst ha hv
  exact wp_modify_bind h

/-- The rule of `stmia` with the user registers. -/
theorem wp_stmiaUser {rs : List (Fin 15)} {vs : List Nat} (ha : s.reg rn = addr)
    (hvs : rs.map s.user = vs) (h : wp F (f ()) (s.setMem (stm s.mem addr vs)) Q) :
    wp F (stmiaUser rn rs >>= f) s Q := by
  subst ha hvs
  exact wp_modify_bind h

end Rules

/-! ### The stack -/

/-- Back at the stack level of `s` with the memory `m`, but for the words below the stack. -/
structure Keeps (low : Nat) (s t : Arm) (m : Nat → Nat) : Prop where
  sp : t.reg 13 = s.reg 13
  spUsr : t.spUsr = s.spUsr
  lrUsr : t.lrUsr = s.lrUsr
  spsr : t.spsr = s.spsr
  mem : ∀ x, x < low ∨ s.reg 13 ≤ x → t.mem x = m x

/-- What the procedure call standard leaves when a function has returned: the stack, the registers
`r4`–`r11`, and the caller goes on. -/
structure Returns (low : Nat) (s t : Arm) (m : Nat → Nat) : Prop extends Keeps low s t m where
  saved : ∀ r, 4 ≤ r → r ≤ 11 → t.reg r = s.reg r
  pc : t.pc = s.reg 14

variable {F : Prop} {low : Nat} {s t u : Arm} {m m' : Nat → Nat} {rs : List (Fin 15)}

/-- The rule of a call: the code returns to the address after it. -/
theorem wp_bl {site : Nat} {f : ArmM Unit} {Q : Unit → Arm → Prop}
    (h : wp F f (s.set 14 site) fun _ t => t.pc = site ∧ Q () t) : wp F (bl site f) s Q := by
  refine wp_modify_bind (wp_seq h ?_)
  rintro - t ⟨hpc, hq⟩
  refine wp_get_bind ?_
  rw [if_pos hpc]
  exact wp_pure hq

/-- A call of a routine that keeps the registers. -/
theorem wp_bl_keeps {site : Nat} {f : ArmM Unit}
    (h : wp F f (s.set 14 site) fun _ t => t.pc = (s.set 14 site).reg 14 ∧
      t.reg = (s.set 14 site).reg ∧ Keeps low (s.set 14 site) t m) :
    wp F (bl site f) s fun _ t => (∀ r ≠ 14, t.reg r = s.reg r) ∧ Keeps low s t m := by
  refine wp_bl (wp_mono h ?_)
  rintro - t ⟨hpc, hreg, ht⟩
  have hsp : (s.set 14 site).reg 13 = s.reg 13 := Arm.set_reg_of_ne (by decide)
  refine ⟨hpc.trans Arm.set_reg_self, fun r hr => ?_, ht.sp.trans hsp, ht.spUsr, ht.lrUsr, ht.spsr,
    fun x hx => ht.mem x (by rwa [hsp])⟩
  rw [hreg, Arm.set_reg_of_ne hr]

/-- A call of a C function. -/
theorem Returns.wp_bl {site : Nat} {f : ArmM Unit} {P : Arm → Prop}
    (h : wp F f (s.set 14 site) fun _ t => Returns low (s.set 14 site) t m ∧ P t) :
    wp F (bl site f) s fun _ t => Keeps low s t m ∧ P t := by
  refine Arunos.wp_bl (wp_mono h ?_)
  rintro - t ⟨ht, hP⟩
  have hsp : (s.set 14 site).reg 13 = s.reg 13 := Arm.set_reg_of_ne (by decide)
  exact ⟨ht.pc.trans Arm.set_reg_self, ⟨ht.sp.trans hsp, ht.spUsr, ht.lrUsr, ht.spsr,
    fun x hx => ht.mem x (by rwa [hsp])⟩, hP⟩

theorem Keeps.congr (h : Keeps low s t m) (hm : ∀ x, x < low ∨ s.reg 13 ≤ x → m x = m' x) :
    Keeps low s t m' :=
  ⟨h.sp, h.spUsr, h.lrUsr, h.spsr, fun x hx => (h.mem x hx).trans (hm x hx)⟩

/-- One piece of code after another. -/
theorem Keeps.trans (h : Keeps low s t m) (h' : Keeps low t u m') : Keeps low s u m' :=
  ⟨h'.sp.trans h.sp, h'.spUsr.trans h.spUsr, h'.lrUsr.trans h.lrUsr, h'.spsr.trans h.spsr,
    fun x hx => h'.mem x (by rwa [h.sp])⟩

/-- A `push` changes words below the stack only. -/
theorem pushed_mem (hroom : low + 4 * rs.length ≤ s.reg 13) {x : Nat}
    (hx : x < low ∨ s.reg 13 ≤ x) : (s.pushed rs).mem x = s.mem x :=
  stm_other (by rw [List.length_map]; omega)

/-- The pushed words are still on the stack. -/
theorem Keeps.stacked (h : Keeps low (s.pushed rs) t m) (hroom : 4 * rs.length ≤ s.reg 13)
    (hm : ∀ x, s.reg 13 - 4 * rs.length ≤ x → x < s.reg 13 → m x = (s.pushed rs).mem x) :
    ∀ i < rs.length, t.mem (t.reg 13 + 4 * i) =
      stm s.mem (t.reg 13) (rs.map s.reg) (t.reg 13 + 4 * i) := by
  intro i hi
  have hsp : t.reg 13 = s.reg 13 - 4 * rs.length := h.sp.trans Arm.pushed_sp
  rw [h.mem _ (.inr (by rw [h.sp]; omega)), hm _ (by omega) (by omega), Arm.pushed, hsp]

/-- Code between a `push` and its `pop` that leaves the pushed words alone. -/
theorem Keeps.popped (h : Keeps low (s.pushed rs) t m) (hroom : low + 4 * rs.length ≤ s.reg 13)
    (hm : ∀ x, s.reg 13 - 4 * rs.length ≤ x → x < s.reg 13 → m x = (s.pushed rs).mem x) :
    Keeps low s (t.popped rs) m ∧
      ∀ r, (t.popped rs).reg r = if r ∈ rs ∨ r = 13 then s.reg r else t.reg r := by
  have hsp : t.reg 13 = s.reg 13 - 4 * rs.length := h.sp.trans Arm.pushed_sp
  have hreg : ∀ r, (t.popped rs).reg r = if r ∈ rs ∨ r = 13 then s.reg r else t.reg r := by
    intro r
    by_cases hr : r = 13
    · subst hr
      rw [Arm.popped_sp, if_pos (.inr rfl), hsp]
      omega
    · rw [Arm.popped_reg_of_ne hr, ldm_stm (h.stacked (by omega) hm)]
      simp only [hr, or_false]
  refine ⟨⟨?_, h.spUsr, h.lrUsr, h.spsr, fun x hx => h.mem x ?_⟩, hreg⟩
  · rw [hreg, if_pos (.inr rfl)]
  · rw [Arm.pushed_sp]
    omega

/-- Code between a `push` and its `pop` that changes words below the stack only. -/
theorem Keeps.protect (h : Keeps low (s.pushed rs) t (s.pushed rs).mem)
    (hroom : low + 4 * rs.length ≤ s.reg 13) :
    Keeps low s (t.popped rs) s.mem ∧
      ∀ r, (t.popped rs).reg r = if r ∈ rs ∨ r = 13 then s.reg r else t.reg r := by
  obtain ⟨hk, hreg⟩ := h.popped hroom fun _ _ _ => rfl
  exact ⟨hk.congr fun x hx => pushed_mem hroom hx, hreg⟩

/-- `ldmfd r13!, {rs, pc}^` after `stmfd r13!, {rs, r14}`. -/
theorem Keeps.wp_popPc (h : Keeps low (s.pushed (rs ++ [14])) t m)
    (hroom : 4 * (rs ++ [14]).length ≤ s.reg 13)
    (hm : ∀ x, s.reg 13 - 4 * (rs ++ [14]).length ≤ x → x < s.reg 13 →
      m x = (s.pushed (rs ++ [14])).mem x) :
    wp F (popPc rs) t fun _ u => u.pc = s.reg 14 ∧ u.spsr = s.spsr ∧
      ∀ r, u.user r = if r ∈ rs ∨ r = 13 ∨ r = 14 then s.user r else t.reg r := by
  have hlen : (rs ++ [(14 : Fin 15)]).length = rs.length + 1 := List.length_append
  have hword : ∀ i (hi : i < rs.length + 1), t.mem (t.reg 13 + 4 * i) =
      s.reg ((rs ++ [14]).get ⟨i, hlen ▸ hi⟩) := by
    intro i hi
    rw [h.stacked hroom hm i (by rwa [hlen]), stm_word (by rwa [List.length_map, hlen]),
      List.getElem_map]
    rfl
  have hstack : ∀ i < rs.length, t.mem (t.reg 13 + 4 * i) =
      stm s.mem (t.reg 13) (rs.map s.reg) (t.reg 13 + 4 * i) := by
    intro i hi
    rw [hword i (by omega), stm_word (by rwa [List.length_map]), List.getElem_map,
      List.get_eq_getElem, List.getElem_append_left hi]
  refine wp_modify ⟨?_, h.spsr, fun r => ?_⟩
  · change t.mem (t.reg 13 + 4 * rs.length) = _
    rw [hword _ (by omega), List.get_eq_getElem, List.getElem_append_right le_rfl]
    simp
  · unfold Arm.user
    by_cases hr : r = 13
    · rw [if_pos hr, if_pos hr, if_pos (.inr (.inl hr))]
      exact h.spUsr
    by_cases hr' : r = 14
    · rw [if_neg hr, if_neg hr, if_pos hr', if_pos hr', if_pos (.inr (.inr hr'))]
      exact h.lrUsr
    · simp only [hr, hr', if_false, or_false]
      exact (Arm.popped_reg_of_ne hr).trans (ldm_stm hstack r)

end Arunos
