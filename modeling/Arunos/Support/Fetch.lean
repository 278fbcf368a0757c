import Mathlib.Data.Fin.Basic
import Mathlib.Logic.Function.Basic
import Mathlib.Logic.Relation
import Mathlib.Order.Fin.Basic
import Arunos.Support.Arm
import Arunos.Support.Word

/-!
# Support — Fetch — ARM code that is fetched through the MMU

A `Core` has the registers of a privileged mode, the system control registers and physical memory.
Its code lies in memory too and is fetched at `pc`: with the MMU off at that address, with the MMU
on where the section table has it (`Core.translate`).  So code that turns the MMU on goes on where
the new table has the next instruction.  A fetch or an access that the table does not permit is a
fault, and there is no step.

Code is proved in pieces.  A `Straight` block changes registers and flags only (`Reaches.block`), a
call of a routine of one instruction comes back behind the call (`Reaches.call`), and the pieces are
put together by `Reaches.trans`.  The translation that the pieces rest on is `Core.Sees n`: up to
`n`, addresses mean themselves.
-/

namespace Arunos

/-- The processor in a privileged mode.  Memory is accessed by words, each at its first address. -/
structure Core where
  reg : Fin 15 → Nat
  pc : Nat
  zero : Bool
  cpsr : Nat
  control : Nat
  tableBase : Nat
  domains : Nat
  mem : Nat → Nat

/-- The instructions.  The targets of branches are relative to the instruction. -/
inductive Instr where
  | loadConst (rd : Fin 15) (n : Nat)
  | mov (rd rn : Fin 15)
  | add (rd : Fin 15) (n : Nat)
  | sub (rd : Fin 15) (n : Nat)
  | orr (rd : Fin 15) (n : Nat)
  | bic (rd : Fin 15) (n : Nat)
  | cmp (rn rm : Fin 15)
  | mrs (rd : Fin 15)
  | msr (rn : Fin 15)
  | ldr (rd rn : Fin 15)
  | str (rd rn : Fin 15)
  | push (rd : Fin 15)
  | pop (rd : Fin 15)
  | bne (offset : Int)
  | bl (offset : Int)
  | movPc (rn : Fin 15)
  | readControl (rd : Fin 15)
  | setControl (rn : Fin 15)
  | setTableBase (rn : Fin 15)
  | setDomains (rn : Fin 15)

/-- The difference of two words. -/
def sub32 (a b : Nat) : Nat := u32 (a + 2 ^ 32 - b)

/-- A difference that is not negative does not wrap. -/
theorem sub32_of_le {a b : Nat} (h : b ≤ a) (ha : a < 2 ^ 32) : sub32 a b = a - b := by
  rw [sub32, u32]
  omega

namespace Core

variable (s : Core)

/-- A section may be accessed: its domain is open, or its permissions are checked and are not
empty. -/
def permits (entry : Nat) : Bool :=
  let access := s.domains / 4 ^ (entry / 2 ^ 5 % 16) % 4
  access = 3 || access = 1 && entry / 2 ^ 10 % 4 ≠ 0

/-- The physical address of an address, by a table of sections. -/
def translate (virtual : Nat) : Option Nat :=
  if s.control % 2 = 0 then some virtual
  else
    let entry := s.mem (s.tableBase + 4 * (virtual / 2 ^ 20))
    if entry % 4 = 2 ∧ s.permits entry then some (entry / 2 ^ 20 * 2 ^ 20 + virtual % 2 ^ 20)
    else none

/-- On to the next instruction. -/
def next : Core := { s with pc := s.pc + 4 }

def set (r : Fin 15) (v : Nat) : Core := { s with reg := Function.update s.reg r v }

def jump (offset : Int) : Core := { s with pc := (s.pc + offset).toNat }

/-- What an instruction does that is neither an access nor a branch. -/
def effect : Instr → Core
  | .loadConst rd n => s.set rd n
  | .mov rd rn => s.set rd (s.reg rn)
  | .add rd n => s.set rd (u32 (s.reg rd + n))
  | .sub rd n => s.set rd (sub32 (s.reg rd) n)
  | .orr rd n => s.set rd (s.reg rd ||| n)
  | .bic rd n => s.set rd (s.reg rd - (s.reg rd &&& n))
  | .cmp rn rm => { s with zero := s.reg rn = s.reg rm }
  | .mrs rd => s.set rd s.cpsr
  | .msr rn => { s with cpsr := s.cpsr / 256 * 256 + s.reg rn % 256 }
  | .readControl rd => s.set rd s.control
  | .setControl rn => { s with control := s.reg rn }
  | .setTableBase rn => { s with tableBase := s.reg rn }
  | .setDomains rn => { s with domains := s.reg rn }
  | _ => s

/-- The execution of an instruction. -/
def exec : Instr → Option Core
  | .ldr rd rn => do
      let p ← s.translate (s.reg rn)
      return (s.set rd (s.mem p)).next
  | .str rd rn => do
      let p ← s.translate (s.reg rn)
      return { s with mem := Function.update s.mem p (s.reg rd) }.next
  | .push rd => do
      let p ← s.translate (sub32 (s.reg 13) 4)
      return { s.set 13 (sub32 (s.reg 13) 4) with mem := Function.update s.mem p (s.reg rd) }.next
  | .pop rd => do
      let p ← s.translate (s.reg 13)
      return ((s.set 13 (u32 (s.reg 13 + 4))).set rd (s.mem p)).next
  | .bne offset => some (if s.zero then s.next else s.jump offset)
  | .bl offset => some ((s.set 14 (s.pc + 4)).jump offset)
  | .movPc rn => some { s with pc := s.reg rn }
  | i => some (s.effect i).next

/-- Up to `n`, addresses mean themselves. -/
def Sees (n : Nat) : Prop := ∀ a < n, s.translate a = some a

end Core

/-- Fetch and execute; `code` are the instructions in physical memory. -/
def fetchStep (code : Nat → Option Instr) (s : Core) : Option Core := do
  let p ← s.translate s.pc
  let i ← code p
  s.exec i

/-- The states that code comes to. -/
def Reaches (code : Nat → Option Instr) : Core → Core → Prop :=
  Relation.ReflTransGen fun s t => fetchStep code s = some t

/-- The instructions lie in memory from `p` on. -/
def Resident (code : Nat → Option Instr) (p : Nat) (is : List Instr) : Prop :=
  ∀ j (h : j < is.length), code (p + 4 * j) = some is[j]

/-- Registers and flags only. -/
def Instr.Straight : Instr → Bool
  | .loadConst .. | .mov .. | .add .. | .sub .. | .orr .. | .bic .. | .cmp .. | .mrs .. | .msr .. =>
      true
  | _ => false

/-- A control register is read or written. -/
def Instr.System : Instr → Bool
  | .readControl .. | .setControl .. | .setTableBase .. | .setDomains .. => true
  | _ => false

variable {code : Nat → Option Instr} {s t u : Core} {i : Instr}
  {is js : List Instr} {n p : Nat}

/-- Below `n` an address stands for itself. -/
theorem Core.Sees.fetch (hs : s.Sees n) (hpc : s.pc = p) (hp : p < n) :
    s.translate s.pc = some p := by
  rw [hpc]
  exact hs p hp

theorem Resident.head (h : Resident code p (i :: is)) : code p = some i :=
  h 0 (Nat.succ_pos _)

/-- The instructions after the first lie four bytes on. -/
theorem Resident.tail (h : Resident code p (i :: is)) : Resident code (p + 4) is := by
  intro j hj
  have := h (j + 1) (Nat.succ_lt_succ hj)
  rwa [show p + 4 * (j + 1) = p + 4 + 4 * j by omega] at this

theorem Resident.left (h : Resident code p (is ++ js)) : Resident code p is := by
  intro j hj
  rw [h j (by rw [List.length_append]; omega), List.getElem_append_left hj]

namespace Reaches

theorem refl (s : Core) : Reaches code s s := Relation.ReflTransGen.refl

theorem trans (h : Reaches code s t) (h' : Reaches code t u) : Reaches code s u :=
  Relation.ReflTransGen.trans h h'

/-- One instruction. -/
theorem one (hp : s.translate s.pc = some p) (hi : code p = some i) (he : s.exec i = some t) :
    Reaches code s t := by
  refine .single ?_
  show fetchStep code s = some t
  rw [fetchStep, hp, Option.bind_eq_bind, Option.bind_some, hi]
  exact he

end Reaches

/-- A branch with link. -/
theorem Reaches.bl {q : Nat} {offset : Int} (hp : s.translate s.pc = some p)
    (hcall : code p = some (.bl offset)) (hq : (s.pc + offset).toNat = q) :
    Reaches code s { s.set 14 (s.pc + 4) with pc := q } := by
  refine .one hp hcall ?_
  rw [← hq]
  rfl

/-- A straight instruction keeps what translation depends on. -/
theorem Core.translate_effect (hi : i.Straight = true) (a : Nat) :
    (s.effect i).next.translate a = s.translate a := by
  cases i <;> first | rfl | cases hi

/-- A constant is loaded and another one taken off. -/
theorem Core.effect_load_sub (rd : Fin 15) {n v : Nat} (h : n + v < 2 ^ 32) :
    ((s.effect (.loadConst rd (n + v))).next.effect (.sub rd n)).next =
      { s with reg := Function.update s.reg rd v, pc := s.pc + 4 + 4 } := by
  simp only [Core.effect, Core.set, Core.next, Function.update_self, Function.update_idem,
    sub32_of_le (Nat.le_add_right n v) h, Nat.add_sub_cancel_left]

/-- An instruction on registers and flags has its effect, and the next one follows. -/
theorem Core.exec_straight (hi : i.Straight = true) : s.exec i = some (s.effect i).next := by
  cases i <;> first | rfl | cases hi

theorem Core.exec_system (hi : i.System = true) : s.exec i = some (s.effect i).next := by
  cases i <;> first | rfl | cases hi

/-- An effect does not move the program counter. -/
theorem Core.effect_pc (i : Instr) : (s.effect i).pc = s.pc := by
  cases i <;> rfl

/-- A block of straight instructions, one after the other. -/
theorem Reaches.block (is : List Instr) (hs : s.Sees n) (hplaced : Resident code p is)
    (hpc : s.pc = p) (hn : p + 4 * is.length ≤ n) (hstraight : ∀ i ∈ is, i.Straight = true) :
    Reaches code s (is.foldl (fun s i => (s.effect i).next) s) := by
  induction is generalizing s p with
  | nil => exact .refl s
  | cons i is ih =>
      have hi := hstraight i List.mem_cons_self
      rw [List.length_cons] at hn
      have hfetch : s.translate s.pc = some p := hs.fetch hpc (by omega)
      have hsees : (s.effect i).next.Sees n := fun a ha =>
        (Core.translate_effect hi a).trans (hs a ha)
      refine (Reaches.one hfetch hplaced.head (Core.exec_straight hi)).trans ?_
      refine ih hsees hplaced.tail ?_ (by omega) fun j hj => hstraight j (List.mem_cons_of_mem _ hj)
      show (s.effect i).pc + 4 = p + 4
      rw [Core.effect_pc, hpc]

/-- An effect does not depend on the program counter. -/
theorem Core.effect_withPc (i : Instr) (a : Nat) :
    ({ s with pc := a } : Core).effect i = { s.effect i with pc := a } := by
  cases i <;> rfl

/-- A call of a routine of one instruction on the control registers: it comes back behind the
call. -/
theorem Reaches.call {q : Nat} {offset : Int} (hi : i.System = true) (hs : s.Sees n)
    (ht : ((s.set 14 (p + 4)).effect i).Sees n) (hpc : s.pc = p)
    (hcall : code p = some (.bl offset)) (hq : (p + offset).toNat = q)
    (hplaced : Resident code q [i, .movPc 14])
    (hlink : ((s.set 14 (p + 4)).effect i).reg 14 = p + 4) (hp : p < n) (hqn : q + 4 < n) :
    Reaches code s { (s.set 14 (p + 4)).effect i with pc := p + 4 } := by
  have hbl : Reaches code s { s.set 14 (p + 4) with pc := q } := by
    have := Reaches.bl (hs.fetch hpc hp) hcall (hpc ▸ hq)
    rwa [hpc] at this
  have hop : Reaches code { s.set 14 (p + 4) with pc := q }
      { (s.set 14 (p + 4)).effect i with pc := q + 4 } := by
    refine .one (hs q (by omega)) hplaced.head ?_
    rw [Core.exec_system hi, Core.effect_withPc]
    rfl
  refine (hbl.trans hop).trans (.one (ht (q + 4) hqn) hplaced.tail.head ?_)
  rw [Core.exec]
  show some { (s.set 14 (p + 4)).effect i with pc := ((s.set 14 (p + 4)).effect i).reg 14 } = _
  rw [hlink]

end Arunos
